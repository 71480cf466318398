import Easy.Base.TimerSet

/-!
Which timers `listExpiredCallback` hands out.

The end of the expired timers is found by a lower bound of a timer object that expires
now, and moved past the ties. In an ordered set what lies in front of it are the timers that
have expired, whatever the addresses. The loop then works on a copy of these, so that
a repeating timer it puts back is not met again.
-/

namespace Easy.Base

open Lib

namespace TimerManager

variable {κ : Type*} {m : TimerManager κ} {now : ℤ}

/-- The timers of the set that have expired, in the order of the set. -/
def expired (m : TimerManager κ) (now : ℤ) : List ℕ :=
  m.timers.filter fun t => (m.objs t).expiration ≤ now

/-- A timer object after it was handed out: a repeating one gets a new expiration, and a
one-shot one loses its callback. -/
def handedOut (o : Timer κ) (now : ℤ) : Timer κ :=
  if o.repeats then { o with expiration := addTime now o.interval } else { o with cb := none }

/-- What it should be: a repeating timer expires again its interval from now. -/
def rearmed (o : Timer κ) (now : ℤ) : Timer κ :=
  if o.repeats then { o with expiration := now + o.interval * 1000 } else { o with cb := none }

theorem handedOut_eq_iff {o : Timer κ} :
    handedOut o now = rearmed o now ↔ (o.repeats → FitsInt64 (now + o.interval * 1000)) := by
  rw [handedOut, rearmed]
  split
  case isTrue hrep =>
    rw [Timer.mk.injEq, addTime_eq_iff]
    simp [hrep]
  case isFalse hrep => exact iff_of_true rfl fun h => absurd h hrep

theorem mem_expired {t : ℕ} :
    t ∈ m.expired now ↔ t ∈ m.timers ∧ (m.objs t).expiration ≤ now := by
  simp [expired]

/-! ### The cut -/

/-- The front of the set that is taken out are the expired timers. -/
theorem Sorted.take_expiredEnd (h : m.Sorted) (nowTimer : ℕ) :
    m.timers.take (m.expiredEnd false now nowTimer) = m.expired now := by
  have hfront : (m.timers.take (m.expiredEnd false now nowTimer)).filter
      (fun t => (m.objs t).expiration ≤ now) = m.timers.take (m.expiredEnd false now nowTimer) :=
    List.filter_eq_self.mpr fun t ht => decide_eq_true (le_of_mem_take ht)
  have hback : (m.timers.drop (m.expiredEnd false now nowTimer)).filter
      (fun t => (m.objs t).expiration ≤ now) = [] := by
    refine List.filter_eq_nil_iff.mpr fun t ht => ?_
    simpa using h.lt_of_mem_drop ht
  calc m.timers.take (m.expiredEnd false now nowTimer)
      = (m.timers.take (m.expiredEnd false now nowTimer) ++
          m.timers.drop (m.expiredEnd false now nowTimer)).filter
            (fun t => (m.objs t).expiration ≤ now) := by
        rw [List.filter_append, hfront, hback, List.append_nil]
    _ = m.expired now := by rw [List.take_append_drop, expired]

/-! ### The loop -/

/-- Timers are handed out and may go back to the set; the others and their order stay. -/
structure HandsOut (m : TimerManager κ) (out : List ℕ) (now : ℤ) (m' : TimerManager κ) :
    Prop where
  sorted : m'.Sorted
  mem_timers : ∀ t, t ∈ m'.timers ↔ t ∈ m.timers ∨ t ∈ out ∧ (m.objs t).repeats
  objs_eq : ∀ t, m'.objs t = if t ∈ out then handedOut (m.objs t) now else m.objs t

theorem handsOut_one (h : m.Sorted) {t : ℕ} (ht : t ∉ m.timers) (now' : ℤ) :
    m.HandsOut [t] now (m.handOut t now now') := by
  rw [handOut]
  split
  case isTrue hrep =>
    have hs := h.store { m.objs t with expiration := addTime now (m.objs t).interval } ht
    refine ⟨hs.addTimerPtr t now', fun u => ?_, fun u => ?_⟩
    · rw [timers_addTimerPtr, mem_insert, timers_store, List.mem_singleton, or_comm]
      exact or_congr_right ⟨fun hu => ⟨hu, hu ▸ hrep⟩, And.left⟩
    · rw [objs_addTimerPtr]
      by_cases hu : u = t
      · subst hu
        simp [handedOut, hrep]
      · rw [objs_store_ne _ hu, if_neg (by simpa using hu)]
  case isFalse hrep =>
    refine ⟨h.store _ ht, fun u => ?_, fun u => ?_⟩
    · refine (or_iff_left ?_).symm
      rintro ⟨hu, hurep⟩
      exact hrep (List.mem_singleton.mp hu ▸ hurep)
    · by_cases hu : u = t
      · subst hu
        simp [handedOut, hrep]
      · rw [objs_store_ne _ hu, if_neg (by simpa using hu)]

/-- A timer handed out before others that it is not one of. -/
theorem HandsOut.cons {m₁ m₂ : TimerManager κ} {t : ℕ} {ts : List ℕ} (ht : t ∉ ts)
    (h : m.HandsOut [t] now m₁) (h' : m₁.HandsOut ts now m₂) : m.HandsOut (t :: ts) now m₂ where
  sorted := h'.sorted
  mem_timers := by
    intro u
    have hu : u ∈ ts → m₁.objs u = m.objs u := fun hu => by
      rw [h.objs_eq, if_neg]
      rintro hmem
      exact ht (List.mem_singleton.mp hmem ▸ hu)
    rw [h'.mem_timers, h.mem_timers, or_assoc, List.mem_singleton, List.mem_cons, or_and_right]
    exact or_congr_right (or_congr_right (and_congr_right fun hmem => by rw [hu hmem]))
  objs_eq := by
    intro u
    rw [h'.objs_eq, h.objs_eq]
    by_cases hut : u = t
    · subst hut
      simp [ht]
    · simp [hut]

/-- **The loop** hands out the callbacks its timers had before it. -/
theorem expireLoop_handsOut (now : ℤ) (clock : ℕ → ℤ) {out : List ℕ} (h : m.Sorted)
    (hnd : out.Nodup) (hdisj : ∀ t ∈ out, t ∉ m.timers) (i : ℕ) :
    (expireLoop now clock m i out).1 = out.map (fun t => (m.objs t).cb) ∧
      m.HandsOut out now (expireLoop now clock m i out).2 := by
  induction out generalizing m i with
  | nil => exact ⟨rfl, h, by simp [expireLoop], by simp [expireLoop]⟩
  | cons t ts ih =>
      obtain ⟨hnt, hnd⟩ := List.nodup_cons.mp hnd
      have hone : m.HandsOut [t] now (m.handOut t now (clock i)) :=
        handsOut_one h (hdisj t (by simp)) (clock i)
      have hdisj' : ∀ u ∈ ts, u ∉ (m.handOut t now (clock i)).timers := by
        intro u hu hin
        rw [hone.mem_timers, List.mem_singleton] at hin
        rcases hin with hin | ⟨rfl, -⟩
        · exact hdisj u (by simp [hu]) hin
        · exact hnt hu
      -- the callbacks of the others are those from before this round
      obtain ⟨hcbs, hrest⟩ := ih hone.sorted hnd hdisj' (i + 1)
      refine ⟨?_, hone.cons hnt hrest⟩
      change (m.objs t).cb :: (expireLoop now clock (m.handOut t now (clock i)) (i + 1) ts).1 = _
      rw [hcbs, List.map_cons]
      refine congrArg _ (List.map_congr_left fun u hu => ?_)
      rw [hone.objs_eq, if_neg]
      intro hmem
      exact hnt (List.mem_singleton.mp hmem ▸ hu)

/-! ### The call -/

/-- The manager when the expired timers are out of the set. -/
def cut (m : TimerManager κ) (now : ℤ) (nowTimer : ℕ) : TimerManager κ :=
  { m with previous := now, timers := m.timers.drop (m.expiredEnd false now nowTimer) }

theorem Sorted.mem_cut (h : m.Sorted) {nowTimer t : ℕ} :
    t ∈ (m.cut now nowTimer).timers ↔ t ∈ m.timers ∧ now < (m.objs t).expiration := by
  constructor
  · exact fun ht => ⟨List.mem_of_mem_drop ht, h.lt_of_mem_drop ht⟩
  · rintro ⟨ht, hlt⟩
    rw [← List.take_append_drop (m.expiredEnd false now nowTimer) m.timers, List.mem_append] at ht
    refine ht.resolve_left fun ht => ?_
    have := le_of_mem_take ht
    omega

/-- The locked part, where no rollover is detected. -/
theorem processExpired_apply (hroll : (m.detectClockRollover now).1 = false) {t : ℕ}
    (hhead : m.timers.head? = some t) (nowTimer : ℕ) (clock : ℕ → ℤ) :
    m.processExpired now nowTimer clock =
      if now < (m.objs t).expiration then some ([], { m with previous := now })
      else
        some ((expireLoop now clock (m.cut now nowTimer) 0
            (m.timers.take (m.expiredEnd false now nowTimer))).1,
          (expireLoop now clock (m.cut now nowTimer) 0
            (m.timers.take (m.expiredEnd false now nowTimer))).2.rearm
              (clock (m.expiredEnd false now nowTimer))) := by
  have hpair : m.detectClockRollover now = (false, { m with previous := now }) :=
    Prod.ext hroll rfl
  simp only [TimerManager.processExpired, hpair, Bool.false_eq_true, if_false, hhead]
  rfl

/-- Where no rollover is detected, the expired timers are handed out; if there are none
the call returns early. -/
theorem Sorted.processExpired (h : m.Sorted) (hroll : (m.detectClockRollover now).1 = false)
    (hne : m.timers ≠ []) (nowTimer : ℕ) (clock : ℕ → ℤ) :
    ∃ m', m.processExpired now nowTimer clock =
        some ((m.expired now).map fun t => (m.objs t).cb, m') ∧
      (m.cut now nowTimer).HandsOut (m.expired now) now m' := by
  have htake : m.timers.take (m.expiredEnd false now nowTimer) = m.expired now :=
    h.take_expiredEnd nowTimer
  have hcut : (m.cut now nowTimer).Sorted := List.Pairwise.drop h
  obtain ⟨t, hhead⟩ : ∃ t, m.timers.head? = some t :=
    Option.isSome_iff_exists.mp (by simpa using hne)
  rw [processExpired_apply hroll hhead, htake]
  split
  case isTrue hlate =>
    -- nothing has expired, since the first timer has not
    have hnone : m.expired now = [] := by
      refine List.filter_eq_nil_iff.mpr fun u hu => ?_
      have := h.head_le hhead hu
      simp only [decide_eq_true_eq]
      omega
    have hall : m.timers.drop (m.expiredEnd false now nowTimer) = m.timers := by
      have hsplit := List.take_append_drop (m.expiredEnd false now nowTimer) m.timers
      rwa [htake, hnone, List.nil_append] at hsplit
    refine ⟨{ m with previous := now }, by rw [hnone]; rfl, ?_⟩
    rw [hnone, cut, hall]
    exact ⟨h, by simp, by simp⟩
  case isFalse hlate =>
    have hdisj : ∀ u ∈ m.expired now, u ∉ (m.cut now nowTimer).timers := by
      intro u hu hin
      have := (mem_expired.mp hu).2
      have := (h.mem_cut.mp hin).2
      omega
    obtain ⟨hcbs, hout⟩ := expireLoop_handsOut now clock hcut (h.nodup.filter _) hdisj 0
    refine ⟨_, congrArg (fun cbs => some (cbs, _)) hcbs, ?_, fun u => ?_, fun u => ?_⟩
    · rw [Sorted, timers_rearm, less_congr (objs_rearm ..)]
      exact hout.sorted
    · rw [timers_rearm]
      exact hout.mem_timers u
    · rw [objs_rearm]
      exact hout.objs_eq u

/-- Where no rollover is detected, the expired timers are handed out, whatever the time their
repeating ones are armed again for. -/
theorem Sorted.listExpiredCallback (h : m.Sorted) (hroll : (m.detectClockRollover now).1 = false)
    (nowTimer : ℕ) (clock : ℕ → ℤ) :
    ∃ m', m.listExpiredCallback now nowTimer clock =
        some ((m.expired now).map fun t => (m.objs t).cb, m') ∧ m'.Sorted ∧
      (∀ t, t ∈ m'.timers ↔
        t ∈ m.timers ∧ (now < (m.objs t).expiration ∨ (m.objs t).repeats)) ∧
      ∀ t, m'.objs t =
        if t ∈ m.expired now then handedOut (m.objs t) now else m.objs t := by
  by_cases hnil : m.timers = []
  · have hnone : m.expired now = [] := by rw [expired, hnil, List.filter_nil]
    exact ⟨m, by rw [listExpiredCallback_nil hnil, hnone]; rfl, h, by simp [hnil], by simp [hnone]⟩
  rw [listExpiredCallback_ne hnil]
  obtain ⟨m', hp, hout⟩ := h.processExpired hroll hnil nowTimer clock
  refine ⟨m', hp, hout.sorted, fun t => ?_, hout.objs_eq⟩
  rw [hout.mem_timers, h.mem_cut, mem_expired]
  change _ ∨ _ ∧ (m.objs t).repeats ↔ _
  have := le_or_gt (m.objs t).expiration now
  tauto

/-- The callbacks handed out are those of the expired timers, each once and in the order of the
set. Afterwards the set has the timers that have not expired, unchanged, and the repeating ones
of the others, armed again for their interval from now; the one-shot ones have lost their
callback. -/
def HandsOutExpired (m : TimerManager κ) (now : ℤ) (nowTimer : ℕ) (clock : ℕ → ℤ) : Prop :=
  ∃ m', m.listExpiredCallback now nowTimer clock =
      some ((m.expired now).map fun t => (m.objs t).cb, m') ∧
    (m.expired now).Pairwise m.less ∧ (m.expired now).Nodup ∧
    (∀ t, t ∈ m.expired now ↔ t ∈ m.timers ∧ (m.objs t).expiration ≤ now) ∧
    m'.Sorted ∧ m'.timers.Nodup ∧
    (∀ t, t ∈ m'.timers ↔
      t ∈ m.timers ∧ (now < (m.objs t).expiration ∨ (m.objs t).repeats)) ∧
    ∀ t, m'.objs t = if t ∈ m.expired now then rearmed (m.objs t) now else m.objs t

/-- **Expiry.** Where no rollover is detected, exactly the expired timers are handed out, and the
repeating ones of them are armed again for their interval from now if and only if these
times fit in an `int64_t`. -/
theorem expired_handed_out_iff (h : m.Sorted) (hroll : (m.detectClockRollover now).1 = false)
    (nowTimer : ℕ) (clock : ℕ → ℤ) :
    m.HandsOutExpired now nowTimer clock ↔
      ∀ t ∈ m.timers, (m.objs t).expiration ≤ now → (m.objs t).repeats →
        FitsInt64 (now + (m.objs t).interval * 1000) := by
  obtain ⟨m', hlist, hsorted, hmem, hobjs⟩ := h.listExpiredCallback hroll nowTimer clock
  constructor
  -- the call has one result, so the object it leaves is the one it should be
  · rintro ⟨m'', hlist', -, -, -, -, -, -, hobjs'⟩ t ht hle
    obtain rfl : m' = m'' := (Prod.mk.inj (Option.some.inj (hlist.symm.trans hlist'))).2
    have hexp : t ∈ m.expired now := mem_expired.mpr ⟨ht, hle⟩
    have heq := (hobjs t).symm.trans (hobjs' t)
    rw [if_pos hexp, if_pos hexp] at heq
    exact handedOut_eq_iff.mp heq
  · intro hfits
    refine ⟨m', hlist, List.Pairwise.filter _ h, h.nodup.filter _, fun t => mem_expired, hsorted,
      hsorted.nodup, hmem, fun t => ?_⟩
    rw [hobjs]
    split
    case isTrue hexp =>
      obtain ⟨ht, hle⟩ := mem_expired.mp hexp
      exact handedOut_eq_iff.mpr (hfits t ht hle)
    case isFalse => rfl

/-- Two timers that expire at `10`, one of them repeating without a pause, and a later one. -/
def tied : TimerManager ℕ where
  objs t :=
    if t = 3 then ⟨true, 0, 10, some 1⟩ else if t = 5 then ⟨false, 0, 10, some 2⟩
    else ⟨true, 7, 20, some 3⟩
  timers := [3, 5, 9]
  timerfd := none
  previous := 0

/-- The lower bound falls between the two timers that expire now. -/
theorem expired_handed_out_tied : tied.HandsOutExpired 10 4 fun _ => 10 :=
  (expired_handed_out_iff (by unfold Sorted; decide) (by decide) 4 fun _ => 10).mpr (by decide)

/-- A manager whose only timer was added with a repeated interval of `9223372036854776` ms, a
second after the epoch. -/
def endless : TimerManager ℕ :=
  addTimer ⟨fun _ => ⟨false, 0, 0, none⟩, [], none, 0⟩ 3 9223372036854776 (some 1) true 1000000
    1000000

/-- The timer expires in the past, is handed out a second later, and put back into the past. -/
theorem expired_handed_out_false : ¬ endless.HandsOutExpired 2000000 4 fun _ => 2000000 := by
  rintro ⟨m', hlist, -, -, -, -, -, -, hobjs⟩
  have hobj : (endless.listExpiredCallback 2000000 4 fun _ => 2000000).map
      (fun r => (r.2.objs 3).expiration) = some (-9223372036852775616) := by decide +kernel
  rw [hlist, Option.map_some, Option.some.injEq, hobjs] at hobj
  exact absurd hobj (by decide +kernel)

/-! ### A rollover -/

/-- A reading that `detectClockRollover` takes for a rollover. -/
def RollsOver (previous now : ℤ) : Prop :=
  now < previous ∧ now < addTime previous (-Timestamp.kSecondsPerHour)

instance (previous now : ℤ) : Decidable (RollsOver previous now) :=
  inferInstanceAs (Decidable (_ ∧ _))

theorem detectClockRollover_iff :
    (m.detectClockRollover now).1 = true ↔ RollsOver m.previous now := by
  simp [detectClockRollover, RollsOver]

/-- The timers a call hands out: after a rollover, all of them. -/
def handed (m : TimerManager κ) (now : ℤ) : List ℕ :=
  if (m.detectClockRollover now).1 then m.timers else m.expired now

theorem mem_handed {t : ℕ} : t ∈ m.handed now ↔
    t ∈ m.timers ∧ ((m.detectClockRollover now).1 ∨ (m.objs t).expiration ≤ now) := by
  rw [handed]
  split
  case isTrue hroll => simp [hroll]
  case isFalse hroll => simp [hroll, mem_expired]

@[simp] theorem previous_rearm (m : TimerManager κ) (now : ℤ) :
    (m.rearm now).previous = m.previous := by
  simp only [rearm]
  split_ifs <;> rfl

theorem previous_handOut (m : TimerManager κ) (t : ℕ) (now now' : ℤ) :
    (m.handOut t now now').previous = m.previous := by
  rw [handOut]
  split
  · rw [previous_addTimerPtr]
    rfl
  · rfl

theorem previous_expireLoop (clock : ℕ → ℤ) (i : ℕ) (out : List ℕ) :
    (expireLoop now clock m i out).2.previous = m.previous := by
  induction out generalizing m i with
  | nil => rfl
  | cons t ts ih => exact (ih (i + 1)).trans (previous_handOut ..)

/-- After a rollover the set is emptied before the loop. -/
theorem processExpired_rollover (hroll : (m.detectClockRollover now).1 = true) (nowTimer : ℕ)
    (clock : ℕ → ℤ) :
    m.processExpired now nowTimer clock =
      some ((expireLoop now clock { m with previous := now, timers := [] } 0 m.timers).1,
        (expireLoop now clock { m with previous := now, timers := [] } 0 m.timers).2.rearm
          (clock m.timers.length)) := by
  have hpair : m.detectClockRollover now = (true, { m with previous := now }) :=
    Prod.ext hroll rfl
  simp only [TimerManager.processExpired, hpair, if_true, expiredEnd, List.drop_length,
    List.take_length]

/-- The iterator to the first timer of an empty set is followed. -/
theorem processExpired_empty (hroll : (m.detectClockRollover now).1 = false) (hnil : m.timers = [])
    (nowTimer : ℕ) (clock : ℕ → ℤ) : m.processExpired now nowTimer clock = none := by
  have hpair : m.detectClockRollover now = (false, { m with previous := now }) :=
    Prod.ext hroll rfl
  simp only [TimerManager.processExpired, hpair, Bool.false_eq_true, if_false, hnil, List.head?_nil]

/-- The locked part stores the reading, whatever it hands out. -/
theorem previous_processExpired {nowTimer : ℕ} {clock : ℕ → ℤ} {cbs : List (Option κ)}
    {m' : TimerManager κ} (h : m.processExpired now nowTimer clock = some (cbs, m')) :
    m'.previous = now := by
  cases hroll : (m.detectClockRollover now).1 with
  | true =>
      rw [processExpired_rollover hroll] at h
      obtain ⟨-, rfl⟩ := Prod.mk.inj (Option.some.inj h)
      rw [previous_rearm, previous_expireLoop]
  | false =>
      cases hhead : m.timers.head? with
      | none =>
          rw [processExpired_empty hroll (List.head?_eq_none_iff.mp hhead)] at h
          cases h
      | some t =>
          rw [processExpired_apply hroll hhead] at h
          split at h
          · obtain ⟨-, rfl⟩ := Prod.mk.inj (Option.some.inj h)
            rfl
          · obtain ⟨-, rfl⟩ := Prod.mk.inj (Option.some.inj h)
            rw [previous_rearm, previous_expireLoop]
            rfl

/-- The locked part of `listExpiredCallback`: what is handed out leaves the set, and the
repeating ones of it go back. -/
structure Processed (m : TimerManager κ) (now : ℤ) (m' : TimerManager κ) : Prop where
  sorted : m'.Sorted
  mem_timers : ∀ t, t ∈ m'.timers ↔ t ∈ m.timers ∧ (t ∈ m.handed now → (m.objs t).repeats)
  objs_eq : ∀ t, m'.objs t = if t ∈ m.handed now then handedOut (m.objs t) now else m.objs t
  previous_eq : m'.previous = now

/-- **The locked part** follows the iterator to the first timer unless it detects a rollover,
so it returns if there is one or a rollover is detected. -/
theorem Sorted.processExpired_handed (h : m.Sorted)
    (hok : (m.detectClockRollover now).1 = true ∨ m.timers ≠ []) (nowTimer : ℕ)
    (clock : ℕ → ℤ) :
    ∃ m', m.processExpired now nowTimer clock =
        some ((m.handed now).map fun t => (m.objs t).cb, m') ∧ m.Processed now m' := by
  cases hroll : (m.detectClockRollover now).1 with
  | true =>
      have hall : m.handed now = m.timers := if_pos hroll
      have hsorted : Sorted { m with previous := now, timers := [] } := List.Pairwise.nil
      obtain ⟨hcbs, hout⟩ := expireLoop_handsOut now clock hsorted h.nodup (by simp) 0
      have hprocess := processExpired_rollover hroll nowTimer clock
      rw [hcbs, ← hall] at hprocess
      refine ⟨_, hprocess, ?_, fun t => ?_, fun t => ?_, previous_processExpired hprocess⟩
      · rw [Sorted, timers_rearm, less_congr (objs_rearm ..), hall]
        exact hout.sorted
      · rw [timers_rearm, hall, hout.mem_timers]
        simp
        tauto
      · rw [objs_rearm, hall]
        exact hout.objs_eq t
  | false =>
      have hexpired : m.handed now = m.expired now := if_neg (by simp [hroll])
      have hne : m.timers ≠ [] := hok.resolve_left (by simp [hroll])
      obtain ⟨m', hprocess, hout⟩ := h.processExpired hroll hne nowTimer clock
      rw [← hexpired] at hprocess hout
      refine ⟨m', hprocess, hout.sorted, fun t => ?_, hout.objs_eq,
        previous_processExpired hprocess⟩
      rw [hout.mem_timers, h.mem_cut, mem_handed, hroll]
      change _ ∨ _ ∧ (m.objs t).repeats ↔ _
      have := le_or_gt (m.objs t).expiration now
      simp only [Bool.false_eq_true, false_or]
      grind

theorem Sorted.listExpiredCallback_handed (h : m.Sorted) (now : ℤ) (nowTimer : ℕ)
    (clock : ℕ → ℤ) :
    ∃ m', m.listExpiredCallback now nowTimer clock =
      some ((m.handed now).map fun t => (m.objs t).cb, m') := by
  by_cases hnil : m.timers = []
  · have hnone : m.handed now = [] :=
      List.eq_nil_iff_forall_not_mem.mpr fun t ht => by simp [mem_handed, hnil] at ht
    exact ⟨m, by rw [listExpiredCallback_nil hnil, hnone]; rfl⟩
  · obtain ⟨m', hm', -⟩ := h.processExpired_handed (.inr hnil) nowTimer clock
    exact ⟨m', by rw [listExpiredCallback_ne hnil, hm']⟩

end TimerManager

end Easy.Base
