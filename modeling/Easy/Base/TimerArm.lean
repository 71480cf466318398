import Easy.Base.Timer
import Easy.Lib.Lts

/-!
When the timer descriptor is armed.

`Covered` says that the descriptor will go off no later than the first timer
of the set is due. The functions that put a timer in front of the set arm the
descriptor for it, and those that remove or defer timers leave it as it is, so
they all keep `Covered`. `listExpiredCallback` runs on a descriptor that has
just gone off. It arms it again at its end, unless it finds that no timer has
expired and returns early.

All this is so as long as the sums fit in an `int64_t`. An interval of some hundred million
years brings a timer into the past, or has the descriptor armed for a time when
nobody waits for it any more.
-/

namespace Easy.Base

open Lib

namespace TimerManager

variable {κ : Type*} {m : TimerManager κ}

/-! ### The order of the set -/

theorem less_iff {a b : ℕ} : m.less a b ↔ (m.objs a).expiration < (m.objs b).expiration ∨
    (m.objs a).expiration = (m.objs b).expiration ∧ a < b := comparator_some

theorem less_trans (m : TimerManager κ) (a b c : ℕ) : m.less a b → m.less b c → m.less a c := by
  simp only [less_iff]
  omega

theorem less_irrefl (m : TimerManager κ) (a : ℕ) : ¬ m.less a a := by
  simp [less_iff]

theorem less_tri (m : TimerManager κ) (a b : ℕ) : m.less a b ∨ a = b ∨ m.less b a := by
  simp only [less_iff]
  omega

theorem less_congr {m' : TimerManager κ} (h : m'.objs = m.objs) : m'.less = m.less := by
  unfold less key
  rw [h]

/-- The set is in the order of its comparator. -/
def Sorted (m : TimerManager κ) : Prop := m.timers.Pairwise m.less

theorem Sorted.nodup (h : m.Sorted) : m.timers.Nodup := by
  refine List.Pairwise.imp (R := m.less) (fun hab heq => ?_) h
  subst heq
  exact m.less_irrefl _ hab

/-- The first timer of the set is the first to expire. -/
theorem Sorted.head_le (h : m.Sorted) {t u : ℕ} (ht : m.timers.head? = some t)
    (hu : u ∈ m.timers) : (m.objs t).expiration ≤ (m.objs u).expiration := by
  obtain ⟨ts, hts⟩ := List.head?_eq_some_iff.mp ht
  rw [Sorted, hts, List.pairwise_cons] at h
  rw [hts] at hu
  rcases List.mem_cons.mp hu with rfl | hu
  · exact le_rfl
  · have := less_iff.mp (h.1 u hu)
    omega

@[simp] theorem timers_store (m : TimerManager κ) (t : ℕ) (o : Timer κ) :
    (m.store t o).timers = m.timers := rfl

@[simp] theorem objs_store_self (m : TimerManager κ) (t : ℕ) (o : Timer κ) :
    (m.store t o).objs t = o := by simp [store]

theorem objs_store_ne {t u : ℕ} (o : Timer κ) (h : u ≠ t) : (m.store t o).objs u = m.objs u := by
  simp [store, h]

theorem objs_store_of_mem {t u : ℕ} (o : Timer κ) (ht : t ∉ m.timers) (hu : u ∈ m.timers) :
    (m.store t o).objs u = m.objs u := objs_store_ne o fun h => ht (h ▸ hu)

/-- An object outside the set may change without disturbing its order. -/
theorem Sorted.store (h : m.Sorted) {t : ℕ} (o : Timer κ) (ht : t ∉ m.timers) :
    (m.store t o).Sorted := by
  refine List.Pairwise.imp_of_mem (fun ha hb hab => ?_) h
  rw [less_iff] at hab ⊢
  rwa [objs_store_of_mem o ht ha, objs_store_of_mem o ht hb]

theorem Sorted.erase (h : m.Sorted) (t : ℕ) : (m.erase t).Sorted :=
  List.Pairwise.sublist List.erase_sublist h

theorem Sorted.not_mem_erase (h : m.Sorted) (t : ℕ) : t ∉ (m.erase t).timers :=
  h.nodup.not_mem_erase

theorem Sorted.mem_erase (h : m.Sorted) {t u : ℕ} :
    u ∈ (m.erase t).timers ↔ u ≠ t ∧ u ∈ m.timers := h.nodup.mem_erase_iff

theorem mem_insert {t u : ℕ} : u ∈ OrderedSet.insert m.less t m.timers ↔ u = t ∨ u ∈ m.timers :=
  OrderedSet.mem_insert fun u _ => m.less_tri t u

theorem Sorted.insert (h : m.Sorted) (t : ℕ) :
    Sorted { m with timers := OrderedSet.insert m.less t m.timers } :=
  OrderedSet.pairwise_insert m.less_trans h

/-! ### Inserting a timer -/

@[simp] theorem objs_addTimerPtr (m : TimerManager κ) (t : ℕ) (now : ℤ) :
    (m.addTimerPtr t now).objs = m.objs := by
  simp only [addTimerPtr]
  split <;> rfl

@[simp] theorem timers_addTimerPtr (m : TimerManager κ) (t : ℕ) (now : ℤ) :
    (m.addTimerPtr t now).timers = OrderedSet.insert m.less t m.timers := by
  simp only [addTimerPtr]
  split <;> rfl

@[simp] theorem previous_addTimerPtr (m : TimerManager κ) (t : ℕ) (now : ℤ) :
    (m.addTimerPtr t now).previous = m.previous := by
  simp only [addTimerPtr]
  split <;> rfl

theorem Sorted.addTimerPtr (h : m.Sorted) (t : ℕ) (now : ℤ) : (m.addTimerPtr t now).Sorted := by
  rw [Sorted, timers_addTimerPtr, less_congr (objs_addTimerPtr m t now)]
  exact OrderedSet.pairwise_insert m.less_trans h

/-- What the descriptor is armed for by `resetTimerfd`. -/
def armedFor (expiration now : ℤ) : Arming := ⟨now, now + max (wrap64 (expiration - now)) 100⟩

theorem timerfd_resetTimerfd (m : TimerManager κ) (expiration now : ℤ) :
    (m.resetTimerfd expiration now).timerfd = some (armedFor expiration now) := by
  simp only [resetTimerfd, armedFor, micros_howMuchTimeFromNow]

/-- The descriptor goes off in time unless what is left is too far below zero. -/
theorem deadline_armedFor_le {expiration now : ℤ} (h : -2 ^ 63 ≤ expiration - now) :
    (armedFor expiration now).deadline ≤ max expiration (now + 100) := by
  simp only [armedFor, wrap64]
  omega

/-- The descriptor is armed for the inserted timer if it comes first; otherwise
it stays, and so does the first timer. -/
theorem addTimerPtr_cases (m : TimerManager κ) (t : ℕ) (now : ℤ) :
    ((m.addTimerPtr t now).timers.head? = some t ∧
      (m.addTimerPtr t now).timerfd = some (armedFor (m.objs t).expiration now)) ∨
    ∃ u, m.timers.head? = some u ∧ (m.addTimerPtr t now).timers.head? = some u ∧
      ¬ m.less t u ∧ (m.addTimerPtr t now).timerfd = m.timerfd := by
  by_cases h : (OrderedSet.insert m.less t m.timers).head? = some t
  · refine .inl ⟨by rwa [timers_addTimerPtr], ?_⟩
    simp only [addTimerPtr, h, if_true, timerfd_resetTimerfd]
  · obtain ⟨u, us, hus, hhead, hlt⟩ := OrderedSet.head?_insert_ne h
    refine .inr ⟨u, by rw [hus]; rfl, by rwa [timers_addTimerPtr], hlt, ?_⟩
    simp only [addTimerPtr, h, if_false]

/-! ### The descriptor covers the set -/

/-- If there is a timer, the descriptor is armed, and for a deadline by which
no timer is overdue, or for the shortest time it can be armed for. -/
def Covered (m : TimerManager κ) : Prop :=
  m.timers ≠ [] → ∃ a, m.timerfd = some a ∧
    ∀ t ∈ m.timers, a.deadline ≤ max (m.objs t).expiration (a.armedAt + 100)

theorem Covered.of_armedFor (h : m.Sorted) {t : ℕ} {now : ℤ} (ht : m.timers.head? = some t)
    (hfd : m.timerfd = some (armedFor (m.objs t).expiration now))
    (hleft : -2 ^ 63 ≤ (m.objs t).expiration - now) : m.Covered := by
  refine fun _ => ⟨_, hfd, fun u hu => ?_⟩
  have hle := h.head_le ht hu
  have hdeadline := deadline_armedFor_le hleft
  change _ ≤ max _ (now + 100)
  omega

/-- Fewer timers, or later ones, are covered by the same descriptor. -/
theorem Covered.mono {m' : TimerManager κ} (h : m.Covered) (hfd : m'.timerfd = m.timerfd)
    (hmem : ∀ t ∈ m'.timers, ∃ u ∈ m.timers, (m.objs u).expiration ≤ (m'.objs t).expiration) :
    m'.Covered := by
  intro hne
  obtain ⟨t, ht⟩ := List.exists_mem_of_ne_nil _ hne
  obtain ⟨u, hu, -⟩ := hmem t ht
  obtain ⟨a, ha, hall⟩ := h (List.ne_nil_of_mem hu)
  refine ⟨a, hfd.trans ha, fun t ht => ?_⟩
  obtain ⟨u, hu, hle⟩ := hmem t ht
  have := hall u hu
  omega

theorem Covered.store (h : m.Covered) {t : ℕ} (o : Timer κ) (ht : t ∉ m.timers) :
    (m.store t o).Covered := by
  refine h.mono rfl fun u hu => ⟨u, hu, ?_⟩
  rw [objs_store_of_mem o ht hu]

theorem Covered.erase (h : m.Covered) (t : ℕ) : (m.erase t).Covered :=
  h.mono rfl fun u hu => ⟨u, List.mem_of_mem_erase hu, le_rfl⟩

theorem Covered.addTimerPtr (h : m.Covered) (hs : m.Sorted) {t : ℕ} {now : ℤ}
    (hleft : -2 ^ 63 ≤ (m.objs t).expiration - now) : (m.addTimerPtr t now).Covered := by
  rcases addTimerPtr_cases m t now with ⟨hhead, hfd⟩ | ⟨u, hu, -, hlt, hfd⟩
  · exact .of_armedFor (hs.addTimerPtr t now) hhead (by rw [hfd, objs_addTimerPtr])
      (by rwa [objs_addTimerPtr])
  · refine h.mono hfd fun v hv => ?_
    rw [timers_addTimerPtr, mem_insert] at hv
    rw [objs_addTimerPtr]
    rcases hv with rfl | hv
    · refine ⟨u, List.mem_of_head? hu, ?_⟩
      rw [less_iff] at hlt
      omega
    · exact ⟨v, hv, le_rfl⟩

/-! ### Sums that fit -/

/-- The expiration `ms` milliseconds after `start` fits in an `int64_t`, and so does what is
left of it at `now`. -/
structure Fits (start ms now : ℤ) : Prop where
  sum : FitsInt64 (start + ms * 1000)
  left : FitsInt64 (start + ms * 1000 - now)

theorem fits_iff {start ms now : ℤ} :
    Fits start ms now ↔ FitsInt64 (start + ms * 1000) ∧ FitsInt64 (start + ms * 1000 - now) :=
  ⟨fun h => ⟨h.sum, h.left⟩, fun h => ⟨h.1, h.2⟩⟩

instance (start ms now : ℤ) : Decidable (Fits start ms now) := decidable_of_iff' _ fits_iff

/-- What is left earlier fits as well. -/
theorem Fits.earlier {start ms now now' : ℤ} (h : Fits start ms now) (hpos : 0 ≤ now')
    (hle : now' ≤ now) : Fits start ms now' := by
  obtain ⟨hsum, hleft⟩ := h
  simp only [FitsInt64] at hsum hleft
  refine ⟨hsum, ?_⟩
  simp only [FitsInt64]
  omega

/-- A call to `refresh` at `now` that arms the timer again has the time for it. -/
def RefreshFits (m : TimerManager κ) (t : ℕ) (now : ℤ) : Prop :=
  (m.objs t).cb.isSome → t ∈ m.timers → FitsInt64 (now + (m.objs t).interval * 1000)

instance (m : TimerManager κ) (t : ℕ) (now : ℤ) : Decidable (m.RefreshFits t now) :=
  inferInstanceAs (Decidable (_ → _ → _))

/-- Where `reset` starts, before it wraps around. -/
def start (o : Timer κ) (fromNow : Bool) (now : ℤ) : ℤ :=
  if fromNow then now else o.expiration - o.interval * 1000

theorem addTime_start (o : Timer κ) (fromNow : Bool) (now interval : ℤ) :
    addTime (if fromNow then now else addTime o.expiration (-o.interval)) interval =
      wrap64 (start o fromNow now + interval * 1000) := by
  cases fromNow with
  | true => exact addTime_eq now interval
  | false =>
      rw [if_neg Bool.false_ne_true, addTime_addTime, start, if_neg Bool.false_ne_true, neg_mul,
        sub_eq_add_neg]

/-- A call to `reset` at `now` that arms the timer again has the time for it. -/
def ResetFits (m : TimerManager κ) (t : ℕ) (interval : ℤ) (fromNow : Bool) (now now' : ℤ) : Prop :=
  ¬ (interval = (m.objs t).interval ∧ !fromNow) → (m.objs t).cb.isSome → t ∈ m.timers →
    Fits (start (m.objs t) fromNow now) interval now'

instance (m : TimerManager κ) (t : ℕ) (interval : ℤ) (fromNow : Bool) (now now' : ℤ) :
    Decidable (m.ResetFits t interval fromNow now now') :=
  inferInstanceAs (Decidable (¬ _ → _ → _ → _))

/-! ### The invariant of the manager -/

/-- What the member functions keep, at a clock reading no later call reads
behind: a timer with a callback is in the set, or one of those `out` that a
function under way has taken out; a timer of the set expires no later than its
interval from now; and no reading was ahead of the clock. -/
structure Inv (m : TimerManager κ) (out : List ℕ) (clock : ℤ) : Prop where
  sorted : m.Sorted
  in_set : ∀ t, (m.objs t).cb ≠ none → t ∈ m.timers ∨ t ∈ out
  start_le : ∀ t ∈ m.timers, (m.objs t).expiration - (m.objs t).interval * 1000 ≤ clock
  previous_le : m.previous ≤ clock

section

variable {out : List ℕ} {clock : ℤ} {t : ℕ} {o : Timer κ}

theorem Inv.mono {clock' : ℤ} (h : m.Inv out clock) (hle : clock ≤ clock') :
    m.Inv out clock' where
  sorted := h.sorted
  in_set := h.in_set
  start_le t ht := (h.start_le t ht).trans hle
  previous_le := h.previous_le.trans hle

theorem Inv.erase (h : m.Inv [] clock) (t : ℕ) : (m.erase t).Inv [t] clock where
  sorted := h.sorted.erase t
  in_set u hu := by
    have hmem : u ∈ m.timers := by simpa using h.in_set u hu
    by_cases hut : u = t
    · exact .inr (by simp [hut])
    · exact .inl (h.sorted.mem_erase.mpr ⟨hut, hmem⟩)
  start_le u hu := h.start_le u (List.mem_of_mem_erase hu)
  previous_le := h.previous_le

/-- A timer outside the set loses its callback. -/
theorem Inv.store (h : m.Inv (t :: out) clock) (ht : t ∉ m.timers) (ho : o.cb = none) :
    (m.store t o).Inv out clock where
  sorted := h.sorted.store o ht
  in_set u hu := by
    by_cases hut : u = t
    · subst hut
      exact absurd (by simpa using ho) hu
    · rw [objs_store_ne o hut] at hu
      simpa [hut] using h.in_set u hu
  start_le u hu := by
    rw [objs_store_of_mem o ht hu]
    exact h.start_le u hu
  previous_le := h.previous_le

/-- A timer outside the set gets a new expiration and is inserted. -/
theorem Inv.insert {m' : TimerManager κ} (h : m.Inv (t :: out) clock) (ht : t ∉ m.timers)
    (ho : o.expiration - o.interval * 1000 ≤ clock) (hobjs : m'.objs = (m.store t o).objs)
    (htimers : m'.timers = OrderedSet.insert (m.store t o).less t m.timers)
    (hprev : m'.previous = m.previous) : m'.Inv out clock := by
  have hmem : ∀ u, u ∈ m'.timers ↔ u = t ∨ u ∈ m.timers := fun u => by
    rw [htimers]
    exact mem_insert (m := m.store t o)
  constructor
  · rw [Sorted, htimers, less_congr hobjs]
    exact OrderedSet.pairwise_insert (less_trans _) (h.sorted.store o ht)
  · intro u hu
    rw [hmem]
    by_cases hut : u = t
    · exact .inl (.inl hut)
    · rw [hobjs, objs_store_ne o hut] at hu
      simpa [hut] using h.in_set u hu
  · intro u hu
    rcases (hmem u).mp hu with rfl | hu
    · rwa [hobjs, objs_store_self]
    · rw [hobjs, objs_store_of_mem o ht hu]
      exact h.start_le u hu
  · exact hprev ▸ h.previous_le

theorem Inv.addTimerPtr (h : m.Inv (t :: out) clock) (ht : t ∉ m.timers)
    (ho : o.expiration - o.interval * 1000 ≤ clock) (now : ℤ) :
    ((m.store t o).addTimerPtr t now).Inv out clock :=
  h.insert ht ho (objs_addTimerPtr ..) (timers_addTimerPtr ..) (previous_addTimerPtr ..)

/-- A timer that has been taken out is inserted again, and the descriptor armed for it if need
be. -/
theorem Inv.addTimerPtr_covered (h : m.Inv (t :: out) clock) (hc : m.Covered) (ht : t ∉ m.timers)
    (ho : o.expiration - o.interval * 1000 ≤ clock) {now : ℤ}
    (hleft : -2 ^ 63 ≤ o.expiration - now) :
    ((m.store t o).addTimerPtr t now).Inv out clock ∧
      ((m.store t o).addTimerPtr t now).Covered :=
  ⟨h.addTimerPtr ht ho now,
    (hc.store o ht).addTimerPtr (h.sorted.store o ht) (by rwa [objs_store_self])⟩

/-! ### The member functions -/

theorem Inv.addTimer (h : m.Inv [] clock) (hc : m.Covered) (ht : t ∉ m.timers) {interval : ℤ}
    (cb : Option κ) (repeats : Bool) {now' : ℤ} (hfits : Fits clock interval now') :
    (m.addTimer t interval cb repeats clock now').Inv [] clock ∧
      (m.addTimer t interval cb repeats clock now').Covered := by
  have h' : m.Inv [t] clock :=
    ⟨h.sorted, fun u hu => .inl (by simpa using h.in_set u hu), h.start_le, h.previous_le⟩
  have hsum : addTime clock interval = clock + interval * 1000 := addTime_eq_iff.mpr hfits.sum
  refine h'.addTimerPtr_covered hc ht ?_ ?_
  · simp only [hsum]
    omega
  · simpa only [hsum] using hfits.left.1

theorem Inv.cancel (h : m.Inv [] clock) (hc : m.Covered) (t : ℕ) :
    ∃ r m', m.cancel t = some (r, m') ∧ m'.Inv [] clock ∧ m'.Covered := by
  simp only [TimerManager.cancel]
  by_cases hcb : (m.objs t).cb = none
  · exact ⟨false, m, by simp [hcb], h, hc⟩
  · have ht : t ∈ m.timers := by simpa using h.in_set t hcb
    have hout := h.sorted.not_mem_erase t
    exact ⟨true, _, by simp [Option.isSome_iff_ne_none.mpr hcb, ht]; rfl,
      (h.erase t).store hout rfl, (hc.erase t).store _ hout⟩

/-- A refreshed timer only moves back in the set, so the descriptor may stay. -/
theorem Inv.refresh (h : m.Inv [] clock) (hc : m.Covered) (hfits : m.RefreshFits t clock) :
    (m.refresh t clock).2.Inv [] clock ∧ (m.refresh t clock).2.Covered := by
  simp only [TimerManager.refresh]
  split_ifs with hcb ht
  · exact ⟨h, hc⟩
  · have hout := h.sorted.not_mem_erase t
    have hsum := addTime_eq_iff.mpr (hfits (by simpa [Option.isSome_iff_ne_none] using hcb) ht)
    constructor
    · refine (h.erase t).insert hout ?_ rfl rfl rfl
      simp only [hsum]
      omega
    · refine hc.mono rfl fun u hu => ?_
      rcases mem_insert.mp hu with rfl | hu
      · refine ⟨u, ht, ?_⟩
        have := h.start_le u ht
        simp only [TimerManager.store, Function.update_self, hsum]
        omega
      · refine ⟨u, List.mem_of_mem_erase hu, le_of_eq ?_⟩
        exact congrArg Timer.expiration (objs_store_of_mem _ hout hu).symm
  · exact ⟨h, hc⟩

theorem Inv.reset (h : m.Inv [] clock) (hc : m.Covered) {interval : ℤ} {fromNow : Bool}
    {now' : ℤ} (hfits : m.ResetFits t interval fromNow clock now') :
    (m.reset t interval fromNow clock now').2.Inv [] clock ∧
      (m.reset t interval fromNow clock now').2.Covered := by
  simp only [TimerManager.reset]
  by_cases hsame : interval = (m.objs t).interval ∧ !fromNow
  · simp only [if_pos hsame]
    exact ⟨h, hc⟩
  by_cases hcb : (m.objs t).cb.isNone
  · simp only [if_neg hsame, if_pos hcb]
    exact ⟨h, hc⟩
  by_cases ht : t ∈ m.timers
  · simp only [if_neg hsame, if_neg hcb, if_neg (not_not.mpr ht)]
    obtain ⟨hsum, hleft⟩ := hfits hsame (by simpa [Option.isSome_iff_ne_none] using hcb) ht
    have hstart : start (m.objs t) fromNow clock ≤ clock := by
      have := h.start_le t ht
      rw [start]
      split <;> omega
    rw [addTime_start, wrap64_eq_iff.mpr hsum]
    exact (h.erase t).addTimerPtr_covered (hc.erase t) (h.sorted.not_mem_erase t)
      (by simpa using hstart) hleft.1
  · simp only [if_neg hsame, if_neg hcb, if_pos ht]
    exact ⟨h, hc⟩

end

/-! ### Handing out the expired timers -/

/-- What `listExpiredCallback` leaves in the set has not expired. -/
theorem Sorted.lt_of_mem_drop (h : m.Sorted) {now : ℤ} {nowTimer u : ℕ}
    (hu : u ∈ m.timers.drop (m.expiredEnd false now nowTimer)) : now < (m.objs u).expiration := by
  simp only [expiredEnd, Bool.false_eq_true, if_false] at hu
  rw [← List.drop_drop] at hu
  -- behind the lower bound nothing expires before `now`
  have hge : ∀ v ∈ m.timers.drop (m.timers.findIdx fun t =>
      !comparator (some (m.key t)) (some (now, nowTimer))), now ≤ (m.objs v).expiration := by
    intro v hv
    have hlower := OrderedSet.of_mem_drop_findIdx h (fun a _ b _ hab ha => by
      simp only [Bool.not_eq_true', ← Bool.not_eq_true, comparator_some, key] at ha ⊢
      rw [less_iff] at hab
      omega) hv
    simp only [Bool.not_eq_true', ← Bool.not_eq_true, comparator_some, key] at hlower
    omega
  have hne := OrderedSet.of_mem_drop_findIdx (List.Pairwise.drop h) (fun a ha b hb hab hane => by
    have := hge a ha
    rw [less_iff] at hab
    simp only [ne_eq, decide_not, Bool.not_eq_true', decide_eq_false_iff_not] at hane ⊢
    omega) hu
  have := hge u (List.mem_of_mem_drop hu)
  simp only [ne_eq, decide_not, Bool.not_eq_true', decide_eq_false_iff_not] at hne
  omega

/-- What `listExpiredCallback` takes out of the set has expired. -/
theorem le_of_mem_take {now : ℤ} {nowTimer u : ℕ}
    (hu : u ∈ m.timers.take (m.expiredEnd false now nowTimer)) : (m.objs u).expiration ≤ now := by
  simp only [expiredEnd, Bool.false_eq_true, if_false, List.take_add, List.mem_append] at hu
  rcases hu with hu | hu
  · -- in front of the lower bound
    have hlower := List.false_of_mem_take_findIdx hu
    simp only [Bool.not_eq_false', comparator_some, key] at hlower
    omega
  · -- between the lower bound and the end are the ties
    have htie := List.false_of_mem_take_findIdx hu
    simp only [ne_eq, decide_not, Bool.not_eq_false', decide_eq_true_eq] at htie
    exact htie.le

theorem expiredEnd_le (m : TimerManager κ) (rollover : Bool) (now : ℤ) (nowTimer : ℕ) :
    m.expiredEnd rollover now nowTimer ≤ m.timers.length := by
  simp only [expiredEnd]
  split
  · exact le_rfl
  · generalize hlower : m.timers.findIdx _ = lower
    have hle : lower ≤ m.timers.length := hlower ▸ List.findIdx_le_length
    have hties : (m.timers.drop lower).findIdx (fun t => (m.objs t).expiration ≠ now) ≤
        (m.timers.drop lower).length := List.findIdx_le_length
    rw [List.length_drop] at hties
    omega

/-- A first timer that `listExpiredCallback` will not arm the descriptor for,
because its expiration is not a valid time stamp, has it armed already. -/
def HeadArmed (m : TimerManager κ) : Prop :=
  ∀ t, m.timers.head? = some t → (m.objs t).expiration ≤ 0 →
    ∃ now, m.timerfd = some (armedFor (m.objs t).expiration now) ∧
      -2 ^ 63 ≤ (m.objs t).expiration - now

section

variable {out : List ℕ} {now : ℤ} {t : ℕ}

theorem Inv.handOut (h : m.Inv (t :: out) now) (ht : t ∉ m.timers) (hh : m.HeadArmed) {now' : ℤ}
    (hfits : (m.objs t).repeats → Fits now (m.objs t).interval now') :
    (m.handOut t now now').Inv out now ∧ (m.handOut t now now').HeadArmed ∧
      ∀ u ∈ (m.handOut t now now').timers, u = t ∨ u ∈ m.timers := by
  simp only [TimerManager.handOut]
  split
  case isTrue hrepeats =>
    obtain ⟨hsum, hleft⟩ := hfits hrepeats
    rw [addTime_eq_iff.mpr hsum]
    refine ⟨h.addTimerPtr ht (by simp) now', ?_, fun u hu => ?_⟩
    · intro u hu hneg
      rcases addTimerPtr_cases (m.store t _) t now' with
        ⟨hhead, hfd⟩ | ⟨v, hv, hhead, -, hfd⟩
      · obtain rfl : t = u := Option.some.inj (hhead.symm.trans hu)
        rw [objs_addTimerPtr, hfd]
        exact ⟨now', rfl, by simpa using hleft.1⟩
      · obtain rfl : v = u := Option.some.inj (hhead.symm.trans hu)
        rw [objs_addTimerPtr, objs_store_of_mem _ ht (List.mem_of_head? hv)] at hneg ⊢
        obtain ⟨r, hr, hle⟩ := hh v hv hneg
        exact ⟨r, hfd.trans hr, hle⟩
    · rw [timers_addTimerPtr] at hu
      exact (mem_insert (m := m.store t _)).mp hu
  case isFalse =>
    refine ⟨h.store ht rfl, fun u hu hneg => ?_, fun u hu => .inr hu⟩
    rw [objs_store_of_mem _ ht (List.mem_of_head? hu)] at hneg ⊢
    exact hh u hu hneg

theorem objs_handOut_ne {u : ℕ} (h : u ≠ t) (now' : ℤ) :
    (m.handOut t now now').objs u = m.objs u := by
  simp only [TimerManager.handOut]
  split
  · rw [objs_addTimerPtr, objs_store_ne _ h]
  · rw [objs_store_ne _ h]

theorem Inv.expireLoop {clock : ℕ → ℤ} {i : ℕ} (h : m.Inv out now) (hnd : out.Nodup)
    (hdisj : ∀ t ∈ out, t ∉ m.timers) (hh : m.HeadArmed)
    (hfits : ∀ t ∈ out, (m.objs t).repeats →
      ∀ j < i + out.length, Fits now (m.objs t).interval (clock j)) :
    (expireLoop now clock m i out).2.Inv [] now ∧ (expireLoop now clock m i out).2.HeadArmed := by
  induction out generalizing m i with
  | nil => exact ⟨h, hh⟩
  | cons t ts ih =>
      obtain ⟨hnt, hnd⟩ := List.nodup_cons.mp hnd
      obtain ⟨h', hh', hmem⟩ := h.handOut (hdisj t (by simp)) hh
        fun hrepeats => hfits t (by simp) hrepeats i (by simp)
      refine ih h' hnd (fun u hu hin => ?_) hh' fun u hu => ?_
      · rcases hmem u hin with rfl | hin
        · exact hnt hu
        · exact hdisj u (by simp [hu]) hin
      · have hne : u ≠ t := fun heq => hnt (heq ▸ hu)
        rw [objs_handOut_ne hne]
        refine fun hrepeats j hj => hfits u (by simp [hu]) hrepeats j ?_
        rw [List.length_cons]
        omega

theorem Inv.rearm (h : m.Inv [] now) (hh : m.HeadArmed) {now' : ℤ} (hnow : now' < 2 ^ 63) :
    (m.rearm now').Inv [] now ∧ (m.rearm now').Covered := by
  simp only [TimerManager.rearm]
  cases hhead : m.timers.head? with
  | none =>
      have hnil : m.timers = [] := by simpa using hhead
      simp only [Timestamp.valid, lt_irrefl, decide_false, Bool.false_eq_true, if_false]
      exact ⟨h, fun hne => absurd hnil hne⟩
  | some t =>
      by_cases hpos : 0 < (m.objs t).expiration
      · simp only [Timestamp.valid, hpos, decide_true, if_true]
        refine ⟨⟨h.sorted, h.in_set, h.start_le, h.previous_le⟩,
          .of_armedFor (m := m.resetTimerfd _ now') h.sorted hhead (timerfd_resetTimerfd ..) ?_⟩
        change -2 ^ 63 ≤ (m.objs t).expiration - now'
        omega
      · simp only [Timestamp.valid, hpos, decide_false, Bool.false_eq_true, if_false]
        obtain ⟨r, hr, hleft⟩ := hh t hhead (by omega)
        exact ⟨h, .of_armedFor h.sorted hhead hr hleft⟩

end

/-- The clock readings of a call to `listExpiredCallback`, the one at `now` apart, fit in an
`int64_t`, and so do the expirations of the repeating timers that have expired, and what is
left of them. -/
structure ExpireFits (m : TimerManager κ) (now last : ℤ) : Prop where
  last_lt : last < 2 ^ 63
  rearmed : ∀ t ∈ m.timers, (m.objs t).repeats → (m.objs t).expiration ≤ now →
    Fits now (m.objs t).interval last

theorem expireFits_iff {m : TimerManager κ} {now last : ℤ} : m.ExpireFits now last ↔
    last < 2 ^ 63 ∧ ∀ t ∈ m.timers, (m.objs t).repeats → (m.objs t).expiration ≤ now →
      Fits now (m.objs t).interval last :=
  ⟨fun h => ⟨h.last_lt, h.rearmed⟩, fun h => ⟨h.1, h.2⟩⟩

instance (m : TimerManager κ) (now last : ℤ) : Decidable (m.ExpireFits now last) :=
  decidable_of_iff' _ expireFits_iff

/-- The manager whose descriptor went off. -/
def disarm (m : TimerManager κ) : TimerManager κ := { m with timerfd := none }

theorem Inv.disarm {out : List ℕ} {clock : ℤ} (h : m.Inv out clock) : m.disarm.Inv out clock :=
  ⟨h.sorted, h.in_set, h.start_le, h.previous_le⟩

theorem Inv.no_rollover {now : ℤ} (h : m.Inv [] now) :
    m.detectClockRollover now = (false, { m with previous := now }) := by
  have := h.previous_le
  simp only [detectClockRollover, Prod.mk.injEq, decide_eq_false_iff_not, and_true]
  omega

theorem listExpiredCallback_nil (h : m.timers = []) {now : ℤ} {nowTimer : ℕ} {clock : ℕ → ℤ} :
    m.listExpiredCallback now nowTimer clock = some ([], m) := by
  simp [listExpiredCallback, h]

theorem listExpiredCallback_ne (h : m.timers ≠ []) {now : ℤ} {nowTimer : ℕ} {clock : ℕ → ℤ} :
    m.listExpiredCallback now nowTimer clock = m.processExpired now nowTimer clock := by
  simp [listExpiredCallback, h]

/-- The early return of `listExpiredCallback`. -/
theorem Inv.processExpired_early {now : ℤ} (h : m.Inv [] now) {t : ℕ}
    (ht : m.timers.head? = some t) (hlate : now < (m.objs t).expiration) (nowTimer : ℕ)
    (clock : ℕ → ℤ) :
    m.processExpired now nowTimer clock = some ([], { m with previous := now }) := by
  simp only [TimerManager.processExpired, h.no_rollover, Bool.false_eq_true, if_false, ht, hlate,
    if_true]

/-- `listExpiredCallback` on a set whose first timer is due. -/
theorem Inv.processExpired {now : ℤ} (h : m.Inv [] now) (hnow : 0 ≤ now) {t : ℕ}
    (ht : m.timers.head? = some t) (hdue : (m.objs t).expiration ≤ now) (nowTimer : ℕ)
    {clock : ℕ → ℤ} {last : ℤ} (hclock : ∀ i ≤ m.timers.length, 0 ≤ clock i ∧ clock i ≤ last)
    (hfits : m.ExpireFits now last) :
    ∃ cbs m', m.processExpired now nowTimer clock = some (cbs, m') ∧
      m'.Inv [] now ∧ m'.Covered := by
  simp only [TimerManager.processExpired, h.no_rollover, Bool.false_eq_true, if_false, ht,
    not_lt.mpr hdue]
  generalize he : expiredEnd { m with previous := now } false now nowTimer = e
  -- in the loop the expired timers are out of the set
  have hcut : Inv { m with previous := now, timers := m.timers.drop e } (m.timers.take e) now := by
    constructor
    · exact List.Pairwise.drop h.sorted
    · intro u hu
      have hmem : u ∈ m.timers := by simpa using h.in_set u hu
      rw [← List.take_append_drop e m.timers] at hmem
      exact (List.mem_append.mp hmem).symm
    · exact fun u hu => h.start_le u (List.mem_of_mem_drop hu)
    · exact le_rfl
  have hnd := h.sorted.nodup
  rw [← List.take_append_drop e m.timers] at hnd
  obtain ⟨hnd, -, hdisj⟩ := List.nodup_append.mp hnd
  -- a timer that has not expired has a valid time
  have hlate : HeadArmed { m with previous := now, timers := m.timers.drop e } := by
    intro u hu hneg
    have := Sorted.lt_of_mem_drop (m := { m with previous := now }) h.sorted
      (he ▸ List.mem_of_head? hu)
    change (m.objs u).expiration ≤ 0 at hneg
    change now < (m.objs u).expiration at this
    omega
  have hround : ∀ u ∈ m.timers.take e, (m.objs u).repeats →
      ∀ j < 0 + (m.timers.take e).length, Fits now (m.objs u).interval (clock j) := by
    intro u hu hrepeats j hj
    have hle : (m.objs u).expiration ≤ now :=
      le_of_mem_take (m := { m with previous := now }) (he ▸ hu)
    have hlen := List.length_take_le' e m.timers
    obtain ⟨hpos, hlast⟩ := hclock j (by omega)
    exact (hfits.rearmed u (List.mem_of_mem_take hu) hrepeats hle).earlier hpos hlast
  obtain ⟨h', hh'⟩ := hcut.expireLoop (i := 0) hnd (fun u hu hin => hdisj u hu u hin rfl)
    hlate hround
  have hrearm : clock e < 2 ^ 63 := by
    have hlast := hfits.last_lt
    have hle : e ≤ m.timers.length := he ▸ expiredEnd_le { m with previous := now } ..
    have := (hclock e hle).2
    omega
  exact ⟨_, _, rfl, h'.rearm hh' hrearm⟩

end TimerManager

/-! ### Runs -/

/-- The manager and the system clock. -/
structure TimerState (κ : Type*) where
  manager : TimerManager κ
  clock : ℕ

/-- The clock readings of one call: `d i` microseconds pass before reading `i`. -/
def tick (clock : ℕ) (d : ℕ → ℕ) : ℕ → ℕ
  | 0 => clock + d 0
  | i + 1 => tick clock d i + d (i + 1)

theorem clock_le_tick (clock : ℕ) (d : ℕ → ℕ) (i : ℕ) : (clock : ℤ) ≤ tick clock d i := by
  induction i with
  | zero => simp [tick]
  | succ i ih => simp only [tick]; omega

theorem tick_le (clock : ℕ) (d : ℕ → ℕ) {i j : ℕ} (h : i ≤ j) :
    (tick clock d i : ℤ) ≤ tick clock d j := by
  induction h with
  | refl => exact le_rfl
  | step _ ih =>
      simp only [tick]
      omega

theorem tick_zero_le (clock : ℕ) (d : ℕ → ℕ) (i : ℕ) :
    (tick clock d 0 : ℤ) ≤ tick clock d i := tick_le clock d (Nat.zero_le i)

/-- What can happen to the manager. `addTimer` makes its object at an address
the set does not hold; `expire` is the timer descriptor going off, and the
worker that is woken by it. -/
inductive TimerOp (κ : Type*)
  | addTimer (t interval : ℕ) (cb : Option κ) (repeats : Bool) (d : ℕ → ℕ)
  | cancel (t : ℕ)
  | refresh (t : ℕ) (d : ℕ → ℕ)
  | reset (t : ℕ) (interval : ℤ) (fromNow : Bool) (d : ℕ → ℕ)
  | advance (n : ℕ)
  | expire (nowTimer : ℕ) (d : ℕ → ℕ)

namespace TimerState

open TimerManager hiding Covered

variable {κ : Type*}

/-- The descriptor goes off, which disarms it. -/
def fire (m : TimerManager κ) (clock : ℤ) : Option (TimerManager κ) :=
  match m.timerfd with
  | some a => if a.deadline ≤ clock then some m.disarm else none
  | none => none

theorem fire_eq {m m' : TimerManager κ} {clock : ℤ} (h : fire m clock = some m') :
    m' = m.disarm := by
  simp only [fire] at h
  split at h
  · split at h
    · exact (Option.some.inj h).symm
    · cases h
  · cases h

def step (s : TimerState κ) : TimerOp κ → Option (TimerState κ)
  | .addTimer t interval cb repeats d =>
    if t ∈ s.manager.timers then none
    else some ⟨s.manager.addTimer t interval cb repeats (tick s.clock d 0) (tick s.clock d 1),
      tick s.clock d 1⟩
  | .cancel t => (s.manager.cancel t).map fun r => ⟨r.2, s.clock⟩
  | .refresh t d => some ⟨(s.manager.refresh t (tick s.clock d 0)).2, tick s.clock d 0⟩
  | .reset t interval fromNow d =>
    some ⟨(s.manager.reset t interval fromNow (tick s.clock d 0) (tick s.clock d 1)).2,
      tick s.clock d 1⟩
  | .advance n => some ⟨s.manager, s.clock + n⟩
  | .expire nowTimer d =>
    (fire s.manager s.clock).bind fun m =>
      (m.listExpiredCallback (tick s.clock d 0) nowTimer fun i => tick s.clock d (i + 1)).map
        fun r => ⟨r.2, tick s.clock d (m.timers.length + 1)⟩

/-- All runs from a manager just constructed. -/
def machine : Lts (TimerState κ) (TimerOp κ) where
  init s := (∀ t, (s.manager.objs t).cb = none) ∧ s.manager.timers = [] ∧
    s.manager.timerfd = none ∧ s.manager.previous = s.clock
  step := step

/-- No armed timer is stranded. -/
def Covered (s : TimerState κ) : Prop := s.manager.Covered

/-- No time stamp of the step overflows: neither the expiration of a timer that it arms, nor
what is left of it when the descriptor is armed. -/
def InRange (s : TimerState κ) : TimerOp κ → Prop
  | .addTimer _ interval _ _ d => Fits (tick s.clock d 0) interval (tick s.clock d 1)
  | .refresh t d => s.manager.RefreshFits t (tick s.clock d 0)
  | .reset t interval fromNow d =>
    s.manager.ResetFits t interval fromNow (tick s.clock d 0) (tick s.clock d 1)
  | .expire _ d =>
    s.manager.ExpireFits (tick s.clock d 0) (tick s.clock d (s.manager.timers.length + 1))
  | .cancel _ | .advance _ => True

instance (s : TimerState κ) : DecidablePred s.InRange
  | .addTimer _ interval _ _ d =>
    inferInstanceAs (Decidable (Fits (tick s.clock d 0) interval (tick s.clock d 1)))
  | .refresh t d => inferInstanceAs (Decidable (s.manager.RefreshFits t (tick s.clock d 0)))
  | .reset t interval fromNow d => inferInstanceAs
      (Decidable (s.manager.ResetFits t interval fromNow (tick s.clock d 0) (tick s.clock d 1)))
  | .expire _ d => inferInstanceAs (Decidable (s.manager.ExpireFits (tick s.clock d 0)
      (tick s.clock d (s.manager.timers.length + 1))))
  | .cancel _ | .advance _ => inferInstanceAs (Decidable True)

/-- When the descriptor goes off, the first timer of the set is due by the time
`listExpiredCallback` reads the clock. -/
def Due (s : TimerState κ) : TimerOp κ → Prop
  | .expire _ d => ∀ t ∈ s.manager.timers.head?,
      (s.manager.objs t).expiration ≤ tick s.clock d 0
  | _ => True

instance (s : TimerState κ) : DecidablePred s.Due
  | .expire _ d => inferInstanceAs (Decidable (∀ t ∈ s.manager.timers.head?,
      (s.manager.objs t).expiration ≤ tick s.clock d 0))
  | .addTimer .. | .cancel _ | .refresh .. | .reset .. | .advance _ =>
    inferInstanceAs (Decidable True)

/-- `listExpiredCallback` covers the timers when it does not return early. -/
theorem expire_covered {s s' : TimerState κ} {nowTimer : ℕ} {d : ℕ → ℕ}
    (h : s.step (.expire nowTimer d) = some s') (hr : s.InRange (.expire nowTimer d))
    (hI : s.manager.Inv [] s.clock) :
    s'.manager.Inv [] s'.clock ∧ (s'.Covered ↔ s.Due (.expire nowTimer d)) := by
  obtain ⟨m, hfire, hrest⟩ := Option.bind_eq_some_iff.mp h
  obtain ⟨⟨cbs, m'⟩, hlist, rfl⟩ := Option.map_eq_some_iff.mp hrest
  obtain rfl := fire_eq hfire
  have hI₁ : s.manager.disarm.Inv [] (tick s.clock d 0) := hI.disarm.mono (clock_le_tick ..)
  cases hhead : s.manager.timers.head? with
  | none =>
      have hnil : s.manager.timers = [] := by simpa using hhead
      rw [listExpiredCallback_nil (m := s.manager.disarm) hnil] at hlist
      obtain ⟨-, rfl⟩ := Prod.mk.inj (Option.some.inj hlist)
      refine ⟨hI₁.mono (tick_zero_le ..), iff_of_true (fun hne => absurd hnil hne) fun t ht => ?_⟩
      simp [hhead] at ht
  | some t =>
      have hne : s.manager.timers ≠ [] := fun hnil => by simp [hnil] at hhead
      rw [listExpiredCallback_ne (m := s.manager.disarm) hne] at hlist
      by_cases hdue : (s.manager.objs t).expiration ≤ tick s.clock d 0
      · have hclock : ∀ i ≤ s.manager.timers.length, (0 : ℤ) ≤ tick s.clock d (i + 1) ∧
            (tick s.clock d (i + 1) : ℤ) ≤ tick s.clock d (s.manager.timers.length + 1) :=
          fun i hi => ⟨by omega, tick_le s.clock d (by omega)⟩
        obtain ⟨cbs₁, m₁, hp, hI', hc'⟩ :=
          hI₁.processExpired (by omega) hhead hdue nowTimer hclock ⟨hr.last_lt, hr.rearmed⟩
        obtain ⟨-, rfl⟩ := Prod.mk.inj (Option.some.inj (hp.symm.trans hlist))
        refine ⟨hI'.mono (tick_zero_le ..), iff_of_true hc' fun u hu => ?_⟩
        obtain rfl : t = u := Option.some.inj (hhead.symm.trans hu)
        exact hdue
      -- the early return leaves the descriptor disarmed
      · rw [hI₁.processExpired_early hhead (not_le.mp hdue)] at hlist
        obtain ⟨-, rfl⟩ := Prod.mk.inj (Option.some.inj hlist)
        refine ⟨⟨hI.sorted, hI.in_set, hI₁.mono (tick_zero_le ..) |>.start_le, tick_zero_le ..⟩,
          iff_of_false (fun hcov => ?_) fun hd => hdue (hd t hhead)⟩
        obtain ⟨a, ha, -⟩ := hcov hne
        cases ha

/-- **One step.** Where nothing overflows, all but the early return of `listExpiredCallback`
leave the timers covered. -/
theorem step_covered {s s' : TimerState κ} {op : TimerOp κ} (h : s.step op = some s')
    (hr : s.InRange op) (hI : s.manager.Inv [] s.clock) (hc : s.Covered) :
    s'.manager.Inv [] s'.clock ∧ (s'.Covered ↔ s.Due op) := by
  cases op with
  | addTimer t interval cb repeats d =>
      simp only [step] at h
      split at h
      · cases h
      · obtain rfl := Option.some.inj h
        obtain ⟨hI', hc'⟩ := (hI.mono (clock_le_tick s.clock d 0)).addTimer hc ‹_› cb repeats hr
        exact ⟨hI'.mono (tick_zero_le ..), iff_of_true hc' trivial⟩
  | cancel t =>
      obtain ⟨r, m', hm, hI', hc'⟩ := hI.cancel hc t
      simp only [step, hm, Option.map_some, Option.some.injEq] at h
      subst h
      exact ⟨hI', iff_of_true hc' trivial⟩
  | refresh t d =>
      obtain rfl := Option.some.inj h
      obtain ⟨hI', hc'⟩ := (hI.mono (clock_le_tick s.clock d 0)).refresh hc hr
      exact ⟨hI', iff_of_true hc' trivial⟩
  | reset t interval fromNow d =>
      obtain rfl := Option.some.inj h
      obtain ⟨hI', hc'⟩ := (hI.mono (clock_le_tick s.clock d 0)).reset hc hr
      exact ⟨hI'.mono (tick_zero_le ..), iff_of_true hc' trivial⟩
  | advance n =>
      obtain rfl := Option.some.inj h
      exact ⟨hI.mono (by simp), iff_of_true hc trivial⟩
  | expire nowTimer d => exact expire_covered h hr hI

theorem init_covered {s : TimerState κ} (h : machine.init s) :
    s.manager.Inv [] s.clock ∧ s.Covered := by
  obtain ⟨hcb, htimers, -, hprev⟩ := h
  refine ⟨⟨?_, fun t ht => absurd (hcb t) ht, ?_, hprev.le⟩, fun hne => absurd htimers hne⟩
  · rw [Sorted, htimers]
    exact List.Pairwise.nil
  · simp [htimers]

/-- **No armed timer is stranded**, in a run from a fresh manager in which no time stamp
overflows, if and only if each time the descriptor goes off the first timer is due. -/
theorem covered_along_iff {s : TimerState κ} (h : machine.init s) {ops : List (TimerOp κ)}
    (hr : machine.Meets InRange s ops) :
    machine.Along Covered s ops ↔ machine.Meets Due s ops :=
  Lts.along_iff_meets_among (T := machine) (I := fun s => s.manager.Inv [] s.clock)
    (fun _ _ _ hs hr hI hc => (step_covered hs hr hI hc).1)
    (fun _ _ _ hs hr hI hc => (step_covered hs hr hI hc).2) (init_covered h).1 (init_covered h).2
    hr

/-- A manager just constructed. -/
def fresh (κ : Type*) (clock : ℕ) : TimerState κ :=
  ⟨⟨fun _ => ⟨false, 0, 0, none⟩, [], none, clock⟩, clock⟩

/-- A timer that repeats, and one that is added, cancelled and outlived by it. -/
theorem covered_along_repeating :
    machine.Along Covered (fresh Unit 0)
      [.addTimer 0 1 (some ()) true fun _ => 0, .addTimer 1 2 (some ()) false fun _ => 0,
        .advance 1000, .expire 2 fun _ => 5, .cancel 1] :=
  (covered_along_iff ⟨fun _ => rfl, rfl, rfl, rfl⟩ (by decide)).mpr (by decide)

/-- An interval that does not fit: the timer expires in the past, and the descriptor is armed for
`2 ^ 63 - 1` microseconds. -/
example : ((fresh Unit 0).step (.addTimer 0 (2 ^ 60) (some ()) false fun i => i)).map
    (fun s => ((s.manager.objs 0).expiration, s.manager.timerfd)) =
      some (-2 ^ 63, some ⟨1, 2 ^ 63⟩) := by decide +kernel

/-- The earlier of two timers is cancelled. The descriptor goes off for it, and
nothing arms it for the other one. -/
theorem covered_cancel_false : ∃ s : TimerState Unit, machine.Reachable s ∧ ¬ s.Covered := by
  have hrun : ((machine.run (fresh Unit 0) [.addTimer 0 100 (some ()) false fun _ => 0,
      .addTimer 1 200 (some ()) false fun _ => 0, .cancel 0, .advance 100000,
      .expire 2 fun _ => 0]).map fun s => (s.manager.timers, s.manager.timerfd)) =
        some ([1], none) := by decide
  obtain ⟨s, hr, heq⟩ := Lts.Reachable.of_map_run hrun (.init ⟨fun _ => rfl, rfl, rfl, rfl⟩)
  obtain ⟨htimers, hfd⟩ := Prod.mk.inj heq
  refine ⟨s, hr, fun hc => ?_⟩
  obtain ⟨a, ha, -⟩ := hc (by simp [htimers])
  simp [hfd] at ha

end TimerState

end Easy.Base
