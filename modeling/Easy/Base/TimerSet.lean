import Easy.Base.TimerArm
import Mathlib.Data.List.ReduceOption

/-!
`timers_` and the callbacks of the timers, at arbitrary clock readings.

A timer object has its callback exactly as long as the set holds it: `cancel`
and the loop over the expired timers drop the callback of what they take out,
and everything else that takes a timer out puts it back, at its new place. The
clock may go back, and then `listExpiredCallback` takes out all timers.

In the runs below each timer's callback carries the number of the `addTimer`
call it was passed to, which no function of the source looks at, so that it can
be told which callback a `cancel` dropped and which ones were handed out.
-/

namespace Easy.Base

open Lib

namespace TimerManager

variable {κ : Type*} {m : TimerManager κ}

/-- `timers_.find(t)`, which compares what the comparator reads; `none` is the end
of the set. -/
def find (m : TimerManager κ) (t : ℕ) : Option ℕ := OrderedSet.find m.less t m.timers

theorem Sorted.find_eq (h : m.Sorted) (t : ℕ) :
    m.find t = if t ∈ m.timers then some t else none :=
  OrderedSet.find_eq h (m.less_irrefl t) m.less_trans fun u _ => m.less_tri t u

/-- The set is in order, and the timers with a callback are those in it, and those
`out` that a function under way has taken out. -/
structure InStep (m : TimerManager κ) (out : List ℕ) : Prop where
  sorted : m.Sorted
  armed : ∀ t, (m.objs t).cb.isSome ↔ t ∈ m.timers ∨ t ∈ out

/-- No timer has a callback that it had not before. -/
def Keeps (m m' : TimerManager κ) : Prop :=
  ∀ t x, (m'.objs t).cb = some x → (m.objs t).cb = some x

theorem Keeps.rfl : m.Keeps m := fun _ _ h => h

theorem Keeps.trans {m' m'' : TimerManager κ} (h : m.Keeps m') (h' : m'.Keeps m'') :
    m.Keeps m'' := fun t x hx => h t x (h' t x hx)

theorem Keeps.of_objs {m' : TimerManager κ} {t : ℕ} {o : Timer κ}
    (hobjs : m'.objs = (m.store t o).objs) (ho : ∀ x, o.cb = some x → (m.objs t).cb = some x) :
    m.Keeps m' := by
  intro u x hx
  rw [hobjs] at hx
  by_cases hut : u = t
  · subst hut
    rw [objs_store_self] at hx
    exact ho x hx
  · rwa [objs_store_ne o hut] at hx

section

variable {out : List ℕ} {t : ℕ} {o : Timer κ}

/-- A function takes a timer out of the set. -/
theorem InStep.erase (h : m.InStep []) (ht : t ∈ m.timers) : (m.erase t).InStep [t] where
  sorted := h.sorted.erase t
  armed u := by
    have hu : (m.objs u).cb.isSome ↔ u ∈ m.timers := by simpa using h.armed u
    rw [List.mem_singleton, h.sorted.mem_erase]
    refine hu.trans ⟨fun hmem => ?_, ?_⟩
    · by_cases hut : u = t
      · exact .inr hut
      · exact .inl ⟨hut, hmem⟩
    · rintro (⟨-, hmem⟩ | rfl)
      · exact hmem
      · exact ht

/-- A timer with a callback is inserted. -/
theorem InStep.of_insert {m' : TimerManager κ} (hs : m.Sorted)
    (harmed : ∀ u, u ≠ t → ((m.objs u).cb.isSome ↔ u ∈ m.timers ∨ u ∈ out)) (ht : t ∉ m.timers)
    (ho : o.cb.isSome) (hobjs : m'.objs = (m.store t o).objs)
    (htimers : m'.timers = OrderedSet.insert (m.store t o).less t m.timers) : m'.InStep out := by
  constructor
  · rw [Sorted, htimers, less_congr hobjs]
    exact OrderedSet.pairwise_insert (less_trans _) (hs.store o ht)
  · intro u
    have hmem : u ∈ m'.timers ↔ u = t ∨ u ∈ m.timers := by
      rw [htimers]
      exact mem_insert (m := m.store t o)
    rw [hmem, hobjs]
    by_cases hut : u = t
    · subst hut
      simpa using ho
    · rw [objs_store_ne o hut, harmed u hut]
      simp [hut]

/-- It puts it back, with a new expiration. -/
theorem InStep.insert {m' : TimerManager κ} (h : m.InStep (t :: out)) (ht : t ∉ m.timers)
    (ho : o.cb.isSome) (hobjs : m'.objs = (m.store t o).objs)
    (htimers : m'.timers = OrderedSet.insert (m.store t o).less t m.timers) : m'.InStep out :=
  .of_insert h.sorted (fun u hu => by simpa [hu] using h.armed u) ht ho hobjs htimers

/-- Or it drops its callback. -/
theorem InStep.disarm (h : m.InStep (t :: out)) (ht : t ∉ m.timers) (hout : t ∉ out)
    (ho : o.cb = none) : (m.store t o).InStep out where
  sorted := h.sorted.store o ht
  armed u := by
    by_cases hut : u = t
    · subst hut
      simp [ho, ht, hout]
    · rw [objs_store_ne o hut, h.armed u]
      simp [hut]

/-! ### The member functions -/

theorem InStep.addTimer (h : m.InStep []) (ht : t ∉ m.timers) (interval : ℤ) {cb : Option κ}
    (hcb : cb.isSome) (repeats : Bool) (now now' : ℤ) :
    (m.addTimer t interval cb repeats now now').InStep [] :=
  .of_insert h.sorted (fun u _ => h.armed u) ht hcb (objs_addTimerPtr ..) (timers_addTimerPtr ..)

/-- `cancel` finds the timer it has just taken the callback of. -/
theorem InStep.find_cancelled (h : m.InStep []) (hcb : (m.objs t).cb.isSome) :
    (m.store t { m.objs t with cb := none }).find t = some t := by
  have ht : t ∈ m.timers := by simpa using (h.armed t).mp hcb
  have hless : (m.store t { m.objs t with cb := none }).less = m.less := by
    ext a b
    simp only [less_iff]
    by_cases ha : a = t <;> by_cases hb : b = t <;> simp [store, ha, hb]
  have hs : (m.store t { m.objs t with cb := none }).Sorted := by
    rw [Sorted, hless]
    exact h.sorted
  exact (hs.find_eq t).trans (if_pos ht)

theorem InStep.cancel (h : m.InStep []) (t : ℕ) :
    ∃ m', m.cancel t = some ((m.objs t).cb.isSome, m') ∧ m'.InStep [] ∧ m.Keeps m' ∧
      (m'.objs t).cb = none := by
  simp only [TimerManager.cancel]
  cases hcb : (m.objs t).cb with
  | none => exact ⟨m, by simp, h, .rfl, hcb⟩
  | some x =>
      have ht : t ∈ m.timers := by simpa [hcb] using h.armed t
      exact ⟨_, by simp [ht]; rfl,
        (h.erase ht).disarm (h.sorted.not_mem_erase t) (by simp) rfl, .of_objs rfl (by simp),
        by simp [TimerManager.erase]⟩

theorem InStep.refresh (h : m.InStep []) (t : ℕ) (now : ℤ) :
    (m.refresh t now).2.InStep [] ∧ m.Keeps (m.refresh t now).2 := by
  simp only [TimerManager.refresh]
  split_ifs with hcb ht
  · exact ⟨h, .rfl⟩
  · refine ⟨(h.erase ht).insert (h.sorted.not_mem_erase t) ?_ rfl rfl,
      .of_objs rfl fun _ hx => hx⟩
    exact (h.armed t).mpr (.inl ht)
  · exact ⟨h, .rfl⟩

theorem InStep.reset (h : m.InStep []) (t : ℕ) (interval : ℤ) (fromNow : Bool) (now now' : ℤ) :
    (m.reset t interval fromNow now now').2.InStep [] ∧
      m.Keeps (m.reset t interval fromNow now now').2 := by
  simp only [TimerManager.reset]
  by_cases hsame : interval = (m.objs t).interval ∧ !fromNow
  · simp only [if_pos hsame]
    exact ⟨h, .rfl⟩
  by_cases hcb : (m.objs t).cb.isNone
  · simp only [if_neg hsame, if_pos hcb]
    exact ⟨h, .rfl⟩
  by_cases ht : t ∈ m.timers
  · simp only [if_neg hsame, if_neg hcb, if_neg (not_not.mpr ht)]
    refine ⟨(h.erase ht).insert (h.sorted.not_mem_erase t) ?_ (objs_addTimerPtr ..)
      (timers_addTimerPtr ..), .of_objs (objs_addTimerPtr ..) fun _ hx => hx⟩
    exact (h.armed t).mpr (.inl ht)
  · simp only [if_neg hsame, if_neg hcb, if_pos ht]
    exact ⟨h, .rfl⟩

/-- Handing out a timer that is not in the set: a repeating one goes back. -/
theorem InStep.handOut (h : m.InStep (t :: out)) (ht : t ∉ m.timers) (hout : t ∉ out)
    (now now' : ℤ) : (m.handOut t now now').InStep out ∧ m.Keeps (m.handOut t now now') ∧
      ∀ u ∈ (m.handOut t now now').timers, u = t ∨ u ∈ m.timers := by
  have hcb : (m.objs t).cb.isSome := (h.armed t).mpr (.inr (by simp))
  simp only [TimerManager.handOut]
  split
  · refine ⟨h.insert ht ?_ (objs_addTimerPtr ..) (timers_addTimerPtr ..),
      .of_objs (objs_addTimerPtr ..) fun _ hx => hx, fun u hu => ?_⟩
    · exact hcb
    · rw [timers_addTimerPtr] at hu
      exact (mem_insert (m := m.store t _)).mp hu
  · exact ⟨h.disarm ht hout rfl, .of_objs rfl (by simp), fun u hu => .inr hu⟩

/-- The callbacks handed out by the loop are ones the timers had. -/
theorem InStep.expireLoop (now : ℤ) (clock : ℕ → ℤ) (h : m.InStep out) (hnd : out.Nodup)
    (hdisj : ∀ t ∈ out, t ∉ m.timers) (i : ℕ) :
    (expireLoop now clock m i out).2.InStep [] ∧ m.Keeps (expireLoop now clock m i out).2 ∧
      ∀ c ∈ (expireLoop now clock m i out).1, ∃ t x, c = some x ∧ (m.objs t).cb = some x := by
  induction out generalizing m i with
  | nil => exact ⟨h, .rfl, by simp [TimerManager.expireLoop]⟩
  | cons t ts ih =>
      obtain ⟨hnt, hnd⟩ := List.nodup_cons.mp hnd
      obtain ⟨h', hkeep, hmem⟩ := h.handOut (hdisj t (by simp)) hnt now (clock i)
      have hdisj' : ∀ u ∈ ts, u ∉ (m.handOut t now (clock i)).timers := by
        intro u hu hin
        rcases hmem u hin with rfl | hin
        · exact hnt hu
        · exact hdisj u (by simp [hu]) hin
      obtain ⟨hin, hkeep', hcbs⟩ := ih h' hnd hdisj' (i + 1)
      refine ⟨hin, hkeep.trans hkeep', fun c hc => ?_⟩
      rcases List.mem_cons.mp hc with rfl | hc
      · obtain ⟨x, hx⟩ := Option.isSome_iff_exists.mp ((h.armed t).mpr (.inr (by simp)))
        exact ⟨t, x, hx, hx⟩
      · obtain ⟨u, x, hc, hx⟩ := hcbs c hc
        exact ⟨u, x, hc, hkeep u x hx⟩

@[simp] theorem objs_rearm (m : TimerManager κ) (now : ℤ) : (m.rearm now).objs = m.objs := by
  simp only [rearm]
  split_ifs <;> rfl

@[simp] theorem timers_rearm (m : TimerManager κ) (now : ℤ) :
    (m.rearm now).timers = m.timers := by
  simp only [rearm]
  split_ifs <;> rfl

theorem InStep.congr {m' : TimerManager κ} (h : m.InStep out) (hobjs : m'.objs = m.objs)
    (htimers : m'.timers = m.timers) : m'.InStep out := by
  refine ⟨?_, fun u => by rw [hobjs, htimers]; exact h.armed u⟩
  rw [Sorted, htimers, less_congr hobjs]
  exact h.sorted

/-- The locked part of `listExpiredCallback` returns early or hands out the front
of the set, up to some point. -/
theorem processExpired_cases (hne : m.timers ≠ []) (now : ℤ) (nowTimer : ℕ) (clock : ℕ → ℤ) :
    m.processExpired now nowTimer clock = some ([], { m with previous := now }) ∨
      ∃ e cbs m', TimerManager.expireLoop now clock
          { m with previous := now, timers := m.timers.drop e } 0 (m.timers.take e) = (cbs, m') ∧
        m.processExpired now nowTimer clock = some (cbs, m'.rearm (clock e)) := by
  obtain ⟨t, hhead⟩ : ∃ t, m.timers.head? = some t := by
    cases ht : m.timers with
    | nil => exact absurd ht hne
    | cons t ts => exact ⟨t, rfl⟩
  simp only [TimerManager.processExpired, detectClockRollover, hhead]
  by_cases hroll : now < m.previous ∧ now < addTime m.previous (-Timestamp.kSecondsPerHour)
  · rw [if_pos (by simpa using hroll)]
    exact .inr ⟨_, _, _, rfl, rfl⟩
  · rw [if_neg (by simpa using hroll)]
    by_cases hlate : now < (m.objs t).expiration
    · left
      simp only [hlate, if_true]
    · right
      simp only [hlate, if_false]
      exact ⟨_, _, _, rfl, rfl⟩

/-- Any front of the set can be handed out. -/
theorem InStep.cut (h : m.InStep []) (now : ℤ) (e : ℕ) :
    InStep { m with previous := now, timers := m.timers.drop e } (m.timers.take e) ∧
      (m.timers.take e).Nodup ∧ ∀ t ∈ m.timers.take e, t ∉ m.timers.drop e := by
  have hnd := h.sorted.nodup
  rw [← List.take_append_drop e m.timers] at hnd
  obtain ⟨hnd, -, hdisj⟩ := List.nodup_append.mp hnd
  refine ⟨⟨List.Pairwise.drop h.sorted, fun u => ?_⟩, hnd, fun u hu hin => hdisj u hu u hin rfl⟩
  have hu : (m.objs u).cb.isSome ↔ u ∈ m.timers := by simpa using h.armed u
  rw [hu, ← List.mem_append.trans or_comm, List.take_append_drop]

theorem InStep.listExpiredCallback (h : m.InStep []) (now : ℤ) (nowTimer : ℕ) (clock : ℕ → ℤ) :
    ∃ cbs m', m.listExpiredCallback now nowTimer clock = some (cbs, m') ∧ m'.InStep [] ∧
      m.Keeps m' ∧ ∀ c ∈ cbs, ∃ t x, c = some x ∧ (m.objs t).cb = some x := by
  by_cases hnil : m.timers = []
  · exact ⟨[], m, listExpiredCallback_nil hnil, h, .rfl, by simp⟩
  rw [listExpiredCallback_ne hnil]
  rcases processExpired_cases hnil now nowTimer clock with hearly | ⟨e, cbs, m', hloop, hp⟩
  · exact ⟨[], _, hearly, h.congr rfl rfl, .rfl, by simp⟩
  · obtain ⟨hcut, hnd, hdisj⟩ := h.cut now e
    have hrest := hcut.expireLoop now clock hnd hdisj 0
    rw [hloop] at hrest
    obtain ⟨hin, hkeep, hcbs⟩ := hrest
    refine ⟨cbs, _, hp, hin.congr (objs_rearm ..) (timers_rearm ..), fun t x hx => ?_, hcbs⟩
    rw [objs_rearm] at hx
    exact hkeep t x hx

end

end TimerManager

/-! ### Runs -/

/-- What the user of a manager can tell of a timer: that `cancel` returned true, and
that its callback was handed out. -/
inductive TimerEvent
  | cancelled (n : ℕ)
  | handed (n : ℕ)
  deriving DecidableEq

/-- A manager, the number of the next `addTimer` call, and what happened. -/
structure TimerRun (κ : Type*) where
  manager : TimerManager (ℕ × κ)
  next : ℕ
  log : List TimerEvent

/-- The calls of a timer's and the manager's functions, with what each reads from
the clock. `addTimer` makes its object at an address the set does not hold. -/
inductive TimerCall (κ : Type*)
  | addTimer (t : ℕ) (interval : ℤ) (cb : κ) (repeats : Bool) (now now' : ℤ)
  | cancel (t : ℕ)
  | refresh (t : ℕ) (now : ℤ)
  | reset (t : ℕ) (interval : ℤ) (fromNow : Bool) (now now' : ℤ)
  | listExpiredCallback (now : ℤ) (nowTimer : ℕ) (clock : ℕ → ℤ)

namespace TimerRun

open TimerManager (InStep Keeps Sorted)

variable {κ : Type*}

def step (s : TimerRun κ) : TimerCall κ → Option (TimerRun κ)
  | .addTimer t interval cb repeats now now' =>
    if t ∈ s.manager.timers then none
    else some ⟨s.manager.addTimer t interval (some (s.next, cb)) repeats now now', s.next + 1,
      s.log⟩
  | .cancel t => (s.manager.cancel t).map fun r =>
    let cancelled := if r.1 then (s.manager.objs t).cb.map fun x => .cancelled x.1 else none
    { s with manager := r.2, log := s.log ++ cancelled.toList }
  | .refresh t now => some { s with manager := (s.manager.refresh t now).2 }
  | .reset t interval fromNow now now' =>
    some { s with manager := (s.manager.reset t interval fromNow now now').2 }
  | .listExpiredCallback now nowTimer clock =>
    (s.manager.listExpiredCallback now nowTimer clock).map fun r =>
      { s with manager := r.2, log := s.log ++ r.1.reduceOption.map fun x => .handed x.1 }

/-- All runs from a manager just constructed. -/
def machine : Lts (TimerRun κ) (TimerCall κ) where
  init s := (∀ t, (s.manager.objs t).cb = none) ∧ s.manager.timers = [] ∧ s.next = 0 ∧ s.log = []
  step := step

/-- No callback is handed out after its timer was cancelled. -/
def Silent (log : List TimerEvent) : Prop :=
  log.Pairwise fun a b => ∀ n, a = .cancelled n → b ≠ .handed n

/-- The invariant of runs: each callback is with the one timer it was passed to, and
those of cancelled timers are with none. -/
structure Inv (s : TimerRun κ) : Prop where
  in_step : s.manager.InStep []
  lt_next : ∀ t x, (s.manager.objs t).cb = some x → x.1 < s.next
  unique : ∀ t u x y, (s.manager.objs t).cb = some x → (s.manager.objs u).cb = some y →
    x.1 = y.1 → t = u
  cancelled : ∀ n, .cancelled n ∈ s.log → n < s.next ∧
    ∀ t x, (s.manager.objs t).cb = some x → x.1 ≠ n
  silent : Silent s.log

theorem Silent.append {log new : List TimerEvent} (h : Silent log) (hnew : Silent new)
    (hsep : ∀ n, .cancelled n ∈ log → .handed n ∉ new) : Silent (log ++ new) :=
  List.pairwise_append.mpr ⟨h, hnew, fun _ ha _ hb n hac hbh =>
    hsep n (hac ▸ ha) (hbh ▸ hb)⟩

theorem Silent.of_handed {new : List TimerEvent} (h : ∀ e ∈ new, ∃ n, e = .handed n) :
    Silent new := by
  refine List.pairwise_of_forall_mem_list fun a ha _ _ n hn => ?_
  obtain ⟨k, rfl⟩ := h a ha
  cases hn

/-- A function that gives no timer a callback keeps the invariant, if what it logs
is about timers that had one: a cancelled one that has none any more, or ones
that were handed out. -/
theorem Inv.keep {s : TimerRun κ} (h : s.Inv) {m : TimerManager (ℕ × κ)} (hin : m.InStep [])
    (hkeep : s.manager.Keeps m) {new : List TimerEvent} (hnew : Silent new)
    (hhanded : ∀ n, .handed n ∈ new → ∃ t x, (s.manager.objs t).cb = some x ∧ x.1 = n)
    (hcancelled : ∀ n, .cancelled n ∈ new → n < s.next ∧
      ∀ t x, (m.objs t).cb = some x → x.1 ≠ n) :
    Inv { s with manager := m, log := s.log ++ new } := by
  refine ⟨hin, fun t x hx => h.lt_next t x (hkeep t x hx), fun t u x y hx hy hxy =>
    h.unique t u x y (hkeep t x hx) (hkeep u y hy) hxy, fun n hn => ?_, ?_⟩
  · rcases List.mem_append.mp hn with hn | hn
    · exact ⟨(h.cancelled n hn).1, fun t x hx => (h.cancelled n hn).2 t x (hkeep t x hx)⟩
    · exact hcancelled n hn
  · refine h.silent.append hnew fun n hn hmem => ?_
    obtain ⟨t, x, hx, rfl⟩ := hhanded n hmem
    exact (h.cancelled _ hn).2 t x hx rfl

theorem Inv.addTimer {s : TimerRun κ} (h : s.Inv) {t : ℕ} (ht : t ∉ s.manager.timers)
    (interval : ℤ) (cb : κ) (repeats : Bool) (now now' : ℤ) :
    Inv ⟨s.manager.addTimer t interval (some (s.next, cb)) repeats now now', s.next + 1,
      s.log⟩ := by
  -- the new object has the new number, the others are as they were
  have hobjs : ∀ u x, ((s.manager.addTimer t interval (some (s.next, cb)) repeats now
      now').objs u).cb = some x → u = t ∧ x.1 = s.next ∨ (s.manager.objs u).cb = some x := by
    intro u x hx
    rw [TimerManager.addTimer, TimerManager.objs_addTimerPtr] at hx
    by_cases hut : u = t
    · subst hut
      rw [TimerManager.objs_store_self] at hx
      exact .inl ⟨rfl, by rw [← Option.some.inj hx]⟩
    · rw [TimerManager.objs_store_ne _ hut] at hx
      exact .inr hx
  refine ⟨h.in_step.addTimer ht interval rfl repeats now now', fun u x hx => ?_,
    fun u v x y hx hy hxy => ?_, fun n hn => ?_, h.silent⟩
  · rcases hobjs u x hx with ⟨-, hnum⟩ | hold
    · exact hnum ▸ Nat.lt_succ_self _
    · exact (h.lt_next u x hold).trans (Nat.lt_succ_self _)
  · rcases hobjs u x hx with ⟨rfl, hnum⟩ | hold <;> rcases hobjs v y hy with ⟨rfl, hnum'⟩ | hold'
    · rfl
    · exact absurd (hxy ▸ hnum) (h.lt_next v y hold').ne
    · exact absurd (hxy.trans hnum') (h.lt_next u x hold).ne
    · exact h.unique u v x y hold hold' hxy
  · refine ⟨(h.cancelled n hn).1.trans (Nat.lt_succ_self _), fun u x hx => ?_⟩
    rcases hobjs u x hx with ⟨-, hnum⟩ | hold
    · exact hnum ▸ (h.cancelled n hn).1.ne'
    · exact (h.cancelled n hn).2 u x hold

theorem Inv.cancel {s : TimerRun κ} (h : s.Inv) (t : ℕ) :
    ∃ s', s.step (.cancel t) = some s' ∧ s'.Inv := by
  obtain ⟨m, hm, hin, hkeep, hnone⟩ := h.in_step.cancel t
  refine ⟨_, by rw [step, hm]; rfl, ?_⟩
  cases hcb : (s.manager.objs t).cb with
  | none => exact h.keep hin hkeep (by simp [Silent]) (by simp) (by simp)
  | some x =>
      refine h.keep hin hkeep (by simp [Silent]) (by simp) fun n hn => ?_
      obtain rfl : n = x.1 := by simpa using hn
      refine ⟨h.lt_next t x hcb, fun u y hy hxy => ?_⟩
      -- only the cancelled timer had this callback
      obtain rfl := h.unique u t y x (hkeep u y hy) hcb hxy
      simp [hnone] at hy

theorem Inv.listExpiredCallback {s : TimerRun κ} (h : s.Inv) (now : ℤ) (nowTimer : ℕ)
    (clock : ℕ → ℤ) :
    ∃ s', s.step (.listExpiredCallback now nowTimer clock) = some s' ∧ s'.Inv := by
  obtain ⟨cbs, m, hm, hin, hkeep, hcbs⟩ := h.in_step.listExpiredCallback now nowTimer clock
  refine ⟨_, by rw [step, hm]; rfl, h.keep hin hkeep ?_ ?_ (by simp)⟩
  · refine .of_handed fun e he => ?_
    obtain ⟨x, -, rfl⟩ := List.mem_map.mp he
    exact ⟨x.1, rfl⟩
  · intro n hn
    obtain ⟨x, hx, hxn⟩ := List.mem_map.mp hn
    obtain ⟨t, y, hxy, hy⟩ := hcbs (some x) (List.reduceOption_mem_iff.mp hx)
    obtain rfl := Option.some.inj hxy
    exact ⟨t, x, hy, TimerEvent.handed.inj hxn⟩

/-- **One call** returns, and keeps the invariant. -/
theorem step_inv {s s' : TimerRun κ} {call : TimerCall κ} (hstep : machine.step s call = some s')
    (h : s.Inv) : s'.Inv := by
  change s.step call = some s' at hstep
  have hsame : ∀ {m : TimerManager (ℕ × κ)}, m.InStep [] ∧ s.manager.Keeps m →
      Inv { s with manager := m } := by
    rintro m ⟨hin, hkeep⟩
    have hnil : Silent [] := List.Pairwise.nil
    simpa using h.keep hin hkeep hnil (by simp) (by simp)
  cases call with
  | addTimer t interval cb repeats now now' =>
      simp only [step] at hstep
      split at hstep
      · cases hstep
      · exact Option.some.inj hstep ▸ h.addTimer ‹_› interval cb repeats now now'
  | cancel t =>
      obtain ⟨s₁, h₁, hinv⟩ := h.cancel t
      exact Option.some.inj (h₁.symm.trans hstep) ▸ hinv
  | refresh t now => exact Option.some.inj hstep ▸ hsame (h.in_step.refresh t now)
  | reset t interval fromNow now now' =>
      exact Option.some.inj hstep ▸ hsame (h.in_step.reset t interval fromNow now now')
  | listExpiredCallback now nowTimer clock =>
      obtain ⟨s₁, h₁, hinv⟩ := h.listExpiredCallback now nowTimer clock
      exact Option.some.inj (h₁.symm.trans hstep) ▸ hinv

theorem inv {s : TimerRun κ} (h : machine.Reachable s) : s.Inv := by
  refine h.invariant (I := Inv) ?_ fun _ _ _ hstep => step_inv hstep
  rintro s ⟨hcb, htimers, -, hlog⟩
  refine ⟨⟨?_, ?_⟩, ?_, ?_, ?_, ?_⟩
  · rw [Sorted, htimers]
    exact List.Pairwise.nil
  · simp [hcb, htimers]
  · simp [hcb]
  · simp [hcb]
  · simp [hlog]
  · rw [hlog]
    exact List.Pairwise.nil

/-- The set is in order, without repetitions, and holds the timers that have a
callback. `cancel` clears the callback first and still finds the timer it erases;
it and `listExpiredCallback` always return; and no callback has been handed out
after its timer was cancelled. -/
structure Synced (s : TimerRun κ) : Prop where
  ordered : s.manager.timers.Pairwise fun t u =>
    (s.manager.objs t).expiration < (s.manager.objs u).expiration ∨
      (s.manager.objs t).expiration = (s.manager.objs u).expiration ∧ t < u
  nodup : s.manager.timers.Nodup
  armed : ∀ t, t ∈ s.manager.timers ↔ (s.manager.objs t).cb.isSome
  found : ∀ t, (s.manager.objs t).cb.isSome →
    (s.manager.store t { s.manager.objs t with cb := none }).find t = some t
  cancel_returns : ∀ t, (s.step (.cancel t)).isSome
  expire_returns : ∀ now nowTimer clock, (s.step (.listExpiredCallback now nowTimer clock)).isSome
  silent : Silent s.log

/-- **The set and the callbacks stay in step** in all runs, at any clock readings. -/
theorem synced {s : TimerRun κ} (h : machine.Reachable s) : s.Synced := by
  have hI := inv h
  constructor
  · exact hI.in_step.sorted.imp fun hab => TimerManager.less_iff.mp hab
  · exact hI.in_step.sorted.nodup
  · intro t
    simpa using (hI.in_step.armed t).symm
  · exact fun t => hI.in_step.find_cancelled
  · intro t
    obtain ⟨s', hs', -⟩ := hI.cancel t
    simp [hs']
  · intro now nowTimer clock
    obtain ⟨s', hs', -⟩ := hI.listExpiredCallback now nowTimer clock
    simp [hs']
  · exact hI.silent

/-- A manager just constructed. -/
def fresh (κ : Type*) (now : ℤ) : TimerRun κ :=
  ⟨⟨fun _ => ⟨false, 0, 0, none⟩, [], none, now⟩, 0, []⟩

/-- The clock is set back by two hours, which hands out all timers: the repeating one
goes back into the set and is cancelled. -/
theorem synced_rollover : ∃ s : TimerRun Unit,
    s.log = [.handed 0, .handed 1, .cancelled 0] ∧ s.Synced := by
  have hrun : ((machine.run (fresh Unit 7200000000) [.addTimer 3 10 () true 7200000000 7200000000,
      .addTimer 5 20 () false 7200000000 7200000000, .listExpiredCallback 0 9 fun _ => 0,
      .cancel 3, .refresh 3 0]).map TimerRun.log) =
        some [.handed 0, .handed 1, .cancelled 0] := by decide
  obtain ⟨s, hr, hlog⟩ := Lts.Reachable.of_map_run hrun (.init ⟨fun _ => rfl, rfl, rfl, rfl⟩)
  exact ⟨s, hlog, synced hr⟩

end TimerRun

end Easy.Base
