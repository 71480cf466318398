import Easy.Base.TimerThreads

/-!
What `cancel`, `refresh` and `reset` return.

A timer with a callback is in the set, and one that was passed a callback is in the set only
as long as it has it. So the tests of the callback and of the set, which the three functions make
under the lock, come to the same. `reset` makes another one first: if neither the interval nor
the start changes it returns true, whatever has become of the timer. And a timer that is armed
again expires when it should only where that is a time of an `int64_t`.
-/

namespace Easy.Base

open Lib

namespace TimerManager

variable {ι : Type} {κ : Type*} {m m' : TimerManager κ} {t : ℕ}

/-! ### Reports -/

/-- A call for the timer `t` returns `r` and leaves `m'`: it returns true exactly when the timer
is in the set, it changes nothing of it when it returns false, and no other timer in any case. -/
structure Reports (m : TimerManager κ) (t : ℕ) (r : Bool) (m' : TimerManager κ) : Prop where
  true_iff : r = true ↔ t ∈ m.timers
  unchanged : r = false → m'.timers = m.timers ∧ m'.objs t = m.objs t
  others : ∀ u ≠ t, m'.objs u = m.objs u ∧ (u ∈ m'.timers ↔ u ∈ m.timers)

/-- When it returns true, the timer is in the set with this interval and expiration. -/
structure Rearms (m : TimerManager κ) (t : ℕ) (r : Bool) (m' : TimerManager κ)
    (interval expiration : ℤ) : Prop extends m.Reports t r m' where
  rearmed : r = true → t ∈ m'.timers ∧ (m'.objs t).interval = interval ∧
    (m'.objs t).expiration = expiration

/-- A call that returns without a change. -/
theorem reports_same {r : Bool} : m.Reports t r m ↔ (r = true ↔ t ∈ m.timers) :=
  ⟨fun h => h.true_iff, fun h => ⟨h, fun _ => ⟨rfl, rfl⟩, fun _ _ => ⟨rfl, Iff.rfl⟩⟩⟩

/-- A timer is in the set only with its callback. -/
def Armed (m : TimerManager κ) (t : ℕ) : Prop := t ∈ m.timers → (m.objs t).cb.isSome

theorem armed_iff_not_mem (h : (m.objs t).cb = none ∨ t ∉ m.timers) :
    m.Armed t ↔ t ∉ m.timers := by
  rw [Armed]
  rcases h with hcb | ht
  · simp [hcb]
  · simp [ht]

/-- A timer of the set is taken out and put back at another place. -/
theorem Sorted.rearms {o : Timer κ} (hs : m.Sorted) (ht : t ∈ m.timers)
    (hobjs : m'.objs = ((m.erase t).store t o).objs)
    (htimers : m'.timers = OrderedSet.insert ((m.erase t).store t o).less t (m.erase t).timers) :
    m.Rearms t true m' o.interval o.expiration := by
  have hmem : ∀ u, u ∈ m'.timers ↔ u = t ∨ u ∈ (m.erase t).timers := fun u => by
    rw [htimers]
    exact mem_insert (m := (m.erase t).store t o)
  refine ⟨⟨iff_of_true rfl ht, fun h => (by cases h), fun u hut => ⟨?_, ?_⟩⟩, fun _ => ⟨?_, ?_, ?_⟩⟩
  · rw [hobjs, objs_store_ne o hut]
    rfl
  · rw [hmem, hs.mem_erase]
    tauto
  · exact (hmem t).mpr (.inl rfl)
  · rw [hobjs, objs_store_self]
  · rw [hobjs, objs_store_self]

theorem Holds.reports_cancel (h : m.Holds) (t : ℕ) :
    ∃ r m', m.cancel t = some (r, m') ∧ (m.Reports t r m' ↔ m.Armed t) := by
  cases hcb : (m.objs t).cb with
  | none =>
      refine ⟨false, m, by simp [TimerManager.cancel, hcb], ?_⟩
      rw [reports_same, armed_iff_not_mem (.inl hcb)]
      simp
  | some x =>
      have hsome : (m.objs t).cb.isSome := by simp [hcb]
      have ht := h.of_cb t hsome
      refine ⟨true, (m.store t { m.objs t with cb := none }).erase t,
        by simp [TimerManager.cancel, hcb, ht], ?_⟩
      refine iff_of_true ⟨iff_of_true rfl ht, fun h => (by cases h), fun u hut => ⟨?_, ?_⟩⟩
        fun _ => hsome
      · exact objs_store_ne _ hut
      · exact h.sorted.mem_erase.trans (and_iff_right hut)

/-- A timer is in the set only with its callback, and then the time `expiration`, which it is
armed again for, fits. -/
def ArmedUntil (m : TimerManager κ) (t : ℕ) (expiration : ℤ) : Prop :=
  t ∈ m.timers → (m.objs t).cb.isSome ∧ FitsInt64 expiration

/-- A call for a timer that has lost its callback, or is not in the set, returns false. -/
theorem rearms_same_iff {interval expiration : ℤ} (h : (m.objs t).cb = none ∨ t ∉ m.timers) :
    m.Rearms t false m interval expiration ↔ m.ArmedUntil t expiration := by
  constructor
  · intro hrearms hmem
    cases hrearms.true_iff.mpr hmem
  · intro harmed
    have hmem : t ∉ m.timers := (armed_iff_not_mem h).mp fun ht => (harmed ht).1
    exact ⟨reports_same.mpr (by simpa using hmem), fun h => (by cases h)⟩

/-- A timer of the set is armed again, for a time that wraps around if it does not fit. -/
theorem Sorted.rearms_iff {o : Timer κ} {expiration : ℤ} (hs : m.Sorted) (ht : t ∈ m.timers)
    (hcb : (m.objs t).cb.isSome) (hobjs : m'.objs = ((m.erase t).store t o).objs)
    (htimers : m'.timers = OrderedSet.insert ((m.erase t).store t o).less t (m.erase t).timers)
    (ho : o.expiration = wrap64 expiration) :
    m.Rearms t true m' o.interval expiration ↔ m.ArmedUntil t expiration := by
  have hrearms := hs.rearms ht hobjs htimers
  constructor
  · intro hexpires _
    obtain ⟨-, -, hleft⟩ := hrearms.rearmed rfl
    obtain ⟨-, -, hright⟩ := hexpires.rearmed rfl
    exact ⟨hcb, wrap64_eq_iff.mp (ho.symm.trans (hleft.symm.trans hright))⟩
  · intro harmed
    -- in the range nothing wraps around
    rw [wrap64_eq_iff.mpr (harmed ht).2] at ho
    exact ho ▸ hrearms

theorem Holds.reports_refresh (h : m.Holds) (t : ℕ) (now : ℤ) :
    m.Rearms t (m.refresh t now).1 (m.refresh t now).2 (m.objs t).interval
      (now + (m.objs t).interval * 1000) ↔
        m.ArmedUntil t (now + (m.objs t).interval * 1000) := by
  rcases refresh_cases m t now with ⟨hcb, ht, htrue, hobjs, htimers, -⟩ | ⟨hnone, heq⟩
  · rw [htrue]
    exact h.sorted.rearms_iff (o := refreshed (m.objs t) now) ht hcb hobjs htimers (addTime_eq ..)
  · rw [heq]
    exact rearms_same_iff hnone

/-- What `reset` has to leave. -/
def resetExpiration (o : Timer κ) (interval : ℤ) (fromNow : Bool) (now : ℤ) : ℤ :=
  if fromNow then now + interval * 1000
  else o.expiration - o.interval * 1000 + interval * 1000

theorem start_add (o : Timer κ) (interval : ℤ) (fromNow : Bool) (now : ℤ) :
    start o fromNow now + interval * 1000 = resetExpiration o interval fromNow now := by
  cases fromNow <;> rfl

theorem Holds.reports_reset (h : m.Holds) (t : ℕ) (interval : ℤ) (fromNow : Bool) (now now' : ℤ) :
    m.Rearms t (m.reset t interval fromNow now now').1 (m.reset t interval fromNow now now').2
        interval (resetExpiration (m.objs t) interval fromNow now) ↔
      if interval = (m.objs t).interval ∧ fromNow = false then t ∈ m.timers
      else m.ArmedUntil t (resetExpiration (m.objs t) interval fromNow now) := by
  rcases reset_cases m t interval fromNow now now' with
    ⟨hsame, hstart, heq⟩ | ⟨hchange, hcb, ht, heq⟩ | ⟨hchange, hnone, heq⟩
  -- the return in front of the lock
  · rw [heq, if_pos ⟨hsame, hstart⟩]
    constructor
    · exact fun hrearms => hrearms.true_iff.mp rfl
    · intro ht
      refine ⟨reports_same.mpr (iff_of_true rfl ht), fun _ => ⟨ht, hsame.symm, ?_⟩⟩
      rw [resetExpiration, hstart, hsame]
      simp
  · rw [heq, if_neg hchange]
    refine h.sorted.rearms_iff (o := resetTo (m.objs t) interval fromNow now) ht hcb
      (objs_addTimerPtr _ t now') (timers_addTimerPtr ..) ?_
    rw [← start_add]
    exact addTime_start ..
  · rw [heq, if_neg hchange]
    exact rearms_same_iff hnone

/-- **Reports.** In any state that threads can bring a manager to, `cancel` tells the truth about
a timer that is not in the set without a callback. So does `refresh`, if the time that such a timer
is armed again for fits, and `reset`, unless neither the interval nor the start changes: then it
does about a timer of the set only. -/
theorem reports_iff [DecidableEq ι] {s : Threads.State ι (TimerManager κ) TimerPc}
    (h : (threads ι κ).lts.Reachable s) (t : ℕ) :
    (∃ r m', s.shared.cancel t = some (r, m') ∧
      (s.shared.Reports t r m' ↔ s.shared.Armed t)) ∧
    (∀ now, s.shared.Rearms t (s.shared.refresh t now).1 (s.shared.refresh t now).2
      (s.shared.objs t).interval (now + (s.shared.objs t).interval * 1000) ↔
        s.shared.ArmedUntil t (now + (s.shared.objs t).interval * 1000)) ∧
    ∀ interval fromNow now now',
      s.shared.Rearms t (s.shared.reset t interval fromNow now now').1
          (s.shared.reset t interval fromNow now now').2 interval
          (resetExpiration (s.shared.objs t) interval fromNow now) ↔
        if interval = (s.shared.objs t).interval ∧ fromNow = false then t ∈ s.shared.timers
        else s.shared.ArmedUntil t
          (resetExpiration (s.shared.objs t) interval fromNow now) :=
  have hholds := holds_of_reachable h
  ⟨hholds.reports_cancel t, hholds.reports_refresh t, hholds.reports_reset t⟩

/-- A repeating timer that has been handed out, and is put off. -/
theorem reports_repeating :
    ∃ s : Threads.State Bool (TimerManager Unit) TimerPc, (threads Bool Unit).lts.Reachable s ∧
      s.shared.Rearms 3 (s.shared.reset 3 5 true 2500 2500).1
        (s.shared.reset 3 5 true 2500 2500).2 5 7500 := by
  have hrun : ((threads Bool Unit).lts.run twoThreads [(true, .addTimer 3 1 (some ()) true 0 0),
      (false, .check 2000), (false, .process 5 fun _ => 2000)]).map
        (fun s => ((s.shared.objs 3).interval, (s.shared.objs 3).cb)) = some (1, some ()) := by
    decide
  obtain ⟨s, hr, hs⟩ := Lts.Reachable.of_map_run hrun (.init init_twoThreads)
  obtain ⟨hinterval, hcb⟩ := Prod.mk.inj hs
  have hreset := (reports_iff hr 3).2.2 5 true 2500 2500
  rw [if_neg (by simp)] at hreset
  have hfits : FitsInt64 (2500 + 5 * 1000) := by decide
  exact ⟨s, hr, hreset.mpr fun _ => ⟨by simp [hcb], hfits⟩⟩

/-- A timer that was handed out is not in the set any more. -/
theorem reports_false :
    ∃ s : Threads.State Bool (TimerManager Unit) TimerPc, (threads Bool Unit).lts.Reachable s ∧
      3 ∉ s.shared.timers ∧ (s.shared.reset 3 1 false 2500 2500).1 = true := by
  have hrun : ((threads Bool Unit).lts.run twoThreads [(true, .addTimer 3 1 (some ()) false 0 0),
      (false, .check 2000), (false, .process 5 fun _ => 2000)]).map
        (fun s => (s.shared.timers, (s.shared.reset 3 1 false 2500 2500).1)) =
          some ([], true) := by
    decide
  obtain ⟨s, hr, hs⟩ := Lts.Reachable.of_map_run hrun (.init init_twoThreads)
  obtain ⟨hnil, htrue⟩ := Prod.mk.inj hs
  exact ⟨s, hr, by simp [hnil], htrue⟩

end TimerManager

end Easy.Base
