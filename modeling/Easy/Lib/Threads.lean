import Easy.Lib.Lts
import Easy.Lib.Count
import Mathlib.Logic.Function.Basic

/-!
Threads over shared memory, in any interleaving.

A thread acts on the shared state and on a local state of its own, which
includes where it is in its program; `act` says how. A step of the system is an
action of one thread, so a property of all runs reduces to what one action does.
The rules here are for the usual shapes: a property of each thread and the
shared state that no action of another thread disturbs, a shared counter that
counts the threads in some part of their program, and a duty that some thread
has to have as long as there is one it is owed to.
-/

namespace Easy.Lib

/-- Threads `ι` with local states `π` over a shared state `γ`. An action that
is not enabled yields `none`. -/
structure Threads (ι γ π α : Type*) where
  init : γ → (ι → π) → Prop
  act : ι → γ → π → α → Option (γ × π)

namespace Threads

/-- The state of a system of threads. -/
structure State (ι γ π : Type*) where
  shared : γ
  pc : ι → π

variable {ι γ π α : Type*} [DecidableEq ι] (T : Threads ι γ π α)

/-- The interleavings of all threads. -/
def lts : Lts (State ι γ π) (ι × α) where
  init s := T.init s.shared s.pc
  step s l := (T.act l.1 s.shared (s.pc l.1) l.2).map fun r =>
    ⟨r.1, Function.update s.pc l.1 r.2⟩

variable {T}

/-- A step of the system is an action of one thread. -/
theorem step_eq_some {s s' : State ι γ π} {l : ι × α} :
    T.lts.step s l = some s' ↔ ∃ g p, T.act l.1 s.shared (s.pc l.1) l.2 = some (g, p) ∧
      s' = ⟨g, Function.update s.pc l.1 p⟩ := by
  simp [lts, eq_comm]

/-- **Thread-local invariants.** A property of one thread and the shared state
holds of every thread of every reachable state if the thread's own actions keep
it and the actions of the others do not disturb it. -/
theorem local_invariant {J : ι → γ → π → Prop} (hinit : ∀ g pc, T.init g pc → ∀ i, J i g (pc i))
    (hself : ∀ i g p a g' p', T.act i g p a = some (g', p') → J i g p → J i g' p')
    (hother : ∀ i j g p a g' p' q, T.act i g p a = some (g', p') → i ≠ j → J i g p → J j g q →
      J j g' q)
    {s : State ι γ π} (h : T.lts.Reachable s) : ∀ i, J i s.shared (s.pc i) := by
  refine h.invariant (I := fun s => ∀ i, J i s.shared (s.pc i)) (fun s hs => hinit _ _ hs) ?_
  intro s l s' hstep hJ j
  obtain ⟨g, p, hact, rfl⟩ := step_eq_some.mp hstep
  by_cases hj : j = l.1
  · subst hj
    simpa using hself _ _ _ _ _ _ hact (hJ _)
  · simpa [hj] using hother _ j _ _ _ _ _ _ hact (Ne.symm hj) (hJ _) (hJ j)

/-- **Counting invariants.** A shared counter that an action changes by as much as
it moves its thread in or out of `w` counts the threads in `w`. -/
theorem count_invariant [Fintype ι] {c : γ → ℤ} {w : π → Bool}
    (hinit : ∀ g pc, T.init g pc → c g = 0 ∧ ∀ i, w (pc i) = false)
    (hact : ∀ i g p a g' p', T.act i g p a = some (g', p') →
      c g' - c g = (w p').toInt - (w p).toInt)
    {s : State ι γ π} (h : T.lts.Reachable s) : c s.shared = count w s.pc := by
  refine h.invariant (I := fun s => c s.shared = count w s.pc) (fun s hs => ?_) ?_
  · obtain ⟨hc, hw⟩ := hinit _ _ hs
    rw [hc, count_eq_zero_iff.mpr hw]
  · intro s l s' hstep hI
    obtain ⟨g, p, ha, rfl⟩ := step_eq_some.mp hstep
    have := hact _ _ _ _ _ _ ha
    simp only [count_update]
    omega

section Covers

variable {up down : π → Bool} {pc : ι → π} {i : ι} {p : π}

/-- Some thread is up, or no thread is down. -/
def Covers (up down : π → Bool) (pc : ι → π) : Prop := (∃ j, up (pc j)) ∨ ∀ j, ¬ down (pc j)

/-- Some thread other than `i` is up, or no thread is down. -/
def CoversBut (up down : π → Bool) (pc : ι → π) (i : ι) : Prop :=
  (∃ j, j ≠ i ∧ up (pc j)) ∨ ∀ j, ¬ down (pc j)

instance [Fintype ι] : Decidable (CoversBut up down pc i) := inferInstanceAs (Decidable (_ ∨ _))

omit [DecidableEq ι] in
theorem Covers.but (h : Covers up down pc) (hi : up (pc i) = false) : CoversBut up down pc i := by
  rcases h with ⟨j, hj⟩ | h
  · refine .inl ⟨j, ?_, hj⟩
    rintro rfl
    simp [hi] at hj
  · exact .inr h

theorem covers_update (h : up p) : Covers up down (Function.update pc i p) :=
  .inl ⟨i, by simpa using h⟩

/-- A thread that does not go down leaves the others to cover. -/
theorem CoversBut.update (h : CoversBut up down pc i) (hp : down p ≤ down (pc i)) :
    Covers up down (Function.update pc i p) := by
  rcases h with ⟨j, hj, hup⟩ | h
  · exact .inl ⟨j, by simpa [hj] using hup⟩
  · refine .inr fun j => ?_
    by_cases hj : j = i
    · subst hj
      simpa using fun hd => h j (Bool.le_iff_imp.mp hp hd)
    · simpa [hj] using h j

end Covers

end Threads

end Easy.Lib
