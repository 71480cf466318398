import Easy.Lib.Lts

/-!
Forward simulations between transition systems.

A guarded step of the concrete system is matched by a list of labels of the
abstract one, which may be empty; `acts` says which. What the abstract system
promises of its runs is then promised of every guarded run of the concrete one.
-/

namespace Easy.Lib

variable {σ α τ β : Type*}

/-- A forward simulation of the guarded steps of `T` by runs of `A`. -/
structure Simulation (T : Lts σ α) (G : σ → α → Prop) (A : Lts τ β) where
  rel : σ → τ → Prop
  acts : σ → α → List β
  init : ∀ s, T.init s → ∃ t, A.init t ∧ rel s t
  step : ∀ s x s' t, rel s t → G s x → T.step s x = some s' →
    ∃ t', A.run t (acts s x) = some t' ∧ rel s' t'

namespace Simulation

variable {T : Lts σ α} {G : σ → α → Prop} {A : Lts τ β} (S : Simulation T G A)

/-- The labels that match a run. -/
def trace : σ → List α → List β
  | _, [] => []
  | s, x :: xs => S.acts s x ++ match T.step s x with
    | some s' => trace s' xs
    | none => []

/-- **Simulation of runs.** -/
theorem run {s s' : σ} {t : τ} {xs : List α} (h : S.rel s t) (hm : T.Meets G s xs)
    (hrun : T.run s xs = some s') : ∃ t', A.run t (S.trace s xs) = some t' ∧ S.rel s' t' := by
  induction xs generalizing s t with
  | nil => exact ⟨t, rfl, Option.some.inj hrun ▸ h⟩
  | cons x xs ih =>
      obtain ⟨s₁, hstep, hrest⟩ := Option.bind_eq_some_iff.mp hrun
      obtain ⟨hg, hm⟩ := hm s₁ hstep
      obtain ⟨t₁, ht₁, hrel₁⟩ := S.step s x s₁ t h hg hstep
      obtain ⟨t', ht', hrel'⟩ := ih hrel₁ hm hrest
      refine ⟨t', ?_, hrel'⟩
      simpa only [trace, hstep] using Lts.run_append ht₁ ht'

/-- Every state of a guarded run is related to a reachable one. -/
theorem exists_rel {s : σ} (h : T.Guarded G s) : ∃ t, A.Reachable t ∧ S.rel s t := by
  induction h with
  | init h =>
      obtain ⟨t, ht, hrel⟩ := S.init _ h
      exact ⟨t, .init ht, hrel⟩
  | step _ hg hstep ih =>
      obtain ⟨t, ht, hrel⟩ := ih
      obtain ⟨t', ht', hrel'⟩ := S.step _ _ _ t hrel hg hstep
      exact ⟨t', ht.of_run ht', hrel'⟩

end Simulation

end Easy.Lib
