import Mathlib.Order.Defs.PartialOrder

/-!
Transition systems with a partial step function, and the two shapes in which
a property of their runs is proved.

`Reachable` and `Guarded` collect states: those of all runs, and those of the
runs whose every step meets a side condition. Each comes with one induction
rule, so that a safety proof is what one step preserves and nothing else.

`Along` and `Meets` speak about one run. `Guarded.along` turns an invariant of
the guarded runs into a property of each of them. `along_iff_meets` is the rule
for a property that is kept by exactly the steps meeting a condition: it then
holds along a run if and only if every step of the run meets the condition.
`along_iff_meets_among` is the same among the runs that meet another condition.
-/

namespace Easy.Lib

/-- A transition system: where a run may start, and what one label does. A
label that is not enabled yields `none`. -/
structure Lts (σ α : Type*) where
  init : σ → Prop
  step : σ → α → Option σ

namespace Lts

variable {σ α : Type*} (T : Lts σ α)

/-- The state after a list of labels, if each was enabled in its turn. -/
def run : σ → List α → Option σ
  | s, [] => some s
  | s, a :: as => (T.step s a).bind fun s' => run s' as

/-- The states of all runs. -/
inductive Reachable : σ → Prop
  | init {s : σ} (h : T.init s) : Reachable s
  | step {s s' : σ} {a : α} (hr : Reachable s) (h : T.step s a = some s') : Reachable s'

/-- The states of the runs all of whose steps meet `G`. -/
inductive Guarded (G : σ → α → Prop) : σ → Prop
  | init {s : σ} (h : T.init s) : Guarded G s
  | step {s s' : σ} {a : α} (hr : Guarded G s) (hg : G s a) (h : T.step s a = some s') :
      Guarded G s'

variable {T}

theorem Guarded.reachable {G : σ → α → Prop} {s : σ} (h : T.Guarded G s) : T.Reachable s := by
  induction h with
  | init h => exact .init h
  | step _ _ h ih => exact .step ih h

/-- **Invariants.** What holds where runs start and is kept by every step
holds of every reachable state. -/
theorem Reachable.invariant {I : σ → Prop} (hinit : ∀ s, T.init s → I s)
    (hstep : ∀ s a s', T.step s a = some s' → I s → I s') {s : σ} (h : T.Reachable s) : I s := by
  induction h with
  | init h => exact hinit _ h
  | step _ h ih => exact hstep _ _ _ h ih

/-- **Guarded invariants.** A step need keep the invariant only where it
meets the side condition, and may use that its source is reachable. -/
theorem Guarded.invariant {G : σ → α → Prop} {I : σ → Prop} (hinit : ∀ s, T.init s → I s)
    (hstep : ∀ s a s', T.Reachable s → G s a → T.step s a = some s' → I s → I s')
    {s : σ} (h : T.Guarded G s) : I s := by
  induction h with
  | init h => exact hinit _ h
  | step hr hg h ih => exact hstep _ _ _ hr.reachable hg h ih

theorem Reachable.of_run {s s' : σ} {as : List α} (hr : T.Reachable s)
    (h : T.run s as = some s') : T.Reachable s' := by
  induction as generalizing s with
  | nil =>
      simp only [run, Option.some.injEq] at h
      exact h ▸ hr
  | cons a as ih =>
      obtain ⟨s₁, h₁, h₂⟩ := Option.bind_eq_some_iff.mp h
      exact ih (.step hr h₁) h₂

/-- A run from the end of another one goes on with it. -/
theorem run_append {s s' s'' : σ} {as bs : List α} (h : T.run s as = some s')
    (h' : T.run s' bs = some s'') : T.run s (as ++ bs) = some s'' := by
  induction as generalizing s with
  | nil =>
      obtain rfl := Option.some.inj h
      exact h'
  | cons a as ih =>
      obtain ⟨s₁, h₁, h₂⟩ := Option.bind_eq_some_iff.mp h
      exact Option.bind_eq_some_iff.mpr ⟨s₁, h₁, ih h₂⟩

/-- **Runs.** A preorder that relates the states of each step relates those of each run. -/
theorem rel_of_run {R : σ → σ → Prop} (hrefl : ∀ s, R s s)
    (htrans : ∀ s₁ s₂ s₃, R s₁ s₂ → R s₂ s₃ → R s₁ s₃)
    (hstep : ∀ s a s', T.step s a = some s' → R s s') {s s' : σ} {as : List α}
    (h : T.run s as = some s') : R s s' := by
  induction as generalizing s with
  | nil => exact Option.some.inj h ▸ hrefl s
  | cons a as ih =>
      obtain ⟨s₁, h₁, h₂⟩ := Option.bind_eq_some_iff.mp h
      exact htrans s s₁ s' (hstep s a s₁ h₁) (ih h₂)

/-- A reachable state, by what the last state of a run shows. -/
theorem Reachable.of_map_run {β : Type*} {f : σ → β} {b : β} {s : σ} {as : List α}
    (h : (T.run s as).map f = some b) (hr : T.Reachable s) : ∃ s', T.Reachable s' ∧ f s' = b := by
  obtain ⟨s', hs', hb⟩ := Option.map_eq_some_iff.mp h
  exact ⟨s', hr.of_run hs', hb⟩

variable (T)

/-- `P` holds in every state the run from `s` visits, its first one included. -/
def Along (P : σ → Prop) : σ → List α → Prop
  | s, [] => P s
  | s, a :: as => P s ∧ ∀ s', T.step s a = some s' → Along P s' as

/-- Every step the run from `s` takes meets `G`. -/
def Meets (G : σ → α → Prop) : σ → List α → Prop
  | _, [] => True
  | s, a :: as => ∀ s', T.step s a = some s' → G s a ∧ Meets G s' as

variable {T}

theorem meets_cons_iff {G : σ → α → Prop} {s : σ} {a : α} {as : List α} :
    T.Meets G s (a :: as) ↔ ∀ s' ∈ T.step s a, G s a ∧ T.Meets G s' as := Iff.rfl

/-- Conditions that agree on the steps from reachable states. -/
theorem Reachable.meets_congr {G G' : σ → α → Prop}
    (hG : ∀ s a s', T.Reachable s → T.step s a = some s' → (G s a ↔ G' s a)) {s : σ}
    (hs : T.Reachable s) (as : List α) : T.Meets G s as ↔ T.Meets G' s as := by
  induction as generalizing s with
  | nil => exact Iff.rfl
  | cons a as ih =>
      refine forall_congr' fun s' => forall_congr' fun hstep => ?_
      exact and_congr (hG s a s' hs hstep) (ih (hs.step hstep))

instance decidableMeets (G : σ → α → Prop) [∀ s a, Decidable (G s a)] :
    ∀ s as, Decidable (T.Meets G s as)
  | _, [] => inferInstanceAs (Decidable True)
  | s, a :: as =>
    have := fun s' => decidableMeets G s' as
    decidable_of_iff (∀ s' ∈ T.step s a, G s a ∧ T.Meets G s' as) meets_cons_iff.symm

theorem along_cons_iff {P : σ → Prop} {s : σ} {a : α} {as : List α} :
    T.Along P s (a :: as) ↔ P s ∧ ∀ s' ∈ T.step s a, T.Along P s' as := Iff.rfl

instance decidableAlong (P : σ → Prop) [DecidablePred P] : ∀ s as, Decidable (T.Along P s as)
  | s, [] => inferInstanceAs (Decidable (P s))
  | s, a :: as =>
    have := fun s' => decidableAlong P s' as
    decidable_of_iff (P s ∧ ∀ s' ∈ T.step s a, T.Along P s' as) along_cons_iff.symm

theorem Along.head {P : σ → Prop} {s : σ} {as : List α} (h : T.Along P s as) : P s := by
  cases as with
  | nil => exact h
  | cons a as => exact h.1

/-- **Sufficient conditions.** What holds in the states of the runs all of whose
steps meet `G` holds along each of them. -/
theorem Guarded.along {P : σ → Prop} {G : σ → α → Prop} (hP : ∀ s, T.Guarded G s → P s) {s : σ}
    (hs : T.Guarded G s) {as : List α} (h : T.Meets G s as) : T.Along P s as := by
  induction as generalizing s with
  | nil => exact hP s hs
  | cons a as ih =>
      refine ⟨hP s hs, fun s' hstep => ?_⟩
      obtain ⟨hg, hm⟩ := h s' hstep
      exact ih (hs.step hg hstep) hm

/-- A run whose steps meet `G` ends in a state of such runs. -/
theorem Guarded.of_run {G : σ → α → Prop} {s s' : σ} {as : List α} (hs : T.Guarded G s)
    (hm : T.Meets G s as) (h : T.run s as = some s') : T.Guarded G s' := by
  induction as generalizing s with
  | nil => exact Option.some.inj h ▸ hs
  | cons a as ih =>
      obtain ⟨s₁, h₁, h₂⟩ := Option.bind_eq_some_iff.mp h
      obtain ⟨hg, hm⟩ := hm s₁ h₁
      exact ih (hs.step hg h₁) hm h₂

/-- **Exact conditions, in the runs that meet `K`.** If, from the states satisfying `P`, the
steps meeting `K` that keep `P` are exactly those that meet `G`, then `P` holds along a run
that meets `K` if and only if every step of the run meets `G`. -/
theorem along_iff_meets_among {P I : σ → Prop} {K G : σ → α → Prop}
    (hI : ∀ s a s', T.step s a = some s' → K s a → I s → P s → I s')
    (hP : ∀ s a s', T.step s a = some s' → K s a → I s → P s → (P s' ↔ G s a))
    {s : σ} (hs : I s) (hps : P s) {as : List α} (hK : T.Meets K s as) :
    T.Along P s as ↔ T.Meets G s as := by
  induction as generalizing s with
  | nil => simp [Along, Meets, hps]
  | cons a as ih =>
      simp only [Along, Meets, hps, true_and]
      refine forall_congr' fun s' => forall_congr' fun h => ?_
      obtain ⟨hk, hK⟩ := hK s' h
      constructor
      · intro hal
        exact ⟨(hP s a s' h hk hs hps).mp hal.head,
          (ih (hI s a s' h hk hs hps) hal.head hK).mp hal⟩
      · rintro ⟨hg, hm⟩
        exact (ih (hI s a s' h hk hs hps) ((hP s a s' h hk hs hps).mpr hg) hK).mpr hm

theorem meets_true {s : σ} {as : List α} : T.Meets (fun _ _ => True) s as := by
  induction as generalizing s with
  | nil => trivial
  | cons a as ih => exact fun _ _ => ⟨trivial, ih⟩

/-- **Exact conditions.** If, from the states satisfying `P`, the steps that
keep `P` are exactly those that meet `G`, then `P` holds along a run if and
only if every step of the run meets `G`. -/
theorem along_iff_meets {P I : σ → Prop} {G : σ → α → Prop}
    (hI : ∀ s a s', T.step s a = some s' → I s → P s → I s')
    (hP : ∀ s a s', T.step s a = some s' → I s → P s → (P s' ↔ G s a))
    {s : σ} (hs : I s) (hps : P s) (as : List α) : T.Along P s as ↔ T.Meets G s as :=
  along_iff_meets_among (fun s a s' h _ => hI s a s' h) (fun s a s' h _ => hP s a s' h) hs hps
    meets_true

/-- **Exact conditions, within a run that keeps `K`.** Only steps between states of `K` need
keep the invariant or end outside `P`. -/
theorem along_iff_meets_within {K P J : σ → Prop} {G : σ → α → Prop} (hP : ∀ s, J s → P s)
    (hkeep : ∀ s a s', T.step s a = some s' → K s → J s → G s a → J s')
    (hbreak : ∀ s a s', T.step s a = some s' → K s → J s → ¬ G s a → ¬ P s')
    {s : σ} (hs : J s) {as : List α} (hK : T.Along K s as) : T.Along P s as ↔ T.Meets G s as := by
  induction as generalizing s with
  | nil => exact iff_of_true (hP s hs) trivial
  | cons a as ih =>
      constructor
      · intro hal s' hstep
        by_cases hg : G s a
        · exact ⟨hg, (ih (hkeep s a s' hstep hK.1 hs hg) (hK.2 s' hstep)).mp (hal.2 s' hstep)⟩
        · exact absurd (hal.2 s' hstep).head (hbreak s a s' hstep hK.1 hs hg)
      · intro hmeets
        refine ⟨hP s hs, fun s' hstep => ?_⟩
        obtain ⟨hg, hm⟩ := hmeets s' hstep
        exact (ih (hkeep s a s' hstep hK.1 hs hg) (hK.2 s' hstep)).mpr hm

theorem along_true {s : σ} {as : List α} : T.Along (fun _ => True) s as := by
  induction as generalizing s with
  | nil => trivial
  | cons a as ih => exact ⟨trivial, fun _ _ => ih⟩

/-- **Exact conditions, by an invariant.** If the steps that meet `G` keep an
invariant, which implies `P`, and every other step from it ends outside `P`, then
`P` holds along a run if and only if every step of the run meets `G`. -/
theorem along_iff_meets_of {P J : σ → Prop} {G : σ → α → Prop} (hP : ∀ s, J s → P s)
    (hkeep : ∀ s a s', T.step s a = some s' → J s → G s a → J s')
    (hbreak : ∀ s a s', T.step s a = some s' → J s → ¬ G s a → ¬ P s')
    {s : σ} (hs : J s) (as : List α) : T.Along P s as ↔ T.Meets G s as :=
  along_iff_meets_within hP (fun s a s' hstep _ => hkeep s a s' hstep)
    (fun s a s' hstep _ => hbreak s a s' hstep) hs along_true

end Lts

end Easy.Lib
