import Easy.Lib.Lts
import Mathlib.Data.List.Nodup
import Mathlib.Logic.Function.Basic

/-!
Asymmetric coroutines on several threads.

Each thread has a stack of coroutines: the one on top runs, and each of the others
waits for the one above it, which it resumed. `point` is where the code of a
coroutine is, whether it runs, waits or is suspended. A thread may resume a
coroutine that is on no stack, and the coroutine on top may yield to the one below
it; either leaves the point of the coroutine it goes to as it was.

`Valid` says that no coroutine is in two places at once. `Waits.step` is what
resuming is for: the coroutine that waits does not move before it is on top
again, on the same thread. `point_of_step` is its counterpart for a coroutine
that is on no stack.
-/

namespace Easy.Lib

/-- Coroutines `φ` on threads `ι`, whose code is at points `π`. -/
structure Coroutines (ι φ π : Type*) where
  stack : ι → List φ
  point : φ → π

namespace Coroutines

variable {ι φ π : Type*}

/-- What may happen: the running coroutine moves, or goes to another one and
leaves its code at `p`, or a coroutine that is on no stack is set to start at `p`. -/
inductive Act (ι φ π : Type*)
  | move (i : ι) (p : π)
  | resume (i : ι) (f : φ) (p : π)
  | yield (i : ι) (p : π)
  | restart (f : φ) (p : π)

/-- On no stack. -/
def Idle (s : Coroutines ι φ π) (f : φ) : Prop := ∀ i, f ∉ s.stack i

/-- Running on thread `i`. -/
def Runs (s : Coroutines ι φ π) (i : ι) (f : φ) : Prop := (s.stack i).head? = some f

variable [DecidableEq ι] [DecidableEq φ]

open Classical in
/-- One action. -/
noncomputable def step (s : Coroutines ι φ π) : Act ι φ π → Option (Coroutines ι φ π)
  | .move i p =>
    match s.stack i with
    | f :: _ => some { s with point := Function.update s.point f p }
    | [] => none
  | .resume i f p =>
    match s.stack i with
    | g :: gs =>
      if s.Idle f then
        some ⟨Function.update s.stack i (f :: g :: gs), Function.update s.point g p⟩
      else none
    | [] => none
  | .yield i p =>
    match s.stack i with
    | f :: g :: gs => some ⟨Function.update s.stack i (g :: gs), Function.update s.point f p⟩
    | _ => none
  | .restart f p =>
    if s.Idle f then some { s with point := Function.update s.point f p } else none

/-- All interleavings, from threads that each run a coroutine of their own. -/
noncomputable def lts (root : ι → φ) : Lts (Coroutines ι φ π) (Act ι φ π) where
  init s := s.stack = fun i => [root i]
  step := step

/-- What one action does. -/
theorem step_cases {s s' : Coroutines ι φ π} {a : Act ι φ π} (h : s.step a = some s') :
    (∃ i p f fs, a = .move i p ∧ s.stack i = f :: fs ∧
        s' = { s with point := Function.update s.point f p }) ∨
      (∃ i f p g gs, a = .resume i f p ∧ s.stack i = g :: gs ∧ s.Idle f ∧
        s' = ⟨Function.update s.stack i (f :: g :: gs), Function.update s.point g p⟩) ∨
      (∃ i p f g gs, a = .yield i p ∧ s.stack i = f :: g :: gs ∧
        s' = ⟨Function.update s.stack i (g :: gs), Function.update s.point f p⟩) ∨
      ∃ f p, a = .restart f p ∧ s.Idle f ∧
        s' = { s with point := Function.update s.point f p } := by
  cases a with
  | move i p =>
      simp only [step] at h
      split at h
      · rename_i f fs hi
        exact .inl ⟨i, p, f, fs, rfl, hi, (Option.some.inj h).symm⟩
      · cases h
  | resume i f p =>
      simp only [step] at h
      split at h
      · rename_i g gs hi
        split at h
        · exact .inr (.inl ⟨i, f, p, g, gs, rfl, hi, ‹_›, (Option.some.inj h).symm⟩)
        · cases h
      · cases h
  | yield i p =>
      simp only [step] at h
      split at h
      · rename_i f g gs hi
        exact .inr (.inr (.inl ⟨i, p, f, g, gs, rfl, hi, (Option.some.inj h).symm⟩))
      · cases h
  | restart f p =>
      simp only [step] at h
      split at h
      · exact .inr (.inr (.inr ⟨f, p, rfl, ‹_›, (Option.some.inj h).symm⟩))
      · cases h

/-- No coroutine is in two places, and each thread runs one. -/
structure Valid (s : Coroutines ι φ π) : Prop where
  nonempty : ∀ i, s.stack i ≠ []
  nodup : ∀ i, (s.stack i).Nodup
  disjoint : ∀ i j f, f ∈ s.stack i → f ∈ s.stack j → i = j

omit [DecidableEq ι] [DecidableEq φ] in
/-- A coroutine on one stack is none of those on another. -/
theorem Valid.ne_of_mem {s : Coroutines ι φ π} (hs : s.Valid) {i j : ι} {f g : φ}
    (hf : f ∈ s.stack i) (hj : j ≠ i) (hg : g ∈ s.stack j) : g ≠ f := by
  rintro rfl
  exact hj (hs.disjoint j i g hg hf)

omit [DecidableEq φ] in
/-- What does not run after one stack was replaced has run only if it was on top of that. -/
theorem not_runs_of_update {s : Coroutines ι φ π} {i : ι} {f g : φ} {fs l : List φ}
    {point : φ → π} (hi : s.stack i = f :: fs) (hg : g ≠ f)
    (hr : ∀ j, ¬Runs ⟨Function.update s.stack i l, point⟩ j g) (j : ι) : ¬s.Runs j g := by
  intro hj
  by_cases hji : j = i
  · subst hji
    have hfg : f = g := by simpa [Runs, hi] using hj
    exact hg hfg.symm
  · exact hr j (by simpa [Runs, hji] using hj)

omit [DecidableEq φ] in
/-- Stacks of which one is replaced by a list of coroutines that were on it or idle. -/
theorem Valid.update {s : Coroutines ι φ π} (hs : s.Valid) {i : ι} {l : List φ} (hne : l ≠ [])
    (hl : l.Nodup) (hfrom : ∀ f ∈ l, f ∈ s.stack i ∨ s.Idle f) (point : φ → π) :
    Valid ⟨Function.update s.stack i l, point⟩ where
  nonempty j := by
    by_cases hj : j = i
    · subst hj
      simpa using hne
    · simpa [hj] using hs.nonempty j
  nodup j := by
    by_cases hj : j = i
    · subst hj
      simpa using hl
    · simpa [hj] using hs.nodup j
  disjoint j k f hj hk := by
    -- another thread's coroutine is neither idle nor on the old stack
    have hother : ∀ m, m ≠ i → f ∈ l → f ∈ s.stack m → False := by
      intro m hm hf hfm
      rcases hfrom f hf with h | h
      · exact hm (hs.disjoint m i f hfm h)
      · exact h m hfm
    by_cases hji : j = i <;> by_cases hki : k = i
    · rw [hji, hki]
    · subst hji
      simp only [Function.update_self, Function.update_of_ne hki] at hj hk
      exact (hother k hki hj hk).elim
    · subst hki
      simp only [Function.update_self, Function.update_of_ne hji] at hj hk
      exact (hother j hji hk hj).elim
    · simp only [Function.update_of_ne hji, Function.update_of_ne hki] at hj hk
      exact hs.disjoint j k f hj hk

/-- **No coroutine** comes to be in two places. -/
theorem Valid.step {s s' : Coroutines ι φ π} {a : Act ι φ π} (hs : s.Valid)
    (h : s.step a = some s') : s'.Valid := by
  rcases step_cases h with ⟨i, p, f, fs, -, hi, rfl⟩ | ⟨i, f, p, g, gs, -, hi, hf, rfl⟩ |
    ⟨i, p, f, g, gs, -, hi, rfl⟩ | ⟨f, p, -, hf, rfl⟩
  · exact ⟨hs.nonempty, hs.nodup, hs.disjoint⟩
  · refine hs.update (by simp) ?_ ?_ _
    · exact List.nodup_cons.mpr ⟨hi ▸ hf i, hi ▸ hs.nodup i⟩
    · intro f' hf'
      rcases List.mem_cons.mp hf' with rfl | hf'
      · exact .inr hf
      · exact .inl (hi ▸ hf')
  · refine hs.update (by simp) ?_ ?_ _
    · exact (List.nodup_cons.mp (hi ▸ hs.nodup i)).2
    · intro f' hf'
      exact .inl (hi ▸ List.mem_cons_of_mem f hf')
  · exact ⟨hs.nonempty, hs.nodup, hs.disjoint⟩

/-- At the beginning each thread runs its own. -/
theorem valid_of_init {root : ι → φ} (hroot : Function.Injective root) {s : Coroutines ι φ π}
    (h : (lts (π := π) root).init s) : s.Valid := by
  have hstack : s.stack = fun i => [root i] := h
  refine ⟨by simp [hstack], by simp [hstack], fun i j f hi hj => hroot ?_⟩
  simp only [hstack, List.mem_singleton] at hi hj
  exact hi.symm.trans hj

/-! ### Who moves -/

/-- The code of a coroutine moves only if it runs, or is set to start anew
while it is on no stack. -/
theorem point_of_step {s s' : Coroutines ι φ π} {a : Act ι φ π} (h : s.step a = some s') (f : φ) :
    s'.point f = s.point f ∨ (∃ i, s.Runs i f) ∨ s.Idle f ∧ ∃ p, a = .restart f p := by
  rcases step_cases h with ⟨i, p, g, fs, -, hi, rfl⟩ | ⟨i, f', p, g, gs, -, hi, hf', rfl⟩ |
    ⟨i, p, g, g', gs, -, hi, rfl⟩ | ⟨g, p, rfl, hg, rfl⟩
  · by_cases hfg : f = g
    · exact .inr (.inl ⟨i, by simp [Runs, hi, hfg]⟩)
    · exact .inl (by simp [hfg])
  · by_cases hfg : f = g
    · exact .inr (.inl ⟨i, by simp [Runs, hi, hfg]⟩)
    · exact .inl (by simp [hfg])
  · by_cases hfg : f = g
    · exact .inr (.inl ⟨i, by simp [Runs, hi, hfg]⟩)
    · exact .inl (by simp [hfg])
  · by_cases hfg : f = g
    · subst hfg
      exact .inr (.inr ⟨hg, p, rfl⟩)
    · exact .inl (by simp [hfg])

/-- On thread `i`, `g` waits above `gs`, and will go on at `p`. -/
def Waits (s : Coroutines ι φ π) (i : ι) (g : φ) (gs : List φ) (p : π) : Prop :=
  (∃ l, l ≠ [] ∧ s.stack i = l ++ g :: gs) ∧ s.point g = p

omit [DecidableEq ι] [DecidableEq φ] in
theorem Waits.not_runs {s : Coroutines ι φ π} (hs : s.Valid) {i : ι} {g : φ} {gs : List φ} {p : π}
    (h : s.Waits i g gs p) (j : ι) : ¬ s.Runs j g := by
  obtain ⟨⟨l, hl, hi⟩, -⟩ := h
  intro hj
  obtain ⟨fs, hfs⟩ := List.head?_eq_some_iff.mp hj
  have hij : j = i := hs.disjoint j i g (by simp [hfs]) (by simp [hi])
  subst hij
  obtain ⟨f, l, rfl⟩ := List.exists_cons_of_ne_nil hl
  have hnodup := hs.nodup j
  rw [hi, List.cons_append] at hfs
  obtain ⟨rfl, -⟩ := List.cons.inj hfs
  rw [hi, List.cons_append, List.nodup_cons] at hnodup
  exact hnodup.1 (by simp)

/-- **A resume returns.** A coroutine that waits goes on waiting, or the one above
it yields and it runs again, on the same thread and at the point where it left. -/
theorem Waits.step {s s' : Coroutines ι φ π} {a : Act ι φ π} (hs : s.Valid) {i : ι} {g : φ}
    {gs : List φ} {p : π} (hw : s.Waits i g gs p) (h : s.step a = some s') :
    s'.Waits i g gs p ∨
      (∃ q, a = .yield i q) ∧ (∃ f, s.stack i = f :: g :: gs) ∧ s'.stack i = g :: gs ∧
        s'.point g = p := by
  have hidle : ¬ s.Idle g := fun hg => hg i (by obtain ⟨⟨l, -, hl⟩, -⟩ := hw; simp [hl])
  have hpoint : s'.point g = p := by
    rcases point_of_step h g with hpt | ⟨j, hj⟩ | ⟨hg, -⟩
    · exact hpt.trans hw.2
    · exact absurd hj (hw.not_runs hs j)
    · exact absurd hg hidle
  obtain ⟨⟨l, hne, hl⟩, -⟩ := hw
  obtain ⟨e, l, rfl⟩ := List.exists_cons_of_ne_nil hne
  have hsame : s'.stack i = s.stack i → s'.Waits i g gs p :=
    fun h => ⟨⟨e :: l, by simp, h.trans hl⟩, hpoint⟩
  rcases step_cases h with ⟨j, q, f, fs, -, hj, rfl⟩ | ⟨j, f, q, g', gs', -, hj, hf, rfl⟩ |
    ⟨j, q, f, g', gs', rfl, hj, rfl⟩ | ⟨f, q, -, hf, rfl⟩
  · exact .inl (hsame rfl)
  · by_cases hij : i = j
    · subst hij
      refine .inl ⟨⟨f :: e :: l, by simp, ?_⟩, hpoint⟩
      simp [← hj, hl]
    · exact .inl (hsame (by simp [hij]))
  · by_cases hij : i = j
    · subst hij
      have hl' := hl
      rw [hl, List.cons_append] at hj
      obtain ⟨rfl, hj⟩ := List.cons.inj hj
      cases l with
      | nil => exact .inr ⟨⟨q, rfl⟩, ⟨e, hl'⟩, by simpa using hj.symm, hpoint⟩
      | cons d l =>
          refine .inl ⟨⟨d :: l, by simp, ?_⟩, hpoint⟩
          simpa using hj.symm
    · exact .inl (hsame (by simp [hij]))
  · exact .inl (hsame rfl)

/-- **A suspended coroutine** stays as it is, or it is resumed and goes on at the
point where it left, or it is made to start anew. -/
theorem Idle.step {s s' : Coroutines ι φ π} {a : Act ι φ π} {g : φ} (hg : s.Idle g)
    (h : s.step a = some s') :
    (s'.Idle g ∨ (∃ i p, a = .resume i g p) ∧ ∃ i, s'.Runs i g) ∧ s'.point g = s.point g ∨
      ∃ p, a = .restart g p := by
  rcases step_cases h with ⟨i, p, f, fs, -, hi, rfl⟩ | ⟨i, f, p, g', gs, rfl, hi, hf, rfl⟩ |
    ⟨i, p, f, g', gs, -, hi, rfl⟩ | ⟨f, p, rfl, hf, rfl⟩
  · have hgf : g ≠ f := by
      rintro rfl
      exact hg i (by simp [hi])
    exact .inl ⟨.inl hg, by simp [hgf]⟩
  · have hgg : g ≠ g' := by
      rintro rfl
      exact hg i (by simp [hi])
    refine .inl ⟨?_, by simp [hgg]⟩
    by_cases hgf : g = f
    · subst hgf
      exact .inr ⟨⟨i, p, rfl⟩, i, by simp [Runs]⟩
    · refine .inl fun j hj => ?_
      by_cases hji : j = i
      · subst hji
        exact hg j (by simpa [hgf, hi] using hj)
      · exact hg j (by simpa [hji] using hj)
  · have hgf : g ≠ f := by
      rintro rfl
      exact hg i (by simp [hi])
    refine .inl ⟨.inl fun j hj => ?_, by simp [hgf]⟩
    by_cases hji : j = i
    · subst hji
      exact hg j (hi ▸ List.mem_cons_of_mem f (by simpa using hj))
    · exact hg j (by simpa [hji] using hj)
  · by_cases hgf : g = f
    · subst hgf
      exact .inr ⟨p, rfl⟩
    · exact .inl ⟨.inl hg, by simp [hgf]⟩

end Coroutines

end Easy.Lib
