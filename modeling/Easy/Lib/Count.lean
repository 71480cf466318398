import Mathlib.Algebra.BigOperators.Group.Finset.Piecewise
import Mathlib.Algebra.Order.BigOperators.Group.Finset
import Mathlib.Data.Fintype.BigOperators
import Mathlib.Tactic.Abel

/-!
Sums over a finite family whose members change one at a time, and the number of
members with a property.
-/

namespace Easy.Lib

variable {ι α : Type*} [Fintype ι]

/-- Changing one member changes the sum by the difference of its weights. -/
theorem sum_update [DecidableEq ι] (w : α → ℤ) (f : ι → α) (i : ι) (a : α) :
    ∑ j, w (Function.update f i a j) = ∑ j, w (f j) + (w a - w (f i)) := by
  have hsum : ∑ j, w (Function.update f i a j) =
      ∑ j, Function.update (fun j => w (f j)) i (w a) j :=
    Finset.sum_congr rfl fun j _ => by
      by_cases h : j = i
      · subst h
        simp
      · simp [h]
  rw [hsum, Finset.sum_update_of_mem (Finset.mem_univ i), ← Finset.add_sum_erase _ _
    (Finset.mem_univ i), Finset.sdiff_singleton_eq_erase]
  abel

/-- How many members of the family satisfy `p`. -/
def count (p : α → Bool) (f : ι → α) : ℤ := ∑ j, (p (f j)).toInt

theorem count_update [DecidableEq ι] (p : α → Bool) (f : ι → α) (i : ι) (a : α) :
    count p (Function.update f i a) = count p f + ((p a).toInt - (p (f i)).toInt) :=
  sum_update (fun a => (p a).toInt) f i a

theorem toInt_nonneg (b : Bool) : 0 ≤ b.toInt := by
  cases b <;> decide

theorem count_nonneg (p : α → Bool) (f : ι → α) : 0 ≤ count p f :=
  Finset.sum_nonneg fun _ _ => toInt_nonneg _

theorem count_eq_zero_iff {p : α → Bool} {f : ι → α} : count p f = 0 ↔ ∀ i, p (f i) = false := by
  rw [count, Finset.sum_eq_zero_iff_of_nonneg fun _ _ => toInt_nonneg _]
  refine ⟨fun h i => ?_, fun h i _ => by rw [h i]; rfl⟩
  have := h i (Finset.mem_univ i)
  cases hp : p (f i)
  · rfl
  · simp [hp] at this

end Easy.Lib
