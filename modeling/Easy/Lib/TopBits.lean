import Mathlib.Data.Bool.Basic
import Mathlib.Data.Nat.Notation

/-!
The upper part of a sequence of bits, the most significant one first.
-/

namespace Easy.Lib.TopBits

variable {p : ℕ} {f g : ℕ → Bool}

/-- The first `p` bits, with zeros behind them. -/
def keep (p : ℕ) (f : ℕ → Bool) : ℕ → Bool := fun j => decide (j < p) && f j

/-- The first `p` bits set. -/
def ones (p : ℕ) : ℕ → Bool := fun j => decide (j < p)

theorem keep_eq_and : keep p f = fun j => f j && ones p j := by
  funext j
  exact Bool.and_comm ..

/-- Two sequences agree in front if and only if their upper parts are the same. -/
theorem keep_eq_iff : keep p f = keep p g ↔ ∀ j < p, f j = g j := by
  constructor
  · intro h j hj
    have hj' := congrFun h j
    simpa [keep, hj] using hj'
  · intro h
    funext j
    by_cases hj : j < p
    · simp [keep, h j hj]
    · simp [keep, hj]

end Easy.Lib.TopBits
