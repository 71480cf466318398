import Mathlib.Algebra.Order.Ring.Nat

/-!
How many bits of a number are set.

A number and its predecessor have the bits above the lowest one in common, which is how they are
counted one by one.
-/

namespace Easy.Lib.Ones

variable {w n : ℕ}

/-- The number of ones among the `w` lowest bits. -/
def count (w n : ℕ) : ℕ := (List.range w).countP n.testBit

theorem count_succ (w n : ℕ) : count (w + 1) n = n % 2 + count w (n / 2) := by
  have htail : n.testBit ∘ Nat.succ = (n / 2).testBit := funext fun i => Nat.testBit_succ n i
  rw [count, List.range_succ_eq_map, List.countP_cons, List.countP_map, htail, ← count,
    Nat.testBit_zero]
  rcases Nat.mod_two_eq_zero_or_one n with hn | hn
  · simp [hn]
  · simp [hn, Nat.add_comm]

@[simp] theorem count_zero (w : ℕ) : count w 0 = 0 := by
  simp [count]

theorem count_le (w n : ℕ) : count w n ≤ w := by
  simpa [count] using List.countP_le_length (p := n.testBit) (l := List.range w)

/-- **The lowest one** is not a bit of the predecessor. -/
theorem count_and_pred (hn : n ≠ 0) (hlt : n < 2 ^ w) :
    count w (n &&& (n - 1)) + 1 = count w n := by
  induction w generalizing n with
  | zero => exact absurd (Nat.lt_one_iff.mp hlt) hn
  | succ w ih =>
      have hdiv : (n &&& (n - 1)) / 2 = n / 2 &&& (n - 1) / 2 := Nat.and_div_two
      have hmod : (n &&& (n - 1)) % 2 = 0 := by
        have hone := Nat.and_mod_two_eq_one (a := n) (b := n - 1)
        omega
      rw [count_succ, count_succ, hdiv, hmod]
      rcases Nat.mod_two_eq_zero_or_one n with heven | hodd
      · have hpred : (n - 1) / 2 = n / 2 - 1 := by omega
        have hrec := ih (n := n / 2) (by omega) (by omega)
        rw [hpred, heven]
        omega
      · have hpred : (n - 1) / 2 = n / 2 := by omega
        rw [hpred, Nat.and_self, hodd]
        omega

/-- A number of leading ones. -/
theorem countP_lt {p : ℕ} (hp : p ≤ w) : (List.range w).countP (fun j => decide (j < p)) = p := by
  induction w with
  | zero =>
      obtain rfl := Nat.le_zero.mp hp
      rfl
  | succ w ih =>
      rw [List.range_succ, List.countP_append, List.countP_singleton]
      by_cases hw : p ≤ w
      · rw [ih hw, decide_eq_false (Nat.not_lt.mpr hw)]
        rfl
      · obtain rfl : p = w + 1 := by omega
        have hall : (List.range w).countP (fun j => decide (j < w + 1)) = w := by
          rw [List.countP_eq_length.mpr, List.length_range]
          intro j hj
          have hj := List.mem_range.mp hj
          simpa using Nat.lt_succ_of_lt hj
        rw [hall]
        simp

end Easy.Lib.Ones
