import Mathlib.Data.Nat.Bitwise
import Mathlib.Algebra.Order.Ring.Nat
import Mathlib.Tactic.Ring

/-!
Numbers as bytes: fixed widths, the least significant byte first, and what the
operations on machine words that take numbers apart do to the numbers.
-/

namespace Easy.Lib

/-- The `n` lowest bytes of a number, the least significant first. -/
def toLE : ℕ → ℕ → List UInt8
  | 0, _ => []
  | n + 1, x => UInt8.ofNat x :: toLE n (x / 256)

/-- The number whose bytes, the least significant first, are given. -/
def ofLE : List UInt8 → ℕ
  | [] => 0
  | b :: bs => b.toNat + 256 * ofLE bs

@[simp] theorem length_toLE (n x : ℕ) : (toLE n x).length = n := by
  induction n generalizing x with
  | zero => rfl
  | succ n ih => rw [toLE, List.length_cons, ih]

theorem ofLE_lt (bs : List UInt8) : ofLE bs < 256 ^ bs.length := by
  induction bs with
  | nil => simp [ofLE]
  | cons b bs ih =>
      have hb := b.toNat_lt
      rw [ofLE, List.length_cons, pow_succ]
      omega

theorem ofLE_toLE (n x : ℕ) : ofLE (toLE n x) = x % 256 ^ n := by
  induction n generalizing x with
  | zero => simp [toLE, ofLE, Nat.mod_one]
  | succ n ih =>
      have hbyte : (UInt8.ofNat x).toNat = x % 256 := UInt8.toNat_ofNat'
      rw [toLE, ofLE, ih, hbyte, pow_succ', Nat.mod_mul]

theorem toLE_ofLE (bs : List UInt8) : toLE bs.length (ofLE bs) = bs := by
  induction bs with
  | nil => rfl
  | cons b bs ih =>
      have hb := b.toNat_lt
      have hdiv : (b.toNat + 256 * ofLE bs) / 256 = ofLE bs := by omega
      have hbyte : UInt8.ofNat (b.toNat + 256 * ofLE bs) = b := by
        apply UInt8.toNat.inj
        rw [UInt8.toNat_ofNat']
        omega
      rw [List.length_cons, toLE, ofLE, hdiv, hbyte, ih]

/-- Byte `i` of a number. -/
theorem getElem?_toLE {n i : ℕ} (x : ℕ) (h : i < n) :
    (toLE n x)[i]? = some (UInt8.ofNat (x / 256 ^ i)) := by
  induction n generalizing i x with
  | zero => omega
  | succ n ih =>
      cases i with
      | zero => simp [toLE]
      | succ i =>
          rw [toLE, List.getElem?_cons_succ, ih _ (by omega), Nat.div_div_eq_div_mul, pow_succ']

/-! ### Bits -/

/-- Bit `i` of a number is one of byte `i / 8`. -/
theorem testBit_ofLE (bs : List UInt8) (i : ℕ) :
    (ofLE bs).testBit i = (bs.getD (i / 8) 0).toNat.testBit (i % 8) := by
  induction bs generalizing i with
  | nil => simp [ofLE]
  | cons b bs ih =>
      have hb : b.toNat < 2 ^ 8 := b.toNat_lt
      have hsum : ofLE (b :: bs) = 2 ^ 8 * ofLE bs + b.toNat := Nat.add_comm ..
      rw [hsum, Nat.testBit_two_pow_mul_add _ hb]
      split
      case isTrue hlt =>
        rw [Nat.div_eq_of_lt hlt, Nat.mod_eq_of_lt hlt, List.getD_cons_zero]
      case isFalse hge =>
        have hdiv : i / 8 = (i - 8) / 8 + 1 := by omega
        have hmod : i % 8 = (i - 8) % 8 := by omega
        rw [ih, hdiv, List.getD_cons_succ, hmod]

theorem testBit_toLE {n k j : ℕ} (x : ℕ) (hk : k < n) (hj : j < 8) :
    ((toLE n x).getD k 0).toNat.testBit j = x.testBit (8 * k + j) := by
  have hpow : 256 ^ k = 2 ^ (8 * k) := (pow_mul 2 8 k).symm
  have hbyte : (UInt8.ofNat (x / 256 ^ k)).toNat = x / 256 ^ k % 2 ^ 8 := UInt8.toNat_ofNat'
  rw [List.getD_eq_getElem?_getD, getElem?_toLE x hk, Option.getD_some, hbyte,
    Nat.testBit_mod_two_pow, hpow, Nat.testBit_div_two_pow]
  simp [hj, Nat.add_comm]

/-! ### Groups of seven bits -/

/-- The number whose groups of seven bits, the least significant first, are the lower parts
of bytes. -/
def ofGroups : List UInt8 → ℕ
  | [] => 0
  | b :: bs => b.toNat % 128 + 128 * ofGroups bs

theorem ofGroups_append (bs cs : List UInt8) :
    ofGroups (bs ++ cs) = ofGroups bs + 2 ^ (7 * bs.length) * ofGroups cs := by
  induction bs with
  | nil => simp [ofGroups]
  | cons b bs ih =>
      rw [List.cons_append, ofGroups, ofGroups, ih, List.length_cons, Nat.mul_succ, pow_add]
      ring

theorem ofGroups_lt (bs : List UInt8) : ofGroups bs < 2 ^ (7 * bs.length) := by
  induction bs with
  | nil => simp [ofGroups]
  | cons b bs ih =>
      have hb : b.toNat % 128 < 128 := Nat.mod_lt _ (by decide)
      have hpow : 2 ^ (7 * (b :: bs).length) = 128 * 2 ^ (7 * bs.length) := by
        rw [List.length_cons, Nat.mul_succ, pow_add, Nat.mul_comm]
        rfl
      rw [ofGroups, hpow]
      omega

end Easy.Lib
