import Easy.Net.RoundTrip
import Mathlib.Algebra.Order.Ring.Int

/-!
The signed arithmetic in `EncodeZigzag32` and `EncodeZigzag64`.

The negation and the doubling are done in the signed type, where the behaviour is undefined if the
value is not one of the type. The negation has the one value that has no opposite against it, the
doubling the upper half of the numbers that are not negative, although the result that is cast to
is the right one for all of them.
-/

namespace Easy.Net

variable {w : ℕ}

/-- The number is a value of the signed type. -/
def Representable (w : ℕ) (x : ℤ) : Prop := -2 ^ (w - 1) ≤ x ∧ x < 2 ^ (w - 1)

instance (w : ℕ) (x : ℤ) : Decidable (Representable w x) := inferInstanceAs (Decidable (_ ∧ _))

/-- `-v`, if that is defined -/
def signedNeg (v : BitVec w) : Option (BitVec w) :=
  if Representable w (-v.toInt) then some (-v) else none

/-- `v * 2`, if that is defined -/
def signedDouble (v : BitVec w) : Option (BitVec w) :=
  if Representable w (v.toInt * 2) then some (v * 2) else none

/-- `EncodeZigzag32` and `EncodeZigzag64`, where their behaviour is defined. -/
def encodeZigzagSigned (v : BitVec w) : Option (BitVec w) :=
  if v.slt 0 then (signedNeg v).map fun n => n * 2 - 1 else signedDouble v

def writeInt32Signed (value : BitVec 32) : Option (List UInt8) :=
  (encodeZigzagSigned value).map writeUint32

def writeInt64Signed (value : BitVec 64) : Option (List UInt8) :=
  (encodeZigzagSigned value).map writeUint64

/-- What is computed in the signed type is representable, and the result is the number whose
zigzag code it should be. -/
structure ZigzagDefined (v : BitVec w) : Prop where
  neg : v.toInt < 0 → Representable w (-v.toInt)
  double : 0 ≤ v.toInt → Representable w (v.toInt * 2)
  result : ∃ r, encodeZigzagSigned v = some r ∧
    (r.toNat : ℤ) = if 0 ≤ v.toInt then 2 * v.toInt else -2 * v.toInt - 1

theorem slt_zero_iff (v : BitVec w) : v.slt 0 = true ↔ v.toInt < 0 := by
  simp [BitVec.slt]

/-- **The code** of a number, with the arithmetic of the unsigned type throughout. -/
theorem toNat_encodeZigzag (v : BitVec w) :
    ((encodeZigzag v).toNat : ℤ) = if 0 ≤ v.toInt then 2 * v.toInt else -2 * v.toInt - 1 := by
  have hlt := v.isLt
  have hshift : (v <<< 1).toNat = v.toNat * 2 % 2 ^ w := by
    rw [BitVec.toNat_shiftLeft, Nat.shiftLeft_eq, pow_one]
  rw [encodeZigzag_eq]
  cases hmsb : v.msb with
  | false =>
      have hsmall : 2 * v.toNat < 2 ^ w := BitVec.msb_eq_false_iff_two_mul_lt.mp hmsb
      have hint : v.toInt = v.toNat := BitVec.toInt_eq_toNat_of_msb hmsb
      rw [if_neg Bool.false_ne_true, hshift, Nat.mod_eq_of_lt (by omega), hint, if_pos (by omega)]
      omega
  | true =>
      have hlarge : 2 ^ w ≤ 2 * v.toNat := BitVec.msb_eq_true_iff_two_mul_ge.mp hmsb
      have hint : v.toInt = (v.toNat : ℤ) - (2 ^ w : ℕ) := by
        rw [BitVec.toInt_eq_toNat_cond, if_neg (by omega)]
      have hmod : v.toNat * 2 % 2 ^ w = v.toNat * 2 - 2 ^ w := by
        rw [Nat.mod_eq_sub_mod (by omega), Nat.mod_eq_of_lt (by omega)]
      rw [if_pos rfl, BitVec.toNat_not, hshift, hmod, hint, if_neg (by omega)]
      omega

/-- Where it is defined, the code is the one that wraps around. -/
theorem encodeZigzagSigned_eq {v : BitVec w} (hneg : v.toInt < 0 → Representable w (-v.toInt))
    (hdouble : 0 ≤ v.toInt → Representable w (v.toInt * 2)) :
    encodeZigzagSigned v = some (encodeZigzag v) := by
  unfold encodeZigzagSigned encodeZigzag
  split
  case isTrue h =>
    rw [signedNeg, if_pos (hneg ((slt_zero_iff v).mp h))]
    rfl
  case isFalse h =>
    rw [signedDouble, if_pos (hdouble (Int.not_lt.mp fun hlt => h ((slt_zero_iff v).mpr hlt)))]

/-- The two operations are defined for the numbers that are not the least one, and below a quarter
of the range. -/
theorem representable_iff (hw : 2 ≤ w) (v : BitVec w) :
    ((v.toInt < 0 → Representable w (-v.toInt)) ∧
        (0 ≤ v.toInt → Representable w (v.toInt * 2))) ↔
      -2 ^ (w - 1) < v.toInt ∧ v.toInt < 2 ^ (w - 2) := by
  have hhalf : (2 : ℤ) ^ (w - 1) = 2 * 2 ^ (w - 2) := by
    rw [← pow_succ', show w - 2 + 1 = w - 1 by omega]
  have hpos : (0 : ℤ) < 2 ^ (w - 2) := by positivity
  have hlow := v.le_toInt
  have hhigh : v.toInt < 2 ^ (w - 1) := BitVec.toInt_lt
  unfold Representable
  constructor
  · rintro ⟨hneg, hdouble⟩
    omega
  · rintro ⟨hleast, hquarter⟩
    exact ⟨fun _ => by omega, fun _ => by omega⟩

/-- **Zigzag codes** are defined under this condition. -/
theorem zigzagDefined_iff (hw : 2 ≤ w) (v : BitVec w) :
    ZigzagDefined v ↔ -2 ^ (w - 1) < v.toInt ∧ v.toInt < 2 ^ (w - 2) := by
  rw [← representable_iff hw]
  constructor
  · exact fun h => ⟨h.neg, h.double⟩
  · rintro ⟨hneg, hdouble⟩
    exact ⟨hneg, hdouble, encodeZigzag v, encodeZigzagSigned_eq hneg hdouble,
      toNat_encodeZigzag v⟩

/-- **`writeInt32` and `writeInt64`** are defined, with the codes they should have, for the numbers
that are not the least one and below a quarter of the range. -/
theorem writeInt_defined_iff (v : BitVec 32) (u : BitVec 64) :
    (ZigzagDefined v ∧ writeInt32Signed v = some (writeInt32 v) ↔
      -2 ^ 31 < v.toInt ∧ v.toInt < 2 ^ 30) ∧
    (ZigzagDefined u ∧ writeInt64Signed u = some (writeInt64 u) ↔
      -2 ^ 63 < u.toInt ∧ u.toInt < 2 ^ 62) := by
  constructor
  · refine Iff.trans ⟨And.left, fun h => ⟨h, ?_⟩⟩ (zigzagDefined_iff (by decide) v)
    rw [writeInt32Signed, encodeZigzagSigned_eq h.neg h.double]
    rfl
  · refine Iff.trans ⟨And.left, fun h => ⟨h, ?_⟩⟩ (zigzagDefined_iff (by decide) u)
    rw [writeInt64Signed, encodeZigzagSigned_eq h.neg h.double]
    rfl

/-- The double of a quarter of the range is not a value of the type, and neither is the opposite
of the least number. -/
theorem writeInt_defined_false : ¬(∀ v : BitVec 32, ZigzagDefined v) ∧
    ¬(∀ v : BitVec 64, ZigzagDefined v) := by
  constructor
  · intro h
    exact absurd ((h 0x40000000).double (by decide)) (by decide)
  · intro h
    exact absurd ((h (BitVec.intMin 64)).neg (by decide)) (by decide)

end Easy.Net
