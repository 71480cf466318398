import Mathlib.Algebra.Order.Ring.Nat

/-!
Numbers in text: decimal digits with zeros in front, and hexadecimal digits.
-/

namespace Easy.Lib.Digits

/-- Digits with zeros in front, of a width at least. -/
def pad (w : ℕ) (ds : List Char) : List Char := List.replicate (w - ds.length) '0' ++ ds

variable {w n : ℕ} {ds : List Char}

theorem length_pad (h : ds.length ≤ w) : (pad w ds).length = w := by
  rw [pad, List.length_append, List.length_replicate]
  omega

theorem isDigit_of_mem_pad (h : ∀ c ∈ ds, c.isDigit) {c : Char} (hc : c ∈ pad w ds) :
    c.isDigit := by
  rcases List.mem_append.mp hc with hzero | hmem
  · rw [List.eq_of_mem_replicate hzero]
    rfl
  · exact h c hmem

theorem ofDigitChars_pad : Nat.ofDigitChars 10 (pad w ds) 0 = Nat.ofDigitChars 10 ds 0 := by
  rw [pad, Nat.ofDigitChars_append, Nat.ofDigitChars_replicate_zero, Nat.mul_zero]

/-- A number below a power of ten in that many digits. -/
theorem length_pad_toDigits (hw : 0 < w) (hn : n < 10 ^ w) :
    (pad w (Nat.toDigits 10 n)).length = w :=
  length_pad ((Nat.length_toDigits_le_iff (by decide) hw).mpr hn)

theorem isDigit_of_mem_pad_toDigits {c : Char} (hc : c ∈ pad w (Nat.toDigits 10 n)) : c.isDigit :=
  isDigit_of_mem_pad (fun _ => Nat.isDigit_of_mem_toDigits (by decide) (by decide)) hc

/-! ### Hexadecimal digits -/

def hexDigits : List Char := "0123456789abcdef".toList

/-- The value of a digit, in upper or lower case. -/
def hexDigitValue (c : Char) : ℕ := if c.isDigit then c.toNat - 48 else c.toLower.toNat - 87

def hexValue (ds : List Char) : ℕ := ds.foldl (fun n c => 16 * n + hexDigitValue c) 0

theorem hexDigitValue_digitChar :
    ∀ d < 16, hexDigitValue d.digitChar = d ∧ d.digitChar ∈ hexDigits := by
  decide

/-- **Numbers in hexadecimal digits** have lower case digits, and the number as their value. -/
theorem hexValue_toDigits (n : ℕ) :
    hexValue (Nat.toDigits 16 n) = n ∧ ∀ c ∈ Nat.toDigits 16 n, c ∈ hexDigits := by
  induction n using Nat.strong_induction_on with
  | _ n ih =>
      rw [Nat.toDigits_eq_if (by decide)]
      split
      case isTrue hlt =>
        obtain ⟨hvalue, hmem⟩ := hexDigitValue_digitChar n hlt
        refine ⟨?_, fun c hc => List.mem_singleton.mp hc ▸ hmem⟩
        rw [hexValue, List.foldl_cons, List.foldl_nil, hvalue]
        omega
      case isFalse hge =>
        obtain ⟨hvalue, hmem⟩ := hexDigitValue_digitChar (n % 16) (Nat.mod_lt n (by decide))
        obtain ⟨hrest, hdigits⟩ := ih (n / 16) (by omega)
        constructor
        · rw [hexValue] at hrest ⊢
          rw [List.foldl_append, hrest, List.foldl_cons, List.foldl_nil, hvalue]
          omega
        · intro c hc
          rcases List.mem_append.mp hc with hc | hc
          · exact hdigits c hc
          · exact List.mem_singleton.mp hc ▸ hmem

end Easy.Lib.Digits
