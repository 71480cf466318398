import Easy.Net.ConstReads
import Easy.Net.Uses
import Mathlib.Data.List.Enum

/-!
`Buffer::toHexString`.

Each byte is put into the stream as a `char`, which the base of the stream says nothing about. It
is printed as it is, behind a zero that fills it up to the width.
-/

namespace Easy.Net

/-- What a `char` and a string are printed by, of a stream: not the base. -/
structure Ostream where
  str : List UInt8
  width : ℕ
  fill : UInt8
  deriving DecidableEq, Repr

namespace Ostream

/-- A new stream, which fills with blanks. -/
def make : Ostream := ⟨[], 0, 32⟩

def setw (ss : Ostream) (n : ℕ) : Ostream := { ss with width := n }

def setfill (ss : Ostream) (c : UInt8) : Ostream := { ss with fill := c }

/-- `operator<<` of characters. They are filled up to the width, which then is zero. -/
def put (ss : Ostream) (s : List UInt8) : Ostream :=
  { ss with str := ss.str ++ List.replicate (ss.width - s.length) ss.fill ++ s, width := 0 }

/-- `std::endl`, which does not look at the width -/
def endl (ss : Ostream) : Ostream := { ss with str := ss.str ++ [10] }

end Ostream

namespace Buffer

open Lib

variable {b : Buffer}

/-- The loop of `toHexString`. -/
def hexLoop : ℕ → List UInt8 → Ostream → Ostream
  | _, [], ss => ss
  | i, c :: str, ss =>
    let ss := if 0 < i ∧ i % 32 = 0 then ss.endl else ss
    hexLoop (i + 1) str ((((ss.setw 2).setfill 48).put [c]).put [32])

/-- `Buffer::toHexString` -/
def toHexString : Call (List UInt8) := do
  let str ← toString
  return (hexLoop 0 str .make).str

/-! ### What a dump should be -/

/-- The digit of a number below sixteen. -/
def hexDigit (n : UInt8) : UInt8 := if n < 10 then 48 + n else 87 + n

/-- The two digits of a byte. -/
def hexByte (c : UInt8) : List UInt8 := [hexDigit (c / 16), hexDigit (c % 16)]

def digitValue (d : UInt8) : Option UInt8 :=
  if 48 ≤ d ∧ d ≤ 57 then some (d - 48) else if 97 ≤ d ∧ d ≤ 102 then some (d - 87) else none

/-- The bytes whose digits these are. -/
def parseHex : List UInt8 → Option (List UInt8)
  | [] => some []
  | [_] => none
  | d :: d' :: ds => do
    let high ← digitValue d
    let low ← digitValue d'
    let rest ← parseHex ds
    return (16 * high + low) :: rest

/-- The text without blanks and line breaks. -/
def strip (out : List UInt8) : List UInt8 := out.filter fun c => c ≠ 32 ∧ c ≠ 10

/-- The digits of all bytes, with a line break in front of byte 32 and so on. -/
def hexLines (str : List UInt8) : List UInt8 :=
  str.zipIdx.flatMap fun (c, i) => (if 0 < i ∧ i % 32 = 0 then [10] else []) ++ hexByte c

/-- The text has the digits of the bytes in order, from which they can be read back, and the line
breaks are where they should be. -/
structure HexDump (str out : List UInt8) : Prop where
  hex : strip out = str.flatMap hexByte
  parsed : parseHex (strip out) = some str
  breaks : out.filter (· ≠ 32) = hexLines str

/-- `toHexString` dumps what `toString` gives. -/
def Dumps (b : Buffer) : Prop :=
  ∃ str out, toString b = .ok str b ∧ toHexString b = .ok out b ∧ HexDump str out

/-! ### What it is -/

/-- The text for bytes from an index on. -/
def hexText : ℕ → List UInt8 → List UInt8
  | _, [] => []
  | i, c :: str => (if 0 < i ∧ i % 32 = 0 then [10] else []) ++ [48, c, 32] ++ hexText (i + 1) str

theorem hexLoop_str (i : ℕ) (str : List UInt8) (ss : Ostream) :
    (hexLoop i str ss).str = ss.str ++ hexText i str := by
  induction str generalizing i ss with
  | nil => simp [hexLoop, hexText]
  | cons c str ih =>
      rw [hexLoop, ih, hexText]
      split <;> simp [Ostream.put, Ostream.setfill, Ostream.setw, Ostream.endl]

/-- **`toHexString`** prints the bytes themselves, each behind a zero. -/
theorem toHexString_eq (h : b.Wf) :
    toHexString b = .ok (hexText 0 (b.content.drop b.position)) b := by
  simp [toHexString, toString_eq h, hexLoop_str, Ostream.make]

theorem strip_hexText_cons (i : ℕ) (c : UInt8) (str : List UInt8) :
    strip (hexText i (c :: str)) =
      48 :: ((if c ≠ 32 ∧ c ≠ 10 then [c] else []) ++ strip (hexText (i + 1) str)) := by
  have hbreak : strip (if 0 < i ∧ i % 32 = 0 then [10] else []) = [] := by
    split <;> rfl
  have hbyte : strip [48, c, 32] = 48 :: if c ≠ 32 ∧ c ≠ 10 then [c] else [] := by
    by_cases hc : c ≠ 32 ∧ c ≠ 10 <;> simp [strip, hc]
  have happend : ∀ s s', strip (s ++ s') = strip s ++ strip s' := fun _ _ => List.filter_append ..
  rw [hexText, happend, happend, hbreak, hbyte, List.nil_append, List.cons_append]

/-- What is left of the text begins with a zero. -/
theorem head?_strip_hexText (i : ℕ) (str : List UInt8) :
    ∀ d ∈ (strip (hexText i str)).head?, d = 48 := by
  cases str with
  | nil => exact nofun
  | cons c str =>
      rw [strip_hexText_cons]
      exact fun d hd => (Option.some.inj hd).symm

theorem toNat_hexDigit {n : UInt8} (hn : n.toNat < 16) :
    (hexDigit n).toNat = if n.toNat < 10 then 48 + n.toNat else 87 + n.toNat := by
  have hzero : (48 : UInt8).toNat = 48 := rfl
  have hletter : (87 : UInt8).toNat = 87 := rfl
  rw [hexDigit]
  split
  case isTrue h =>
    have h : n.toNat < 10 := h
    rw [if_pos h, UInt8.toNat_add, hzero]
    exact Nat.mod_eq_of_lt (by omega)
  case isFalse h =>
    have h : ¬n.toNat < 10 := h
    rw [if_neg h, UInt8.toNat_add, hletter]
    exact Nat.mod_eq_of_lt (by omega)

/-- A byte whose first digit is a zero has a second one that is not the byte, and neither a
zero where that is a line break. -/
theorem hexDigit_mod_ne {c : UInt8} (hhigh : hexDigit (c / 16) = 48) :
    hexDigit (c % 16) ≠ c ∧ (c = 10 → hexDigit (c % 16) ≠ 48) ∧ c ≠ 32 := by
  have hlt := c.toNat_lt
  have hdiv : (c / 16).toNat = c.toNat / 16 := UInt8.toNat_div ..
  have hmod : (c % 16).toNat = c.toNat % 16 := UInt8.toNat_mod ..
  have hhigh := congrArg UInt8.toNat hhigh
  rw [toNat_hexDigit (by omega), hdiv] at hhigh
  have hlow := toNat_hexDigit (n := c % 16) (by omega)
  rw [hmod] at hlow
  have hzero : (48 : UInt8).toNat = 48 := rfl
  have hsmall : c.toNat < 16 := by
    split at hhigh <;> omega
  refine ⟨fun heq => ?_, ?_, ?_⟩
  · rw [heq] at hlow
    split at hlow <;> omega
  · rintro rfl
    decide
  · rintro rfl
    exact absurd hsmall (by decide)

/-- **A dump of bytes** does not begin with the digits of the first one. -/
theorem not_hexDump_cons (c : UInt8) (str : List UInt8) :
    ¬HexDump (c :: str) (hexText 0 (c :: str)) := by
  intro h
  have hhex := h.hex
  rw [strip_hexText_cons, List.flatMap_cons, hexByte, List.cons_append] at hhex
  obtain ⟨hhigh, hrest⟩ := List.cons.inj hhex
  obtain ⟨hself, hbreak, hblank⟩ := hexDigit_mod_ne hhigh.symm
  by_cases hc : c = 10
  · -- the line break is gone, and the next character is a zero if there is one
    rw [if_neg (by simp [hc]), List.nil_append] at hrest
    have hhead := head?_strip_hexText 1 str (hexDigit (c % 16)) (by rw [hrest]; rfl)
    exact hbreak hc hhead
  · rw [if_pos ⟨hblank, hc⟩] at hrest
    exact hself (List.cons.inj hrest).1.symm

theorem hexDump_nil : HexDump [] (hexText 0 []) := ⟨rfl, rfl, rfl⟩

/-- **The dump** is right if and only if there is nothing to read. -/
theorem dumps_iff (h : uses.Reachable b) (hbase : 1 ≤ b.baseSize) :
    b.Dumps ↔ b.readSize = 0 := by
  have hwf := uses_wf h hbase
  have hlen : (b.content.drop b.position).length = b.readSize := by
    rw [List.length_drop, hwf.length_content, readSize]
  have hdumps : b.Dumps ↔
      HexDump (b.content.drop b.position) (hexText 0 (b.content.drop b.position)) := by
    constructor
    · rintro ⟨str, out, hstr, hout, hdump⟩
      obtain ⟨rfl, -⟩ := EStateM.Result.ok.inj ((toString_eq hwf).symm.trans hstr)
      obtain ⟨rfl, -⟩ := EStateM.Result.ok.inj ((toHexString_eq hwf).symm.trans hout)
      exact hdump
    · exact fun hdump => ⟨_, _, toString_eq hwf, toHexString_eq hwf, hdump⟩
  rw [hdumps, ← hlen]
  cases b.content.drop b.position with
  | nil => exact iff_of_true hexDump_nil rfl
  | cons c str => exact iff_of_false (not_hexDump_cons c str) (by simp)

/-- Two bytes, both of which have been read. -/
theorem dumps_read : ∃ b, uses.Reachable b ∧ b.content = [1, 2] ∧ (b.Dumps ↔ b.readSize = 0) ∧
    b.readSize = 0 := by
  have hrun : (uses.run (new 2 fun _ => 0) [.call (.write [1, 2] fun _ => 0),
      .call (.setPosition 2)]).map (fun b => (b.baseSize, b.content, b.readSize)) =
      some (2, [1, 2], 0) := by
    decide
  obtain ⟨b, hr, hb⟩ := (reachable_new 2 fun _ => 0).of_map_run hrun
  obtain ⟨hbase, hcontent, hread⟩ :
      b.baseSize = 2 ∧ b.content = [1, 2] ∧ b.readSize = 0 := by simpa using hb
  exact ⟨b, hr, hcontent, dumps_iff hr (by omega), hread⟩

/-- The letter A is printed behind a zero. -/
theorem dumps_false : ∃ b, uses.Reachable b ∧ 1 ≤ b.baseSize ∧ ¬b.Dumps := by
  have hrun : (uses.run (new 4 fun _ => 0) [.call (.write [65] fun _ => 0),
      .call (.setPosition 0)]).map (fun b => (b.baseSize, toString.run' b, toHexString.run' b)) =
      some (4, some [65], some [48, 65, 32]) := by
    decide
  obtain ⟨b, hr, hb⟩ := (reachable_new 4 fun _ => 0).of_map_run hrun
  obtain ⟨hbase, hstr, hout⟩ : b.baseSize = 4 ∧ toString.run' b = some [65] ∧
      toHexString.run' b = some [48, 65, 32] := by simpa using hb
  refine ⟨b, hr, by omega, ?_⟩
  rintro ⟨str, out, hstr', hout', hdump⟩
  obtain rfl := Option.some.inj ((Call.run'_eq_some hstr').symm.trans hstr)
  obtain rfl := Option.some.inj ((Call.run'_eq_some hout').symm.trans hout)
  exact absurd hdump.hex (by decide)

end Buffer

end Easy.Net
