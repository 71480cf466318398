import Easy.Net.RoundTrip

/-!
Strings behind a length of sixteen or thirty-two bits.

The writer narrows the size to the width of the length and then writes all of the data, so
the length in the stream is the size modulo a power of two. The reader takes that many
bytes, and what the data has beyond them is left in front of the rest of the stream. The
writers of a length of 64 bits and of a varint write the size as it is.
-/

namespace Easy.Net

open Lib Parser

variable {n : ℕ} {endian host : Endian}

/-- The reader of the data takes all of a string only if the length is its size. -/
theorem readData_append {len : BitVec 64} {s : StdString} (h : len.toNat ≤ s.data.length)
    (t : List UInt8) :
    readData len (s.data ++ t) = some (s, t) ↔ len.toNat = s.data.length := by
  have hle : len.toNat ≤ (s.data ++ t).length := by
    rw [List.length_append]
    omega
  rw [readData, if_pos hle]
  constructor
  · intro heq
    obtain ⟨-, hdrop⟩ := Prod.mk.inj (Option.some.inj heq)
    have hlen := congrArg List.length hdrop
    rw [List.length_drop, List.length_append] at hlen
    omega
  · intro heq
    simp only [heq, List.take_left, List.drop_left]

/-- The length that is written, as the reader of the data gets it. -/
theorem toNat_size_setWidth (h : 8 * n ≤ 64) (s : StdString) :
    ((s.size.setWidth (8 * n)).setWidth 64).toNat = s.data.length % 2 ^ (8 * n) := by
  have hpow : 2 ^ (8 * n) ≤ 2 ^ 64 := Nat.pow_le_pow_right (by decide) h
  have hlt : s.data.length % 2 ^ (8 * n) < 2 ^ (8 * n) := Nat.mod_lt _ (Nat.two_pow_pos _)
  rw [BitVec.toNat_setWidth, BitVec.toNat_setWidth, StdString.size, BitVec.toNat_ofNat,
    Nat.mod_eq_of_lt s.length_lt, Nat.mod_eq_of_lt (hlt.trans_le hpow)]

/-- **One string** behind a length of `n` bytes. -/
theorem readString_iff (h : 8 * n ≤ 64) (endian host : Endian) (s : StdString) (t : List UInt8) :
    (readFixed endian host n >>= fun len => readData (len.setWidth 64))
        (writeFixed endian host (s.size.setWidth (8 * n)) ++ s.data ++ t) = some (s, t) ↔
      s.data.length < 2 ^ (8 * n) := by
  have hsize := toNat_size_setWidth h s
  have hle : s.data.length % 2 ^ (8 * n) ≤ s.data.length := Nat.mod_le _ _
  have hmod : s.data.length % 2 ^ (8 * n) = s.data.length ↔ s.data.length < 2 ^ (8 * n) :=
    Nat.mod_eq_iff_lt (Nat.two_pow_pos _).ne'
  rw [List.append_assoc, Parser.bind_apply, reads_fixed, Option.bind_some,
    readData_append (by rwa [hsize]), hsize, hmod]

theorem writeFixed_ne_nil (hn : 0 < n) (endian host : Endian) (v : BitVec (8 * n)) :
    writeFixed endian host v ≠ [] := by
  rw [writeFixed_eq]
  apply List.ne_nil_of_length_pos
  rwa [length_bytes]

/-- **Strings of every length.** No string is rejected, and one comes back, with exactly
the rest of the stream behind it, if and only if the length in front of it can hold its
size. -/
theorem prefixed_round_trip_iff (endian host : Endian) (s : StdString) (t : List UInt8) :
    ((writeStringF16 endian host s = [] ∨
        readStringF16 endian host (writeStringF16 endian host s ++ t) = some (s, t)) ↔
      s.data.length < 2 ^ 16) ∧
    ((writeStringF32 endian host s = [] ∨
        readStringF32 endian host (writeStringF32 endian host s ++ t) = some (s, t)) ↔
      s.data.length < 2 ^ 32) := by
  have h16 : writeStringF16 endian host s ≠ [] :=
    List.append_ne_nil_of_left_ne_nil (writeFixed_ne_nil (n := 2) (by decide) endian host _) _
  have h32 : writeStringF32 endian host s ≠ [] :=
    List.append_ne_nil_of_left_ne_nil (writeFixed_ne_nil (n := 4) (by decide) endian host _) _
  rw [or_iff_right h16, or_iff_right h32]
  exact ⟨readString_iff (n := 2) (by decide) endian host s t,
    readString_iff (n := 4) (by decide) endian host s t⟩

def StdString.empty : StdString := ⟨[], Nat.two_pow_pos 64⟩

/-- Of a multiple of `2 ^ 16` bytes none is taken as data. -/
theorem readStringF16_multiple {s : StdString} (h : s.data.length % 2 ^ 16 = 0)
    (endian host : Endian) (t : List UInt8) :
    readStringF16 endian host (writeStringF16 endian host s ++ t) =
      some (.empty, s.data ++ t) := by
  have hread := reads_fixed (n := 2) endian host (s.size.setWidth 16) (s.data ++ t)
  have hsize := toNat_size_setWidth (n := 2) (by decide) s
  rw [h] at hsize
  rw [writeStringF16, List.append_assoc, readStringF16, Parser.bind_apply]
  refine (congrArg (Option.bind · _) hread).trans ?_
  have hzero : ((s.size.setWidth 16).setWidth 64).toNat = 0 := hsize
  rw [Option.bind_some, readData, if_pos (by rw [hzero]; exact Nat.zero_le _)]
  simp [hzero, StdString.empty]

/-- A string of `2 ^ 16` bytes, with nothing behind it. -/
theorem prefixed_round_trip_false :
    ∃ s : StdString, s.data = List.replicate 65536 0 ∧
      ¬ (writeStringF16 .little .little s = [] ∨
        readStringF16 .little .little (writeStringF16 .little .little s ++ []) = some (s, [])) := by
  obtain ⟨s, hs⟩ : ∃ s : StdString, s.data = List.replicate 65536 0 :=
    ⟨⟨List.replicate 65536 0, by rw [List.length_replicate]; decide⟩, rfl⟩
  have hlen : s.data.length = 65536 := by rw [hs, List.length_replicate]
  refine ⟨s, hs, ?_⟩
  rintro (hnil | hread)
  · exact List.append_ne_nil_of_left_ne_nil (writeFixed_ne_nil (n := 2) (by decide) _ _ _) _ hnil
  · rw [readStringF16_multiple (by omega)] at hread
    have hrest := congrArg (fun r => r.2.length) (Option.some.inj hread)
    simp only [List.append_nil, List.length_nil, hlen] at hrest
    omega

end Easy.Net
