import Easy.Net.Wire

/-!
What the typed readers make of what the typed writers have written.

Whatever the host, the bytes of a fixed-width integer are in the order of
`endian_`: the swap in the writer undoes the order of the host, and the one in the
reader brings it back. A varint is read by the same number of rounds as it has
groups, each adding its group above those before it.
-/

namespace Easy.Net

open Lib Parser

/-! ### Bytes in memory -/

section Fixed

variable {n : ℕ} {endian host : Endian}

theorem two_pow_bytes (n : ℕ) : 2 ^ (8 * n) = 256 ^ n := pow_mul 2 8 n

theorem ofNat_ofLE_toLE (v : BitVec (8 * n)) :
    BitVec.ofNat (8 * n) (ofLE (toLE n v.toNat)) = v := by
  apply BitVec.eq_of_toNat_eq
  have hlt : v.toNat < 256 ^ n := two_pow_bytes n ▸ v.isLt
  rw [BitVec.toNat_ofNat, ofLE_toLE, Nat.mod_eq_of_lt hlt, Nat.mod_eq_of_lt v.isLt]

/-- The number in memory, from its bytes. -/
theorem toLE_ofNat_ofLE {bs : List UInt8} (h : bs.length = n) :
    toLE n (BitVec.ofNat (8 * n) (ofLE bs)).toNat = bs := by
  have hlt : ofLE bs < 2 ^ (8 * n) := by
    rw [two_pow_bytes, ← h]
    exact ofLE_lt bs
  rw [BitVec.toNat_ofNat, Nat.mod_eq_of_lt hlt, ← h, toLE_ofLE]

@[simp] theorem length_bytes (host : Endian) (v : BitVec (8 * n)) : (host.bytes v).length = n := by
  cases host <;> simp [Endian.bytes]

theorem value_bytes (host : Endian) (v : BitVec (8 * n)) : host.value n (host.bytes v) = v := by
  cases host <;> simp [Endian.value, Endian.bytes, ofNat_ofLE_toLE]

theorem toLE_byteswap (v : BitVec (8 * n)) :
    toLE n (byteswap v).toNat = (toLE n v.toNat).reverse :=
  toLE_ofNat_ofLE (by simp)

@[simp] theorem byteswap_byteswap (v : BitVec (8 * n)) : byteswap (byteswap v) = v := by
  rw [byteswap, toLE_byteswap, List.reverse_reverse, ofNat_ofLE_toLE]

/-- **Byte order.** The bytes written are in the order of `endian_`, on any host. -/
theorem writeFixed_eq (endian host : Endian) (v : BitVec (8 * n)) :
    writeFixed endian host v = endian.bytes v := by
  cases endian <;> cases host <;> simp [writeFixed, toLE_byteswap, Endian.bytes]

theorem reads_raw (host : Endian) (v : BitVec (8 * n)) :
    (readRaw host n).Reads (host.bytes v) v := by
  have htake := (reads_take (host.bytes v)).map (host.value n)
  rwa [length_bytes, value_bytes] at htake

theorem reads_fixed (endian host : Endian) (v : BitVec (8 * n)) :
    (readFixed endian host n).Reads (writeFixed endian host v) v := by
  have hread := (reads_raw host (if endian ≠ host then byteswap v else v)).bind
    (f := fun v => pure (if endian = host then v else byteswap v)) (.pure _)
  have hback : (if endian = host then if endian ≠ host then byteswap v else v
      else byteswap (if endian ≠ host then byteswap v else v)) = v := by
    by_cases h : endian = host <;> simp [h]
  rwa [List.append_nil, hback] at hread

end Fixed

/-! ### Varints -/

section Varint

variable {w : ℕ}

/-- Storing above the bits in use adds. -/
theorem toNat_or_shiftLeft {i : ℕ} {acc x : BitVec w} (hacc : acc.toNat < 2 ^ i)
    (hx : x.toNat * 2 ^ i < 2 ^ w) : (acc ||| x <<< i).toNat = acc.toNat + x.toNat * 2 ^ i := by
  rw [BitVec.toNat_or, BitVec.toNat_shiftLeft, Nat.shiftLeft_eq, Nat.mod_eq_of_lt hx, Nat.or_comm,
    Nat.mul_comm, ← Nat.two_pow_add_eq_or_of_lt hacc, Nat.add_comm]

theorem toNat_and_127 (hw : 8 ≤ w) (v : BitVec w) : (v &&& 0x7F).toNat = v.toNat % 128 := by
  have hpow : 2 ^ 8 ≤ 2 ^ w := Nat.pow_le_pow_right (by decide) hw
  have hmask : (0x7F : BitVec w).toNat = 2 ^ 7 - 1 := by
    rw [BitVec.ofNat_eq_ofNat, BitVec.toNat_ofNat,
      Nat.mod_eq_of_lt (Nat.lt_of_lt_of_le (by decide) hpow)]
    rfl
  rw [BitVec.toNat_and, hmask, Nat.and_two_pow_sub_one_eq_mod]

/-- The byte of a group with more to follow. -/
theorem toNat_more (hw : 8 ≤ w) (value : BitVec w) :
    ((value &&& 0x7F).setWidth 8 ||| 0x80).toNat = value.toNat % 128 + 128 := by
  have hlow : value.toNat % 128 < 2 ^ 7 := Nat.mod_lt _ (by decide)
  have hgroup : ((value &&& 0x7F).setWidth 8).toNat = value.toNat % 128 := by
    rw [BitVec.toNat_setWidth, toNat_and_127 hw]
    omega
  rw [BitVec.toNat_or, hgroup, Nat.or_comm, Nat.add_comm]
  exact (Nat.two_pow_add_eq_or_of_lt hlow 1).symm

theorem more_not_lt (hw : 8 ≤ w) (value : BitVec w) :
    ¬ (value &&& 0x7F).setWidth 8 ||| 0x80 < (0x80 : BitVec 8) := by
  rw [BitVec.lt_def, toNat_more hw]
  simp

theorem reads_byte (host : Endian) (b : BitVec 8) : (readFuint8 host).Reads [.ofBitVec b] b := by
  have hraw := reads_raw (n := 1) host b
  have hbytes : host.bytes (n := 1) b = [.ofBitVec b] := by
    cases host <;> simp [Endian.bytes, toLE, UInt8.ofNat]
  rwa [hbytes] at hraw

theorem toNat_ushiftRight_seven (value : BitVec w) : (value >>> 7).toNat = value.toNat / 128 := by
  rw [BitVec.toNat_ushiftRight, Nat.shiftRight_eq_div_pow]

/-- **One round** that is not the last puts seven bits above those in use. -/
theorem toNat_round (hw : 8 ≤ w) {value result : BitVec w} {i : ℕ} (hresult : result.toNat < 2 ^ i)
    (hvalue : value.toNat * 2 ^ i < 2 ^ w) :
    (result ||| (((value &&& 0x7F).setWidth 8 ||| 0x80) &&& 0x7f).setWidth w <<< i).toNat =
      result.toNat + value.toNat % 128 * 2 ^ i := by
  have hpow : 2 ^ 8 ≤ 2 ^ w := Nat.pow_le_pow_right (by decide) hw
  have hgroup : ((((value &&& 0x7F).setWidth 8 ||| 0x80) &&& 0x7f).setWidth w).toNat =
      value.toNat % 128 := by
    rw [BitVec.toNat_setWidth, toNat_and_127 le_rfl, toNat_more hw, Nat.add_mod_right, Nat.mod_mod,
      Nat.mod_eq_of_lt (by omega)]
  have hle : value.toNat % 128 * 2 ^ i ≤ value.toNat * 2 ^ i :=
    Nat.mul_le_mul_right _ (Nat.mod_le _ _)
  rw [toNat_or_shiftLeft hresult (by rw [hgroup]; omega), hgroup]

/-- **The reading loop**, in round `i / 7`, takes what the writing loop wrote for the
groups of `value` and puts them above the `i` bits it has. -/
theorem reads_varint (hw : 8 ≤ w) (host : Endian) (value : BitVec w) {i : ℕ} (hi : i < w)
    {result : BitVec w} (hresult : result.toNat < 2 ^ i) (hvalue : value.toNat * 2 ^ i < 2 ^ w) :
    (readVarint host i result).Reads (writeVarint value)
      (BitVec.ofNat w (result.toNat + value.toNat * 2 ^ i)) := by
  induction value using writeVarint.induct generalizing i result with
  | case1 value hmore ih =>
      have hround := toNat_round hw hresult hvalue
      have hpow : 2 ^ (i + 7) = 128 * 2 ^ i := by rw [pow_add, Nat.mul_comm]; rfl
      have hshift : value.toNat / 128 * 2 ^ (i + 7) = value.toNat / 128 * 128 * 2 ^ i := by
        rw [hpow, Nat.mul_assoc]
      have hsplit : value.toNat / 128 * 128 * 2 ^ i + value.toNat % 128 * 2 ^ i =
          value.toNat * 2 ^ i := by
        rw [← Nat.add_mul, Nat.div_add_mod']
      have hgroup : value.toNat % 128 * 2 ^ i ≤ 127 * 2 ^ i :=
        Nat.mul_le_mul_right _ (by omega)
      have hnext : i + 7 < w := by
        have hle : 128 * 2 ^ i ≤ value.toNat * 2 ^ i := Nat.mul_le_mul_right _ hmore
        exact (Nat.pow_lt_pow_iff_right (by decide : 1 < 2)).mp (by omega)
      rw [writeVarint, if_pos hmore, readVarint, if_pos hi]
      apply Reads.cons (reads_byte host _)
      rw [if_neg (more_not_lt hw value)]
      have hrest := ih hnext (by rw [hround]; omega) (by rw [toNat_ushiftRight_seven]; omega)
      have hsum : (result ||| (((value &&& 0x7F).setWidth 8 ||| 0x80) &&& 0x7f).setWidth w <<<
          i).toNat + (value >>> 7).toNat * 2 ^ (i + 7) = result.toNat + value.toNat * 2 ^ i := by
        rw [hround, toNat_ushiftRight_seven]
        omega
      rwa [hsum] at hrest
  | case2 value hlast =>
      have hpow : 2 ^ 8 ≤ 2 ^ w := Nat.pow_le_pow_right (by decide) hw
      have hbyte : ((value.setWidth 8).setWidth w : BitVec w).toNat = value.toNat := by
        rw [BitVec.toNat_setWidth, BitVec.toNat_setWidth, Nat.mod_eq_of_lt (a := value.toNat)
          (by omega), Nat.mod_eq_of_lt (by omega)]
      rw [writeVarint, if_neg hlast, readVarint, if_pos hi]
      have hlast' : value.setWidth 8 < (0x80 : BitVec 8) := by
        rw [BitVec.lt_def, BitVec.toNat_setWidth]
        simp
        omega
      have hor : (result ||| (value.setWidth 8).setWidth w <<< i).toNat =
          result.toNat + value.toNat * 2 ^ i := by
        rw [toNat_or_shiftLeft hresult (by rwa [hbyte]), hbyte]
      apply Reads.cons (reads_byte host _)
      rw [if_pos hlast', ← hor, BitVec.ofNat_toNat, BitVec.setWidth_eq]
      exact .pure _

theorem reads_varint_zero (hw : 8 ≤ w) (host : Endian) (value : BitVec w) :
    (readVarint host 0 0).Reads (writeVarint value) value := by
  have hread := reads_varint hw host value (show 0 < w by omega)
    (show (0 : BitVec w).toNat < 2 ^ 0 by simp) (by simpa using value.isLt)
  simpa using hread

/-- A varint has no more groups than its value needs. -/
theorem length_writeVarint {k : ℕ} {value : BitVec w} (h : value.toNat < 2 ^ (7 * (k + 1))) :
    (writeVarint value).length ≤ k + 1 := by
  induction k generalizing value with
  | zero =>
      rw [writeVarint, if_neg (by omega)]
      simp
  | succ k ih =>
      rw [writeVarint]
      split
      · rw [List.length_cons]
        refine Nat.succ_le_succ (ih ?_)
        have hpow : 2 ^ (7 * (k + 1 + 1)) = 128 * 2 ^ (7 * (k + 1)) := by
          rw [Nat.mul_add 7 (k + 1), pow_add, Nat.mul_comm]
          rfl
        rw [toNat_ushiftRight_seven]
        omega
      · simp

/-! ### Zigzag -/

/-- A negative number becomes the complement of its double. -/
theorem encodeZigzag_eq (v : BitVec w) :
    encodeZigzag v = if v.msb then ~~~(v <<< 1) else v <<< 1 := by
  have hdouble : v * (2 : BitVec w) = v <<< 1 := by
    apply BitVec.eq_of_toNat_eq
    simp [Nat.shiftLeft_eq]
  rw [encodeZigzag, BitVec.neg_mul, hdouble, BitVec.not_eq_neg_add]
  simp only [BitVec.ofNat_eq_ofNat, BitVec.slt_zero_eq_msb]

/-- The bit that a shift by one place drops. -/
theorem getElem_last {v : BitVec w} {i : ℕ} (hi : i < w) (hlast : ¬ 1 + i < w) : v[i] = v.msb := by
  obtain rfl : i = w - 1 := by omega
  rw [BitVec.msb_eq_getLsbD_last, BitVec.getLsbD_eq_getElem hi]

theorem decodeZigzag_encodeZigzag (v : BitVec w) : decodeZigzag (encodeZigzag v) = v := by
  rw [encodeZigzag_eq, decodeZigzag]
  split
  · rename_i hneg
    have hlow : ~~~(v <<< 1) &&& 1#w = 1#w := by
      ext i hi
      cases i <;> simp
    simp only [BitVec.ofNat_eq_ofNat, hlow, BitVec.neg_one_eq_allOnes, BitVec.xor_allOnes]
    ext i hi
    by_cases hlast : 1 + i < w
    · simp [hlast]
    · simp [getElem_last hi hlast, hneg, Nat.zero_lt_of_lt hi]
  · rename_i hpos
    have hlow : v <<< 1 &&& 1#w = 0#w := by
      ext i hi
      cases i <;> simp
    simp only [BitVec.ofNat_eq_ofNat, hlow, BitVec.neg_zero, BitVec.xor_zero]
    ext i hi
    by_cases hlast : 1 + i < w
    · simp [hlast]
    · simp [getElem_last hi hlast, hpos]

end Varint

/-! ### Items -/

/-- The fixed-width items. -/
inductive FixedKind
  | fint8
  | fuint8
  | fint16
  | fuint16
  | fint32
  | fuint32
  | fint64
  | fuint64
  | float
  | double
  deriving DecidableEq, Repr

namespace FixedKind

/-- `sizeof` -/
def size : FixedKind → ℕ
  | fint8 | fuint8 => 1
  | fint16 | fuint16 => 2
  | fint32 | fuint32 | float => 4
  | fint64 | fuint64 | double => 8

def write (endian host : Endian) : (k : FixedKind) → BitVec (8 * k.size) → List UInt8
  | fint8 => writeFint8 host
  | fuint8 => writeFuint8 host
  | fint16 => writeFint16 endian host
  | fuint16 => writeFuint16 endian host
  | fint32 => writeFint32 endian host
  | fuint32 => writeFuint32 endian host
  | fint64 => writeFint64 endian host
  | fuint64 => writeFuint64 endian host
  | float => writeFloat endian host
  | double => writeDouble endian host

def read (endian host : Endian) : (k : FixedKind) → Parser UInt8 (BitVec (8 * k.size))
  | fint8 => readFint8 host
  | fuint8 => readFuint8 host
  | fint16 => readFint16 endian host
  | fuint16 => readFuint16 endian host
  | fint32 => readFint32 endian host
  | fuint32 => readFuint32 endian host
  | fint64 => readFint64 endian host
  | fuint64 => readFuint64 endian host
  | float => readFloat endian host
  | double => readDouble endian host

/-- A single byte has no order. -/
theorem bytes_one (endian host : Endian) (v : BitVec (8 * 1)) : host.bytes v = endian.bytes v := by
  cases endian <;> cases host <;> simp [Endian.bytes, toLE]

theorem write_eq (endian host : Endian) (k : FixedKind) (v : BitVec (8 * k.size)) :
    k.write endian host v = endian.bytes v := by
  cases k with
  | fint8 | fuint8 => exact bytes_one endian host v
  | _ => exact writeFixed_eq endian host v

theorem reads (endian host : Endian) (k : FixedKind) (v : BitVec (8 * k.size)) :
    (k.read endian host).Reads (k.write endian host v) v := by
  cases k with
  | fint8 | fuint8 => exact reads_raw host v
  | _ => exact reads_fixed endian host v

end FixedKind

/-- Byte `i` of an integer, counted from its least significant one. -/
def byteAt {n : ℕ} (v : BitVec (8 * n)) (i : ℕ) : UInt8 := .ofBitVec (v.extractLsb' (8 * i) 8)

theorem getElem?_bytes_little {n i : ℕ} (v : BitVec (8 * n)) (hi : i < n) :
    (Endian.little.bytes v)[i]? = some (byteAt v i) := by
  rw [Endian.bytes, getElem?_toLE _ hi, byteAt, BitVec.extractLsb', Nat.shiftRight_eq_div_pow,
    two_pow_bytes]
  rfl

theorem getElem?_bytes_big {n i : ℕ} (v : BitVec (8 * n)) (hi : i < n) :
    (Endian.big.bytes v)[i]? = some (byteAt v (n - 1 - i)) := by
  have hrev := List.getElem?_reverse (l := toLE n v.toNat) (i := i) (by simpa using hi)
  rw [length_toLE] at hrev
  rw [Endian.bytes, hrev]
  exact getElem?_bytes_little v (by omega)

/-- The items that can be written and read back. -/
inductive Kind
  | fixed (k : FixedKind)
  | uint32
  | uint64
  | int32
  | int64
  | stringF64
  | stringVint
  deriving DecidableEq, Repr

namespace Kind

abbrev Val : Kind → Type
  | fixed k => BitVec (8 * k.size)
  | uint32 | int32 => BitVec 32
  | uint64 | int64 => BitVec 64
  | stringF64 | stringVint => StdString

def write (endian host : Endian) : (k : Kind) → k.Val → List UInt8
  | fixed k => k.write endian host
  | uint32 => writeUint32
  | uint64 => writeUint64
  | int32 => writeInt32
  | int64 => writeInt64
  | stringF64 => writeStringF64 endian host
  | stringVint => writeStringVint

def read (endian host : Endian) : (k : Kind) → Parser UInt8 k.Val
  | fixed k => k.read endian host
  | uint32 => readUint32 host
  | uint64 => readUint64 host
  | int32 => readInt32 host
  | int64 => readInt64 host
  | stringF64 => readStringF64 endian host
  | stringVint => readStringVint host

end Kind

theorem reads_data (s : StdString) : (readData s.size).Reads s.data s := by
  have hsize : s.size.toNat = s.data.length := by
    rw [StdString.size, BitVec.toNat_ofNat, Nat.mod_eq_of_lt s.length_lt]
  intro rest
  simp [readData, hsize]

theorem Kind.reads (endian host : Endian) (k : Kind) (v : k.Val) :
    (k.read endian host).Reads (k.write endian host v) v := by
  cases k with
  | fixed k => exact k.reads endian host v
  | uint32 => exact reads_varint_zero (by decide) host v
  | uint64 => exact reads_varint_zero (by decide) host v
  | int32 =>
      have hread := (reads_varint_zero (by decide) host (encodeZigzag32 v)).map decodeZigzag32
      rwa [show decodeZigzag32 (encodeZigzag32 v) = v from decodeZigzag_encodeZigzag v] at hread
  | int64 =>
      have hread := (reads_varint_zero (by decide) host (encodeZigzag64 v)).map decodeZigzag64
      rwa [show decodeZigzag64 (encodeZigzag64 v) = v from decodeZigzag_encodeZigzag v] at hread
  | stringF64 => exact (reads_fixed (n := 8) endian host v.size).bind (reads_data v)
  | stringVint => exact (reads_varint_zero (by decide) host v.size).bind (reads_data v)

/-- **Round trip.** Any sequence of items is read back as it was written, from exactly
the bytes written, whatever follows; a varint fits into the temporary of its
writer; and fixed-width bytes are in the order of `endian_` on any host. -/
theorem wire_roundTrip (endian host : Endian) :
    (∀ (items : List (Σ k : Kind, k.Val)) (rest : List UInt8),
      readAll (Kind.read endian host) (items.map Sigma.fst)
        (writeAll (Kind.write endian host) items ++ rest) = some (items, rest)) ∧
      (∀ value, (writeUint32 value).length ≤ 5) ∧ (∀ value, (writeUint64 value).length ≤ 10) ∧
      ∀ (k : FixedKind) (v : BitVec (8 * k.size)),
        (k.write endian host v).length = k.size ∧ ∀ i < k.size,
          (k.write .little host v)[i]? = some (byteAt v i) ∧
            (k.write .big host v)[i]? = some (byteAt v (k.size - 1 - i)) := by
  refine ⟨fun items => reads_all (Kind.reads endian host) items, fun value => ?_, fun value => ?_,
    fun k v => ⟨?_, fun i hi => ⟨?_, ?_⟩⟩⟩
  · exact length_writeVarint (value.isLt.trans (by decide))
  · exact length_writeVarint (value.isLt.trans (by decide))
  · rw [k.write_eq, length_bytes]
  · rw [k.write_eq, getElem?_bytes_little v hi]
  · rw [k.write_eq, getElem?_bytes_big v hi]

example : (writeInt32 (-65), writeFuint16 .big .little 0x1234) = ([0x81, 0x01], [0x12, 0x34]) := by
  simp [writeInt32, writeUint32, writeVarint, encodeZigzag32, encodeZigzag]
  decide

end Easy.Net
