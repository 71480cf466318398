import Easy.Net.RoundTrip

/-!
The subnet functions of `IPv4Address` and `IPv6Address` (`easy/net/Address.cc`), and the byte
order conversions of `easy/net/Endian.h`.

An address is what the functions read and write of the socket address it holds; integers in
it are as the host reads them from memory. `nullptr` is `none`. What is undefined, which are
shifts by the width of `int` or more, overflows of `int` and accesses outside of an array,
ends a function with `none` around its result.
-/

namespace Easy.Net

open Lib

variable {n : ℕ}

def hostToNetwork (host : Endian) (value : BitVec (8 * n)) : BitVec (8 * n) :=
  match host with
  | .little => byteswap value
  | .big => value

def networkToHost (host : Endian) (value : BitVec (8 * n)) : BitVec (8 * n) :=
  match host with
  | .little => byteswap value
  | .big => value

/-- `CreateMask<T>` for a `T` of `w` bits. The difference is a `size_t`, and the one that is
shifted an `int`. -/
def createMask (w bits : ℕ) : Option (BitVec w) :=
  let amount := (BitVec.ofNat 64 w - BitVec.ofNat 64 bits).toNat
  if amount < 32 then
    let shifted := 1#32 <<< amount
    if shifted.ssubOverflow 1 then none else some ((shifted - 1).setWidth w)
  else none

def AF_INET : BitVec 16 := 2

def AF_INET6 : BitVec 16 := 10

/-- `struct sockaddr_in` -/
structure IPv4Address where
  sin_family : BitVec 16
  sin_port : BitVec 16
  s_addr : BitVec 32
  deriving DecidableEq, Repr

namespace IPv4Address

def port (host : Endian) (a : IPv4Address) : BitVec 32 :=
  (networkToHost (n := 2) host a.sin_port).setWidth 32

def broadcastAddress (host : Endian) (a : IPv4Address) (prefix_len : ℕ) :
    Option (Option IPv4Address) :=
  if 32 < prefix_len then some none
  else do
    let mask ← createMask 32 prefix_len
    return some { a with s_addr := a.s_addr ||| hostToNetwork (n := 4) host mask }

def networdAddress (host : Endian) (a : IPv4Address) (prefix_len : ℕ) :
    Option (Option IPv4Address) :=
  if 32 < prefix_len then some none
  else do
    let mask ← createMask 32 prefix_len
    return some { a with s_addr := a.s_addr &&& hostToNetwork (n := 4) host mask }

def subnetMask (host : Endian) (prefix_len : ℕ) : Option IPv4Address := do
  let mask ← createMask 32 prefix_len
  return ⟨AF_INET, 0, ~~~hostToNetwork (n := 4) host mask⟩

end IPv4Address

/-- `struct sockaddr_in6` -/
structure IPv6Address where
  sin6_family : BitVec 16
  sin6_port : BitVec 16
  s6_addr : Vector UInt8 16
  deriving DecidableEq, Repr

namespace IPv6Address

/-- `s6_addr[i] = v` -/
def store (s6_addr : Vector UInt8 16) (i : ℕ) (v : UInt8) : Option (Vector UInt8 16) :=
  if h : i < 16 then some (s6_addr.set i v) else none

/-- `for (; i < stop; ++i) { s6_addr[i] = v; }` -/
def fill (v : UInt8) (i stop : ℕ) (s6_addr : Vector UInt8 16) : Option (Vector UInt8 16) :=
  if i < stop then (store s6_addr i v).bind fun s => fill v (i + 1) stop s else some s6_addr
termination_by stop - i

def port (host : Endian) (a : IPv6Address) : BitVec 32 :=
  (networkToHost (n := 2) host a.sin6_port).setWidth 32

def broadcastAddress (a : IPv6Address) (prefix_len : ℕ) : Option IPv6Address := do
  let old ← a.s6_addr[prefix_len / 8]?
  let mask ← createMask 8 (prefix_len % 8)
  let s ← store a.s6_addr (prefix_len / 8) (old ||| .ofBitVec mask)
  let s ← fill 0xff (prefix_len / 8 + 1) 16 s
  return { a with s6_addr := s }

def networdAddress (a : IPv6Address) (prefix_len : ℕ) : Option IPv6Address := do
  let old ← a.s6_addr[prefix_len / 8]?
  let mask ← createMask 8 (prefix_len % 8)
  let s ← store a.s6_addr (prefix_len / 8) (old &&& .ofBitVec mask)
  let s ← fill 0x00 (prefix_len / 8 + 1) 16 s
  return { a with s6_addr := s }

def subnetMask (prefix_len : ℕ) : Option IPv6Address := do
  let mask ← createMask 8 (prefix_len % 8)
  let s ← store (Vector.replicate 16 0) (prefix_len / 8) (~~~(.ofBitVec mask))
  let s ← fill 0xff 0 (prefix_len / 8) s
  return ⟨AF_INET6, 0, s⟩

end IPv6Address

/-! ### Byte order -/

/-- A swap moves bit `i` to the byte at the other end. -/
theorem getLsbD_byteswap (v : BitVec (8 * n)) {i : ℕ} (hi : i < 8 * n) :
    (byteswap v).getLsbD i = v.getLsbD (8 * (n - 1 - i / 8) + i % 8) := by
  have hbyte : i / 8 < n := by omega
  have hlen : i / 8 < (toLE n v.toNat).length := by simpa using hbyte
  have hget : (toLE n v.toNat).reverse.getD (i / 8) 0 =
      (toLE n v.toNat).getD (n - 1 - i / 8) 0 := by
    rw [List.getD_eq_getElem?_getD, List.getElem?_reverse hlen, length_toLE,
      List.getD_eq_getElem?_getD]
  have hbit := testBit_toLE (n := n) (k := n - 1 - i / 8) (j := i % 8) v.toNat (by omega)
    (by omega)
  rw [byteswap, BitVec.getLsbD_ofNat, testBit_ofLE, hget, hbit]
  simp [hi, BitVec.getLsbD]

@[simp] theorem byteswap_zero : byteswap (0 : BitVec (8 * n)) = 0 := by
  refine BitVec.eq_of_getLsbD_eq fun i hi => ?_
  rw [getLsbD_byteswap _ hi]
  exact BitVec.getLsbD_zero.trans BitVec.getLsbD_zero.symm

theorem byteswap_and (v w : BitVec (8 * n)) : byteswap (v &&& w) = byteswap v &&& byteswap w := by
  refine BitVec.eq_of_getLsbD_eq fun i hi => ?_
  rw [getLsbD_byteswap _ hi, BitVec.getLsbD_and, BitVec.getLsbD_and, getLsbD_byteswap _ hi,
    getLsbD_byteswap _ hi]

theorem byteswap_or (v w : BitVec (8 * n)) : byteswap (v ||| w) = byteswap v ||| byteswap w := by
  refine BitVec.eq_of_getLsbD_eq fun i hi => ?_
  rw [getLsbD_byteswap _ hi, BitVec.getLsbD_or, BitVec.getLsbD_or, getLsbD_byteswap _ hi,
    getLsbD_byteswap _ hi]

theorem byteswap_not (v : BitVec (8 * n)) : byteswap (~~~v) = ~~~byteswap v := by
  refine BitVec.eq_of_getLsbD_eq fun i hi => ?_
  have hi' : 8 * (n - 1 - i / 8) + i % 8 < 8 * n := by omega
  rw [getLsbD_byteswap _ hi, BitVec.getLsbD_not, BitVec.getLsbD_not, getLsbD_byteswap _ hi]
  simp [hi, hi']

section

variable (host : Endian) (v w : BitVec (8 * n))

@[simp] theorem networkToHost_hostToNetwork : networkToHost host (hostToNetwork host v) = v := by
  cases host with
  | little => exact byteswap_byteswap v
  | big => rfl

theorem networkToHost_eq_zero : networkToHost host v = 0 ↔ v = 0 := by
  cases host with
  | little =>
    constructor
    · intro h
      have hswap : byteswap v = 0 := h
      rw [← byteswap_byteswap v, hswap, byteswap_zero]
    · rintro rfl
      exact byteswap_zero
  | big => rfl

theorem networkToHost_and :
    networkToHost host (v &&& w) = networkToHost host v &&& networkToHost host w := by
  cases host with
  | little => exact byteswap_and v w
  | big => rfl

theorem networkToHost_or :
    networkToHost host (v ||| w) = networkToHost host v ||| networkToHost host w := by
  cases host with
  | little => exact byteswap_or v w
  | big => rfl

theorem networkToHost_not : networkToHost host (~~~v) = ~~~networkToHost host v := by
  cases host with
  | little => exact byteswap_not v
  | big => rfl

end

/-! ### Masks -/

theorem toNat_amount {w bits : ℕ} (hw : w ≤ 32) (hle : bits ≤ w) :
    (BitVec.ofNat 64 w - BitVec.ofNat 64 bits).toNat = w - bits := by
  rw [BitVec.toNat_sub, BitVec.toNat_ofNat, BitVec.toNat_ofNat]
  omega

/-- **Masks** of which the shift stays below the sign of `int`. -/
theorem createMask_eq {w bits : ℕ} (hw : w ≤ 32) (hle : bits ≤ w) (hlt : w - bits < 31) :
    createMask w bits = some (BitVec.ofNat w (2 ^ (w - bits) - 1)) := by
  have hpow : 2 ^ (w - bits) < 2 ^ 31 := Nat.pow_lt_pow_right (by decide) hlt
  have hpos : 0 < 2 ^ (w - bits) := Nat.two_pow_pos _
  have hshifted : (1#32 <<< (w - bits)).toNat = 2 ^ (w - bits) := by
    rw [BitVec.toNat_shiftLeft, Nat.shiftLeft_eq, BitVec.toNat_ofNat]
    omega
  have hint : (1#32 <<< (w - bits)).toInt = (2 ^ (w - bits) : ℕ) := by
    rw [BitVec.toInt_eq_toNat_of_lt (by omega), hshifted]
  have hone : (1 : BitVec 32).toInt = 1 := rfl
  have hover : (1#32 <<< (w - bits)).ssubOverflow 1 = false := by
    rw [BitVec.ssubOverflow, hint, hone, Bool.or_eq_false_iff, decide_eq_false_iff_not,
      decide_eq_false_iff_not]
    omega
  have hdiff : ((1#32 <<< (w - bits) - 1).setWidth w : BitVec w) =
      BitVec.ofNat w (2 ^ (w - bits) - 1) := by
    have hone' : (1 : BitVec 32).toNat = 1 := rfl
    apply BitVec.eq_of_toNat_eq
    rw [BitVec.toNat_setWidth, BitVec.toNat_sub, hshifted, BitVec.toNat_ofNat, hone']
    congr 1
    omega
  simp only [createMask, toNat_amount hw hle]
  rw [if_pos (by omega), if_neg (Bool.eq_false_iff.mp hover), hdiff]

/-- `1 << 32` and `(1 << 31) - 1` are undefined. -/
theorem createMask_none {bits : ℕ} (hlt : bits < 2) : createMask 32 bits = none := by
  obtain rfl | rfl : bits = 0 ∨ bits = 1 := by omega
  · decide
  · decide

/-- The bits of a mask are those behind the first `bits`. -/
theorem getMsbD_mask {w bits j : ℕ} (hle : bits ≤ w) :
    (BitVec.ofNat w (2 ^ (w - bits) - 1)).getMsbD j = (decide (j < w) && decide (bits ≤ j)) := by
  rw [BitVec.getMsbD, BitVec.getLsbD_ofNat, Nat.testBit_two_pow_sub_one]
  by_cases hj : j < w
  · have hbit : w - 1 - j < w - bits ↔ bits ≤ j := by omega
    have hlt : w - 1 - j < w := by omega
    simp [hj, hbit, hlt]
  · simp [hj]

end Easy.Net
