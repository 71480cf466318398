import Easy.Lib.TopBits
import Easy.Net.Address

/-!
The bits of network and broadcast addresses and of subnet masks.

Bits are counted from the most significant one of the first byte. A mask of `CreateMask` has
the bits behind a prefix set. `subnetMask` takes its complement and `broadcastAddress` sets
its bits. `networdAddress` takes it as it is, so that it clears the prefix and keeps the rest.
The shift of the mask is undefined for the two shortest prefixes of an IPv4 address, and
the byte behind the prefix of all 128 bits is outside of an IPv6 address.
-/

namespace Easy.Net

open Lib

/-! ### What the functions are to return -/

section Spec

variable {α : Type}

/-- `r` keeps the first `p` bits of `a` and clears the others, which are those that the
subnet mask `m` clears, and keeps the port. -/
structure IsNetwork (bits : α → ℕ → Bool) (port : α → BitVec 32) (p : ℕ) (a m r : α) : Prop where
  bits_eq : bits r = TopBits.keep p (bits a)
  and_mask : ∀ j, bits r j = (bits a j && bits m j)
  port_eq : port r = port a

/-- `network` returns the network address of `a`, which is its own. -/
def HasNetwork (bits : α → ℕ → Bool) (port : α → BitVec 32) (p : ℕ) (mask : Option α)
    (network : α → Option α) (a : α) : Prop :=
  ∃ m r, mask = some m ∧ network a = some r ∧ IsNetwork bits port p a m r ∧ network r = some r

/-- `a` and `b` agree on their first `p` bits exactly when their networks are the same. -/
def NetworksAgree (bits : α → ℕ → Bool) (p : ℕ) (network : α → Option α) (a b : α) : Prop :=
  (network a).map bits = (network b).map bits ↔ ∀ j < p, bits a j = bits b j

/-- The mask `m` has the first `p` bits set, and `r` is `a` or the complement of it. -/
structure IsBroadcast (bits : α → ℕ → Bool) (w p : ℕ) (a m r : α) : Prop where
  mask_eq : bits m = TopBits.ones p
  or_not_mask : ∀ j < w, bits r j = (bits a j || !bits m j)

/-- The mask of a prefix and `broadcast` are right for `a`. -/
def HasBroadcast (bits : α → ℕ → Bool) (w p : ℕ) (mask : Option α)
    (broadcast : α → Option α) (a : α) : Prop :=
  ∃ m r, mask = some m ∧ broadcast a = some r ∧ IsBroadcast bits w p a m r

variable {bits : α → ℕ → Bool} {port : α → BitVec 32} {p : ℕ} {mask : Option α}
  {network : α → Option α} {a b : α}

/-- Where `network` is right it tells apart what differs in the prefix, and nothing else. -/
theorem HasNetwork.agree (h : HasNetwork bits port p mask network a)
    (h' : HasNetwork bits port p mask network b) : NetworksAgree bits p network a b := by
  obtain ⟨m, r, -, hr, hnet, -⟩ := h
  obtain ⟨m', r', -, hr', hnet', -⟩ := h'
  rw [NetworksAgree, hr, hr', Option.map_some, Option.map_some, Option.some_inj, hnet.bits_eq,
    hnet'.bits_eq, TopBits.keep_eq_iff]

end Spec

/-! ### IPv4 -/

namespace IPv4Address

variable {host : Endian} {a : IPv4Address} {p : ℕ}

/-- The bits of an address. -/
def bits (host : Endian) (a : IPv4Address) (j : ℕ) : Bool :=
  (networkToHost (n := 4) host a.s_addr).getMsbD j

/-- The mask behind a prefix. -/
def hostMask (p : ℕ) : BitVec 32 := BitVec.ofNat 32 (2 ^ (32 - p) - 1)

theorem mask_eq (h : 2 ≤ p) (hp : p ≤ 32) : createMask 32 p = some (hostMask p) :=
  createMask_eq le_rfl hp (by omega)

theorem getMsbD_hostMask (hp : p ≤ 32) (j : ℕ) :
    (hostMask p).getMsbD j = (decide (j < 32) && decide (p ≤ j)) := getMsbD_mask hp

theorem subnetMask_eq (h : 2 ≤ p) (hp : p ≤ 32) : subnetMask host p =
    some ⟨AF_INET, 0, ~~~hostToNetwork (n := 4) host (hostMask p)⟩ := by
  rw [subnetMask, mask_eq h hp]
  rfl

theorem networdAddress_eq (host : Endian) (a : IPv4Address) (h : 2 ≤ p) (hp : p ≤ 32) :
    a.networdAddress host p =
    some (some { a with s_addr := a.s_addr &&& hostToNetwork (n := 4) host (hostMask p) }) := by
  rw [networdAddress, if_neg (by omega), mask_eq h hp]
  rfl

theorem broadcastAddress_eq (h : 2 ≤ p) (hp : p ≤ 32) : a.broadcastAddress host p =
    some (some { a with s_addr := a.s_addr ||| hostToNetwork (n := 4) host (hostMask p) }) := by
  rw [broadcastAddress, if_neg (by omega), mask_eq h hp]
  rfl

theorem subnetMask_none (h : p < 2) : subnetMask host p = none := by
  rw [subnetMask, createMask_none h]
  rfl

/-- The mask is the complement of the one it is made from. -/
theorem bits_subnetMask (hp : p ≤ 32) (family port : BitVec 16) :
    bits host ⟨family, port, ~~~hostToNetwork (n := 4) host (hostMask p)⟩ = TopBits.ones p := by
  funext j
  have hnot := networkToHost_not (n := 4) host (hostToNetwork (n := 4) host (hostMask p))
  rw [networkToHost_hostToNetwork] at hnot
  refine (congrArg (BitVec.getMsbD · j) hnot).trans ?_
  change (~~~hostMask p).getMsbD j = TopBits.ones p j
  rw [BitVec.getMsbD_not, getMsbD_hostMask hp, TopBits.ones]
  by_cases hj : j < p
  · have hj' : j < 32 := by omega
    simp [hj, hj', Nat.not_le.mpr hj]
  · simp [hj, Nat.not_lt.mp hj]

theorem bits_and (x : BitVec 32) (j : ℕ) :
    bits host { a with s_addr := a.s_addr &&& hostToNetwork (n := 4) host x } j =
      (bits host a j && x.getMsbD j) := by
  have hand := networkToHost_and (n := 4) host a.s_addr (hostToNetwork (n := 4) host x)
  rw [networkToHost_hostToNetwork] at hand
  exact (congrArg (BitVec.getMsbD · j) hand).trans BitVec.getMsbD_and

theorem bits_or (x : BitVec 32) (j : ℕ) :
    bits host { a with s_addr := a.s_addr ||| hostToNetwork (n := 4) host x } j =
      (bits host a j || x.getMsbD j) := by
  have hor := networkToHost_or (n := 4) host a.s_addr (hostToNetwork (n := 4) host x)
  rw [networkToHost_hostToNetwork] at hor
  exact (congrArg (BitVec.getMsbD · j) hor).trans BitVec.getMsbD_or

theorem bits_of_le {j : ℕ} (h : 32 ≤ j) : bits host a j = false := BitVec.getMsbD_of_ge _ _ h

theorem bits_eq_false_iff (host : Endian) : (∀ j, bits host a j = false) ↔ a.s_addr = 0 := by
  rw [← networkToHost_eq_zero (n := 4) host]
  constructor
  · intro h
    exact BitVec.eq_of_getMsbD_eq fun j _ => (h j).trans BitVec.getMsbD_zero.symm
  · intro h j
    exact (congrArg (BitVec.getMsbD · j) h).trans BitVec.getMsbD_zero

theorem networdAddress_idem (h : 2 ≤ p) (hp : p ≤ 32) {r : IPv4Address}
    (hr : a.networdAddress host p = some (some r)) : r.networdAddress host p = some (some r) := by
  rw [networdAddress_eq host a h hp] at hr
  obtain rfl := Option.some.inj (Option.some.inj hr)
  rw [networdAddress_eq host _ h hp, BitVec.and_assoc, BitVec.and_self]

/-- `networdAddress` returns the network of the address without bits, and of no other. -/
theorem hasNetwork_iff (host : Endian) (hp : p ≤ 32) :
    HasNetwork (bits host) (port host) p (subnetMask host p)
      (fun a => (a.networdAddress host p).join) a ↔ 2 ≤ p ∧ a.s_addr = 0 := by
  by_cases h : 2 ≤ p
  case neg =>
    rw [HasNetwork, subnetMask_none (Nat.not_le.mp h)]
    simp [h]
  have hnetwork := networdAddress_eq host a h hp
  rw [HasNetwork, subnetMask_eq h hp, hnetwork, ← bits_eq_false_iff host]
  constructor
  · rintro ⟨m, r, -, hr, hnet, -⟩
    obtain rfl := Option.some.inj hr
    refine ⟨h, fun j => ?_⟩
    have hj := congrFun hnet.bits_eq j
    rw [bits_and, getMsbD_hostMask hp, TopBits.keep] at hj
    by_cases hjp : j < p
    · simpa [hjp, Nat.not_le.mpr hjp] using hj.symm
    · by_cases hj' : j < 32
      · simpa [hjp, hj', Nat.not_lt.mp hjp] using hj
      · exact bits_of_le (Nat.not_lt.mp hj')
  · rintro ⟨-, hzero⟩
    refine ⟨_, _, rfl, rfl, ⟨?_, ?_, rfl⟩, ?_⟩
    · funext j
      rw [bits_and, TopBits.keep, hzero j, Bool.false_and, Bool.and_false]
    · intro j
      rw [bits_and, hzero j, Bool.false_and, Bool.false_and]
    · rw [networdAddress_idem h hp hnetwork, Option.join_some]

/-- The mask and the broadcast address are right for every prefix the shift is defined for. -/
theorem hasBroadcast_iff (hp : p ≤ 32) :
    HasBroadcast (bits host) 32 p (subnetMask host p)
      (fun a => (a.broadcastAddress host p).join) a ↔ 2 ≤ p := by
  by_cases h : 2 ≤ p
  case neg =>
    rw [HasBroadcast, subnetMask_none (Nat.not_le.mp h)]
    simp [h]
  rw [HasBroadcast, subnetMask_eq h hp, broadcastAddress_eq h hp]
  refine ⟨fun _ => h, fun _ => ⟨_, _, rfl, rfl, ⟨bits_subnetMask hp _ _, ?_⟩⟩⟩
  intro j hj
  rw [bits_or, bits_subnetMask hp, getMsbD_hostMask hp, TopBits.ones, decide_eq_true hj,
    Bool.true_and, ← decide_not, decide_eq_decide.mpr Nat.not_lt]

end IPv4Address

/-! ### IPv6 -/

namespace IPv6Address

variable {a : IPv6Address} {s : Vector UInt8 16} {v : UInt8} {i j k p stop : ℕ}

/-- A byte of an address, zero outside of it. -/
def octet (s : Vector UInt8 16) (k : ℕ) : UInt8 := s[k]?.getD 0

/-- The bits of an address. -/
def bits (a : IPv6Address) (j : ℕ) : Bool := (octet a.s6_addr (j / 8)).toBitVec.getMsbD (j % 8)

theorem getElem?_eq_octet (h : i < 16) : s[i]? = some (octet s i) := by
  rw [octet, Vector.getElem?_eq_getElem h, Option.getD_some]

theorem octet_of_le (h : 16 ≤ k) : octet s k = 0 := by
  rw [octet, Vector.getElem?_eq_none h, Option.getD_none]

theorem octet_replicate : octet (Vector.replicate 16 0) k = 0 := by
  rw [octet, Vector.getElem?_replicate]
  split
  · rfl
  · rfl

theorem octet_set (h : i < 16) : octet (s.set i v) k = if k = i then v else octet s k := by
  rw [octet, Vector.getElem?_set]
  by_cases hk : i = k
  · simp [hk]
  · simp [hk, Ne.symm hk, octet]

theorem octet_ext {t : Vector UInt8 16} (h : ∀ k, octet s k = octet t k) : s = t := by
  refine Vector.ext fun i hi => ?_
  have hi' := h i
  rwa [octet, octet, Vector.getElem?_eq_getElem hi, Vector.getElem?_eq_getElem hi] at hi'

theorem store_eq (h : i < 16) : store s i v = some (s.set i v) := dif_pos h

theorem store_none (h : 16 ≤ i) : store s i v = none := dif_neg (Nat.not_lt.mpr h)

/-- The loops stay inside of the address. -/
theorem fill_eq (h : stop ≤ 16) (i : ℕ) (s : Vector UInt8 16) : ∃ r, fill v i stop s = some r ∧
    ∀ k, octet r k = if i ≤ k ∧ k < stop then v else octet s k := by
  by_cases hi : i < stop
  · obtain ⟨r, hr, hoctet⟩ := fill_eq h (i + 1) (s.set i v (by omega))
    refine ⟨r, ?_, fun k => ?_⟩
    · rw [fill, if_pos hi, store_eq (by omega), Option.bind_some, hr]
    · rw [hoctet, octet_set]
      by_cases hk : k = i
      · subst hk
        simp [hi]
      · have hlt : i + 1 ≤ k ↔ i ≤ k := by omega
        simp [hk, hlt]
  · refine ⟨s, by rw [fill, if_neg hi], fun k => ?_⟩
    have hk : ¬(i ≤ k ∧ k < stop) := by omega
    rw [if_neg hk]
termination_by stop - i

/-- The mask behind a prefix, in the byte it ends in. -/
def octetMask (p : ℕ) : BitVec 8 := BitVec.ofNat 8 (2 ^ (8 - p % 8) - 1)

theorem mask_eq (p : ℕ) : createMask 8 (p % 8) = some (octetMask p) :=
  createMask_eq (by decide) (by omega) (by omega)

theorem getMsbD_octetMask (h : i < 8) : (octetMask p).getMsbD i = decide (p % 8 ≤ i) := by
  rw [octetMask, getMsbD_mask (by omega), decide_eq_true h, Bool.true_and]

theorem getMsbD_ff (h : i < 8) : (0xff : UInt8).toBitVec.getMsbD i = true := by
  change (BitVec.allOnes 8).getMsbD i = true
  rw [BitVec.getMsbD_allOnes, decide_eq_true h]

theorem getMsbD_00 (i : ℕ) : (0x00 : UInt8).toBitVec.getMsbD i = false := BitVec.getMsbD_zero

/-! What the functions write -/

/-- A byte is stored, and those behind it are filled. -/
theorem store_fill (h : i < 16) (s : Vector UInt8 16) (v w : UInt8) :
    ∃ t r, store s i v = some t ∧ fill w (i + 1) 16 t = some r ∧
      ∀ k, octet r k =
        if k < i then octet s k else if k = i then v else if k < 16 then w else 0 := by
  obtain ⟨r, hr, hoctet⟩ := fill_eq (v := w) le_rfl (i + 1) (s.set i v)
  refine ⟨s.set i v, r, store_eq h, hr, fun k => ?_⟩
  rw [hoctet, octet_set h]
  by_cases hk : k < 16
  · grind
  · have hend : octet s k = 0 := octet_of_le (Nat.not_lt.mp hk)
    have hlt : ¬k < i := by omega
    have hne : k ≠ i := by omega
    simp [hk, hlt, hne, hend]

theorem networdAddress_eq (h : p < 128) : ∃ s, a.networdAddress p = some { a with s6_addr := s } ∧
    ∀ k, octet s k = if k < p / 8 then octet a.s6_addr k
      else if k = p / 8 then octet a.s6_addr (p / 8) &&& .ofBitVec (octetMask p) else 0x00 := by
  have hi : p / 8 < 16 := by omega
  obtain ⟨t, s, ht, hs, hoctet⟩ := store_fill hi a.s6_addr
    (octet a.s6_addr (p / 8) &&& .ofBitVec (octetMask p)) 0x00
  refine ⟨s, ?_, fun k => ?_⟩
  · simp only [networdAddress, getElem?_eq_octet hi, mask_eq, ht, Option.bind_eq_bind,
      Option.bind_some, hs]
    rfl
  · rw [hoctet, ite_self]

theorem broadcastAddress_eq (h : p < 128) :
    ∃ s, a.broadcastAddress p = some { a with s6_addr := s } ∧
    ∀ k < 16, octet s k = if k < p / 8 then octet a.s6_addr k
      else if k = p / 8 then octet a.s6_addr (p / 8) ||| .ofBitVec (octetMask p) else 0xff := by
  have hi : p / 8 < 16 := by omega
  obtain ⟨t, s, ht, hs, hoctet⟩ := store_fill hi a.s6_addr
    (octet a.s6_addr (p / 8) ||| .ofBitVec (octetMask p)) 0xff
  refine ⟨s, ?_, fun k hk => ?_⟩
  · simp only [broadcastAddress, getElem?_eq_octet hi, mask_eq, ht, Option.bind_eq_bind,
      Option.bind_some, hs]
    rfl
  · rw [hoctet, if_pos hk]

theorem subnetMask_eq (h : p < 128) : ∃ s, subnetMask p = some ⟨AF_INET6, 0, s⟩ ∧
    ∀ k, octet s k = if k < p / 8 then 0xff
      else if k = p / 8 then ~~~.ofBitVec (octetMask p) else 0x00 := by
  have hi : p / 8 < 16 := by omega
  obtain ⟨s, hs, hoctet⟩ := fill_eq (v := 0xff) hi.le 0
    ((Vector.replicate 16 0).set (p / 8) (~~~.ofBitVec (octetMask p)))
  refine ⟨s, ?_, fun k => ?_⟩
  · simp only [subnetMask, mask_eq, store_eq hi, Option.bind_eq_bind, Option.bind_some, hs]
    rfl
  · rw [hoctet, octet_set, octet_replicate]
    grind

/-- `s6_addr[16]` -/
theorem subnetMask_none (h : 128 ≤ p) : subnetMask p = none := by
  have hi : 16 ≤ p / 8 := by omega
  simp only [subnetMask, mask_eq, store_none hi, Option.bind_eq_bind, Option.bind_some,
    Option.bind_none]

/-! Their bits -/

theorem octet_eq_zero_iff : octet s k = 0 ↔ ∀ i < 8, (octet s k).toBitVec.getMsbD i = false := by
  constructor
  · intro h i _
    rw [h]
    exact getMsbD_00 i
  · intro h
    refine UInt8.toBitVec_inj.mp (BitVec.eq_of_getMsbD_eq fun i hi => ?_)
    exact (h i hi).trans (getMsbD_00 i).symm

theorem getMsbD_octet_and (h : i < 8) (x : UInt8) :
    (x &&& .ofBitVec (octetMask p)).toBitVec.getMsbD i =
      (x.toBitVec.getMsbD i && decide (p % 8 ≤ i)) := by
  rw [UInt8.toBitVec_and, BitVec.getMsbD_and, UInt8.toBitVec_ofBitVec, getMsbD_octetMask h]

theorem getMsbD_octet_or (h : i < 8) (x : UInt8) :
    (x ||| .ofBitVec (octetMask p)).toBitVec.getMsbD i =
      (x.toBitVec.getMsbD i || decide (p % 8 ≤ i)) := by
  rw [UInt8.toBitVec_or, BitVec.getMsbD_or, UInt8.toBitVec_ofBitVec, getMsbD_octetMask h]

theorem getMsbD_octet_not (h : i < 8) :
    (~~~UInt8.ofBitVec (octetMask p)).toBitVec.getMsbD i = decide (i < p % 8) := by
  rw [UInt8.toBitVec_not, BitVec.getMsbD_not, UInt8.toBitVec_ofBitVec, getMsbD_octetMask h,
    decide_eq_true h, Bool.true_and, ← decide_not, decide_eq_decide, Nat.not_le]

/-- A bit is in front of a prefix's end by its byte, or in the same byte. -/
theorem decide_lt :
    decide (j < p) = decide (j / 8 < p / 8 ∨ j / 8 = p / 8 ∧ j % 8 < p % 8) := by
  rw [decide_eq_decide]
  omega

theorem bits_subnetMask {family port : BitVec 16} (h : ∀ k, octet s k = if k < p / 8 then 0xff
    else if k = p / 8 then ~~~.ofBitVec (octetMask p) else 0x00) :
    bits ⟨family, port, s⟩ = TopBits.ones p := by
  funext j
  have hj : j % 8 < 8 := Nat.mod_lt _ (by decide)
  rw [bits, h, TopBits.ones, decide_lt]
  obtain hlt | heq | hgt := lt_trichotomy (j / 8) (p / 8)
  · rw [if_pos hlt, getMsbD_ff hj]
    simp [hlt]
  · rw [if_neg heq.not_lt, if_pos heq, getMsbD_octet_not hj]
    simp [heq]
  · rw [if_neg hgt.not_gt, if_neg hgt.ne', getMsbD_00]
    simp [hgt.not_gt, hgt.ne']

theorem networdAddress_idem (h : p < 128) {r : IPv6Address} (hr : a.networdAddress p = some r) :
    r.networdAddress p = some r := by
  obtain ⟨s, hs, hoctet⟩ := networdAddress_eq (a := a) h
  obtain rfl := Option.some.inj (hs.symm.trans hr)
  obtain ⟨t, ht, hoctet'⟩ := networdAddress_eq (a := { a with s6_addr := s }) h
  have hst : t = s := by
    refine octet_ext fun k => ?_
    rw [hoctet', hoctet]
    split
    · rfl
    · split
      · change octet s (p / 8) &&& _ = _
        rw [hoctet, if_neg (lt_irrefl _), if_pos rfl, UInt8.and_assoc, UInt8.and_self]
      · rfl
  rw [ht, hst]

/-- With no bits in the byte of its end, the prefix is what is kept. -/
theorem bits_networdAddress (hoctet : ∀ k, octet s k = if k < p / 8 then octet a.s6_addr k
    else if k = p / 8 then octet a.s6_addr (p / 8) &&& .ofBitVec (octetMask p) else 0x00)
    (hzero : octet a.s6_addr (p / 8) = 0) :
    bits { a with s6_addr := s } = TopBits.keep p (bits a) := by
  funext j
  have hj : j % 8 < 8 := Nat.mod_lt _ (by decide)
  rw [TopBits.keep, decide_lt, bits, hoctet]
  obtain hlt | heq | hgt := lt_trichotomy (j / 8) (p / 8)
  · rw [if_pos hlt]
    simp [hlt, bits]
  · rw [if_neg heq.not_lt, if_pos heq, getMsbD_octet_and hj]
    simp [bits, heq, hzero]
  · rw [if_neg hgt.not_gt, if_neg hgt.ne', getMsbD_00]
    simp [hgt.not_gt, hgt.ne']

/-- `networdAddress` returns the network of an address with no bits in the byte that the
prefix ends in, and of no other. -/
theorem hasNetwork_iff (host : Endian) :
    HasNetwork bits (port host) p (subnetMask p) (fun a => a.networdAddress p) a ↔
      p < 128 ∧ octet a.s6_addr (p / 8) = 0 := by
  by_cases h : p < 128
  case neg =>
    rw [HasNetwork, subnetMask_none (Nat.not_lt.mp h)]
    simp [h]
  obtain ⟨m, hm, hmask⟩ := subnetMask_eq h
  obtain ⟨s, hs, hoctet⟩ := networdAddress_eq (a := a) h
  rw [HasNetwork, hm, hs]
  constructor
  · rintro ⟨_, r, -, hr, hnet, -⟩
    obtain rfl := Option.some.inj hr
    refine ⟨h, octet_eq_zero_iff.mpr fun i hi => ?_⟩
    have hdiv : (8 * (p / 8) + i) / 8 = p / 8 := by omega
    have hmod : (8 * (p / 8) + i) % 8 = i := by omega
    have hlt : decide (8 * (p / 8) + i < p) = decide (i < p % 8) := by
      rw [decide_eq_decide]
      omega
    have hj := congrFun hnet.bits_eq (8 * (p / 8) + i)
    rw [TopBits.keep, bits, bits, hdiv, hmod, hoctet, if_neg (lt_irrefl _), if_pos rfl,
      getMsbD_octet_and hi, hlt] at hj
    by_cases hip : i < p % 8
    · simpa [hip, Nat.not_le.mpr hip] using hj.symm
    · simpa [hip, Nat.not_lt.mp hip] using hj
  · rintro ⟨-, hzero⟩
    have hbits := bits_networdAddress hoctet hzero
    refine ⟨_, _, rfl, rfl, ⟨hbits, fun j => ?_, rfl⟩, networdAddress_idem h hs⟩
    rw [hbits, bits_subnetMask hmask, TopBits.keep_eq_and]

/-- The mask and the broadcast address are right for every prefix that ends in the address. -/
theorem hasBroadcast_iff :
    HasBroadcast bits 128 p (subnetMask p) (fun a => a.broadcastAddress p) a ↔ p < 128 := by
  by_cases h : p < 128
  case neg =>
    rw [HasBroadcast, subnetMask_none (Nat.not_lt.mp h)]
    simp [h]
  obtain ⟨m, hm, hmask⟩ := subnetMask_eq h
  obtain ⟨s, hs, hoctet⟩ := broadcastAddress_eq (a := a) h
  rw [HasBroadcast, hm, hs]
  refine ⟨fun _ => h, fun _ => ⟨_, _, rfl, rfl, ⟨bits_subnetMask hmask, fun j hj => ?_⟩⟩⟩
  have hmod : j % 8 < 8 := Nat.mod_lt _ (by decide)
  rw [bits_subnetMask hmask, TopBits.ones, decide_lt, bits,
    hoctet _ (by omega)]
  obtain hlt | heq | hgt := lt_trichotomy (j / 8) (p / 8)
  · rw [if_pos hlt]
    simp [hlt, bits]
  · rw [if_neg heq.not_lt, if_pos heq, getMsbD_octet_or hmod]
    simp [bits, heq, ← decide_not]
  · rw [if_neg hgt.not_gt, if_neg hgt.ne', getMsbD_ff hmod]
    simp [hgt.not_gt, hgt.ne']

end IPv6Address

/-! ### Both families -/

/-- **Networks.** `networdAddress` is right where the mask, whose bits it should clear, has
nothing to keep: for the IPv4 address without bits, and for IPv6 addresses with none in the byte
that the prefix ends in. -/
theorem networks_iff (host : Endian) :
    (∀ (a b : IPv4Address) (p : ℕ), p ≤ 32 →
      let mask := IPv4Address.subnetMask host p
      let network := fun a : IPv4Address => (a.networdAddress host p).join
      HasNetwork (IPv4Address.bits host) (IPv4Address.port host) p mask network a ∧
        HasNetwork (IPv4Address.bits host) (IPv4Address.port host) p mask network b ∧
        NetworksAgree (IPv4Address.bits host) p network a b ↔
      2 ≤ p ∧ a.s_addr = 0 ∧ b.s_addr = 0) ∧
    ∀ (a b : IPv6Address) (p : ℕ), p ≤ 128 →
      let mask := IPv6Address.subnetMask p
      let network := fun a : IPv6Address => a.networdAddress p
      HasNetwork IPv6Address.bits (IPv6Address.port host) p mask network a ∧
        HasNetwork IPv6Address.bits (IPv6Address.port host) p mask network b ∧
        NetworksAgree IPv6Address.bits p network a b ↔
      p < 128 ∧ IPv6Address.octet a.s6_addr (p / 8) = 0 ∧
        IPv6Address.octet b.s6_addr (p / 8) = 0 := by
  constructor
  · intro a b p hp
    constructor
    · rintro ⟨ha, hb, -⟩
      have ha' := (IPv4Address.hasNetwork_iff host hp).mp ha
      exact ⟨ha'.1, ha'.2, ((IPv4Address.hasNetwork_iff host hp).mp hb).2⟩
    · rintro ⟨h, hazero, hbzero⟩
      have ha := (IPv4Address.hasNetwork_iff host hp).mpr ⟨h, hazero⟩
      have hb := (IPv4Address.hasNetwork_iff host hp).mpr ⟨h, hbzero⟩
      exact ⟨ha, hb, ha.agree hb⟩
  · intro a b p _
    constructor
    · rintro ⟨ha, hb, -⟩
      have ha' := (IPv6Address.hasNetwork_iff host).mp ha
      exact ⟨ha'.1, ha'.2, ((IPv6Address.hasNetwork_iff host).mp hb).2⟩
    · rintro ⟨h, hazero, hbzero⟩
      have ha := (IPv6Address.hasNetwork_iff host).mpr ⟨h, hazero⟩
      have hb := (IPv6Address.hasNetwork_iff host).mpr ⟨h, hbzero⟩
      exact ⟨ha, hb, ha.agree hb⟩

/-- 0.0.0.0 and :: are their own networks. -/
theorem networks_any :
    HasNetwork (IPv4Address.bits .little) (IPv4Address.port .little) 24
      (IPv4Address.subnetMask .little 24) (fun a => (a.networdAddress .little 24).join)
      ⟨AF_INET, 0x5000, 0⟩ ∧
    HasNetwork IPv6Address.bits (IPv6Address.port .little) 64
      (IPv6Address.subnetMask 64) (fun a => a.networdAddress 64)
      ⟨AF_INET6, 0x5000, Vector.replicate 16 0⟩ := by
  have hv4 := (networks_iff .little).1 ⟨AF_INET, 0x5000, 0⟩ ⟨AF_INET, 0x5000, 0⟩ 24 (by decide)
  have hv6 := (networks_iff .little).2 ⟨AF_INET6, 0x5000, Vector.replicate 16 0⟩
    ⟨AF_INET6, 0x5000, Vector.replicate 16 0⟩ 64 (by decide)
  exact ⟨(hv4.mpr (by decide)).1, (hv6.mpr (by decide)).1⟩

/-- The network of 192.168.1.5/24 comes out as 0.0.0.5, which is not one. -/
theorem networks_false :
    IPv4Address.networdAddress .little ⟨AF_INET, 0x5000, 0x0501a8c0⟩ 24 =
      some (some ⟨AF_INET, 0x5000, 0x05000000⟩) ∧
    ¬HasNetwork (IPv4Address.bits .little) (IPv4Address.port .little) 24
      (IPv4Address.subnetMask .little 24) (fun a => (a.networdAddress .little 24).join)
      ⟨AF_INET, 0x5000, 0x0501a8c0⟩ := by
  refine ⟨by decide, ?_⟩
  rw [IPv4Address.hasNetwork_iff .little (by decide)]
  decide

/-- **Broadcast addresses** and masks are right for every prefix but the two shortest ones of
IPv4, where the shift of `CreateMask` or the difference behind it is undefined, and the longest
one of IPv6, where the byte behind the address is written. -/
theorem broadcasts_iff (host : Endian) :
    (∀ (a : IPv4Address) (p : ℕ), p ≤ 32 →
      (HasBroadcast (IPv4Address.bits host) 32 p (IPv4Address.subnetMask host p)
        (fun a => (a.broadcastAddress host p).join) a ↔ 2 ≤ p)) ∧
    ∀ (a : IPv6Address) (p : ℕ), p ≤ 128 →
      (HasBroadcast IPv6Address.bits 128 p (IPv6Address.subnetMask p)
        (fun a => a.broadcastAddress p) a ↔ p < 128) :=
  ⟨fun _ _ hp => IPv4Address.hasBroadcast_iff hp, fun _ _ _ => IPv6Address.hasBroadcast_iff⟩

/-- The masks and broadcast addresses of 10.0.0.0/8 and of the default route of IPv6. -/
theorem broadcasts_any :
    HasBroadcast (IPv4Address.bits .little) 32 8 (IPv4Address.subnetMask .little 8)
      (fun a => (a.broadcastAddress .little 8).join) ⟨AF_INET, 0, 0x0000000a⟩ ∧
    HasBroadcast IPv6Address.bits 128 0 (IPv6Address.subnetMask 0)
      (fun a => a.broadcastAddress 0) ⟨AF_INET6, 0, Vector.replicate 16 0⟩ := by
  have hv4 := (broadcasts_iff .little).1 ⟨AF_INET, 0, 0x0000000a⟩ 8 (by decide)
  have hv6 := (broadcasts_iff .little).2 ⟨AF_INET6, 0, Vector.replicate 16 0⟩ 0 (by decide)
  exact ⟨hv4.mpr (by decide), hv6.mpr (by decide)⟩

/-- The default route of IPv4 and a single IPv6 address have none. -/
theorem broadcasts_false :
    ¬HasBroadcast (IPv4Address.bits .little) 32 0 (IPv4Address.subnetMask .little 0)
      (fun a => (a.broadcastAddress .little 0).join) ⟨AF_INET, 0, 0⟩ ∧
    ¬HasBroadcast IPv6Address.bits 128 128 (IPv6Address.subnetMask 128)
      (fun a => a.broadcastAddress 128) ⟨AF_INET6, 0, Vector.replicate 16 0⟩ := by
  rw [IPv4Address.hasBroadcast_iff (by decide), IPv6Address.hasBroadcast_iff]
  decide

end Easy.Net
