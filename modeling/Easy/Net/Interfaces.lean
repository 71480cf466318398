import Easy.Lib.Ones
import Easy.Net.Subnets

/-!
The addresses of interfaces: `BitCount` and `GetInterfaceAddresses` of `easy/net/Address.cc`.

The length of a prefix is the number of bits that the netmask has set, in whatever order the host
reads them. `subnetMask` makes the netmask from it again, for the prefixes it is defined for.
-/

namespace Easy.Net

open Lib

/-! ### `BitCount` -/

section bitCount

variable {w : ℕ}

theorem toNat_sub_one {value : BitVec w} (h : value ≠ 0) :
    (value - 1).toNat = value.toNat - 1 := by
  have hpos : 0 < value.toNat := Nat.pos_of_ne_zero fun hzero => h (BitVec.eq_of_toNat_eq hzero)
  have hlt := value.isLt
  have hwidth : 1 < 2 ^ w := by omega
  have hone : (1 : BitVec w).toNat = 1 := (BitVec.toNat_ofNat 1 w).trans (Nat.mod_eq_of_lt hwidth)
  have hsum : 2 ^ w - 1 + value.toNat = value.toNat - 1 + 2 ^ w := by omega
  rw [BitVec.toNat_sub, hone, hsum, Nat.add_mod_right, Nat.mod_eq_of_lt (by omega)]

/-- The loop of `BitCount<T>`. -/
def bitCountLoop (value result : BitVec w) : BitVec w :=
  -- each round clears the lowest one
  if value = 0 then result else bitCountLoop (value &&& (value - 1)) (result + 1)
termination_by value.toNat
decreasing_by
  rename_i h
  have hpos : 0 < value.toNat := Nat.pos_of_ne_zero fun hzero => h (BitVec.eq_of_toNat_eq hzero)
  rw [BitVec.toNat_and, toNat_sub_one h]
  exact Nat.and_le_right.trans_lt (by omega)

def bitCount (value : BitVec w) : BitVec w := bitCountLoop value 0

theorem bitCountLoop_eq (value result : BitVec w) :
    bitCountLoop value result = result + BitVec.ofNat w (Ones.count w value.toNat) := by
  induction value, result using bitCountLoop.induct with
  | case1 result =>
      rw [bitCountLoop, if_pos rfl]
      simp
  | case2 value result h ih =>
      have hcount := Ones.count_and_pred (n := value.toNat)
        (fun hzero => h (BitVec.eq_of_toNat_eq hzero)) value.isLt
      rw [bitCountLoop, if_neg h, ih, BitVec.toNat_and, toNat_sub_one h, ← hcount,
        BitVec.add_assoc, BitVec.ofNat_add, BitVec.add_comm (BitVec.ofNat w _)]
      rfl

/-- **`BitCount`** counts the ones. -/
theorem toNat_bitCount (value : BitVec w) :
    (bitCount value).toNat = Ones.count w value.toNat := by
  have hlt := (Ones.count_le w value.toNat).trans_lt Nat.lt_two_pow_self
  rw [bitCount, bitCountLoop_eq]
  refine (congrArg BitVec.toNat (BitVec.zero_add _)).trans ?_
  rw [BitVec.toNat_ofNat, Nat.mod_eq_of_lt hlt]

/-- From the other end. -/
theorem countP_getMsbD (value : BitVec w) :
    (List.range w).countP value.getMsbD = Ones.count w value.toNat := by
  -- bit `j` from the top is bit `w - 1 - j`
  have hreverse : (List.range w).reverse = (List.range w).map fun j => w - 1 - j := by
    rw [List.range_eq_range', List.reverse_range', Nat.zero_add, List.range_eq_range']
  rw [Ones.count, ← List.countP_reverse, hreverse, List.countP_map]
  refine List.countP_congr fun j hj => ?_
  have hj := List.mem_range.mp hj
  have hback : w - 1 - (w - 1 - j) = j := by omega
  have hlt : w - 1 - j < w := by omega
  rw [Function.comp_apply, BitVec.getMsbD, hback, decide_eq_true hlt, Bool.true_and]
  rfl

end bitCount

/-! ### Interfaces -/

def AF_UNSPEC : BitVec 16 := 0

/-- An address with its netmask, by `sa_family`. A null netmask is `none`. -/
inductive IfAddr
  | inet (addr : IPv4Address) (netmask : Option IPv4Address)
  | inet6 (addr : IPv6Address) (netmask : Option IPv6Address)
  | other (sa_family : BitVec 16)

def IfAddr.saFamily : IfAddr → BitVec 16
  | inet .. => AF_INET
  | inet6 .. => AF_INET6
  | other sa_family => sa_family

/-- `struct ifaddrs`. An interface without an address has a null pointer for it, `none`. -/
structure Ifaddrs where
  ifa_name : String
  ifa_addr : Option IfAddr

inductive IPAddress
  | v4 (a : IPv4Address)
  | v6 (a : IPv6Address)

/-- The loop over the bytes of an IPv6 netmask. -/
def bitCount6 (s6_addr : Vector UInt8 16) : BitVec 32 :=
  (List.range 16).foldl (fun prefix_len i =>
    prefix_len + (bitCount (IPv6Address.octet s6_addr i).toBitVec).setWidth 32) 0

/-- What is inserted for an interface, if anything; `none` is a null pointer that is followed. -/
def Ifaddrs.entry (family : BitVec 16) (next : Ifaddrs) :
    Option (Option (IPAddress × BitVec 32)) := do
  let ifa_addr ← next.ifa_addr
  if family ≠ AF_UNSPEC ∧ family ≠ ifa_addr.saFamily then return none
  match ifa_addr with
  | .inet addr netmask => return some (.v4 addr, bitCount (← netmask).s_addr)
  | .inet6 addr netmask => return some (.v6 addr, bitCount6 (← netmask).s6_addr)
  | .other _ => return none

/-- The loop over the interfaces. A `multimap` is the list of what was inserted. -/
def insertLoop (family : BitVec 16) :
    List Ifaddrs → List (String × IPAddress × BitVec 32) →
      Option (List (String × IPAddress × BitVec 32))
  | [], result => some result
  | next :: results, result => do
    let e ← next.entry family
    insertLoop family results (result ++ e.toList.map fun e => (next.ifa_name, e))

/-- `GetInterfaceAddresses` of all interfaces. -/
def getInterfaceAddresses (getifaddrs : Option (List Ifaddrs))
    (result : List (String × IPAddress × BitVec 32)) (family : BitVec 16) :
    Option (Bool × List (String × IPAddress × BitVec 32)) :=
  match getifaddrs with
  | none => some (false, result)
  | some results =>
    (insertLoop family results result).map fun result => (!result.isEmpty, result)

/-- `GetInterfaceAddresses` of one interface. -/
def getInterfaceAddressesOf (getifaddrs : Option (List Ifaddrs))
    (result : List (IPAddress × BitVec 32)) (iface : String) (family : BitVec 16) :
    Option (Bool × List (IPAddress × BitVec 32)) :=
  if iface = "" ∨ iface = "*" then
    let result := if family = AF_INET ∨ family = AF_UNSPEC then
      result ++ [(.v4 ⟨AF_INET, 0, 0⟩, 0)] else result
    let result := if family = AF_INET6 ∨ family = AF_UNSPEC then
      result ++ [(.v6 ⟨AF_INET6, 0, Vector.replicate 16 0⟩, 0)] else result
    some (true, result)
  else
    (getInterfaceAddresses getifaddrs [] family).map fun (ok, results) =>
      if !ok then (false, result)
      else
        let result := result ++ (results.filter (·.1 = iface)).map (·.2)
        (!result.isEmpty, result)

/-! ### Prefixes -/

/-- The bytes in the order of the network have the same bits. -/
theorem count_networkToHost (host : Endian) (v : BitVec 32) :
    Ones.count 32 (networkToHost (n := 4) host v).toNat = Ones.count 32 v.toNat := by
  cases host with
  | big => rfl
  | little =>
      -- swapping bytes permutes the bits
      have hperm : ((List.range 32).map fun i => 8 * (4 - 1 - i / 8) + i % 8).Perm
          (List.range 32) := by decide
      rw [Ones.count, Ones.count, ← hperm.countP_eq v.toNat.testBit, List.countP_map]
      refine List.countP_congr fun i hi => ?_
      have hbit := getLsbD_byteswap (n := 4) v (i := i) (List.mem_range.mp hi)
      exact Bool.eq_iff_iff.mp hbit

theorem toNat_bitCount4 (host : Endian) (a : IPv4Address) :
    (bitCount a.s_addr).toNat = (List.range 32).countP (a.bits host) := by
  rw [toNat_bitCount, ← count_networkToHost host, ← countP_getMsbD]
  rfl

/-- The sum of the bytes. -/
theorem toNat_foldl (f : ℕ → BitVec 8) (l : List ℕ) (prefix_len : BitVec 32)
    (h : prefix_len.toNat + 8 * l.length < 2 ^ 32) :
    (l.foldl (fun n i => n + (bitCount (f i)).setWidth 32) prefix_len).toNat =
      prefix_len.toNat + (l.map fun i => Ones.count 8 (f i).toNat).sum := by
  induction l generalizing prefix_len with
  | nil => rfl
  | cons i l ih =>
      have hle := Ones.count_le 8 (f i).toNat
      rw [List.length_cons] at h
      have hnext : (prefix_len + (bitCount (f i)).setWidth 32).toNat =
          prefix_len.toNat + Ones.count 8 (f i).toNat := by
        rw [BitVec.toNat_add, BitVec.toNat_setWidth, toNat_bitCount]
        omega
      rw [List.foldl_cons, ih _ (by omega), hnext, List.map_cons, List.sum_cons, Nat.add_assoc]

theorem toNat_bitCount6 (a : IPv6Address) :
    (bitCount6 a.s6_addr).toNat = (List.range 128).countP a.bits := by
  have hrange : List.range 128 = (List.range 16).flatMap fun i =>
      (List.range 8).map fun r => 8 * i + r := by decide
  rw [bitCount6, toNat_foldl _ _ _ (by decide), hrange, List.countP_flatMap]
  refine (Nat.zero_add _).trans (congrArg List.sum (List.map_congr_left fun i _ => ?_))
  rw [← countP_getMsbD, Function.comp_apply, List.countP_map]
  refine List.countP_congr fun r hr => ?_
  have hr := List.mem_range.mp hr
  have hdiv : (8 * i + r) / 8 = i := by omega
  have hmod : (8 * i + r) % 8 = r := by omega
  rw [Function.comp_apply, IPv6Address.bits, hdiv, hmod]

/-- What is reported of an interface: its address, and the length of the prefix that its netmask
has, from which `subnetMask` makes the netmask. -/
inductive Describes (host : Endian) : IfAddr → IPAddress → BitVec 32 → Prop
  | inet {addr netmask : IPv4Address} {prefix_len : BitVec 32}
    (h : ∀ p ≤ 32, netmask.bits host = TopBits.ones p → prefix_len.toNat = p ∧
      (2 ≤ p → (IPv4Address.subnetMask host prefix_len.toNat).map (IPv4Address.bits host) =
        some (netmask.bits host))) :
    Describes host (.inet addr (some netmask)) (.v4 addr) prefix_len
  | inet6 {addr netmask : IPv6Address} {prefix_len : BitVec 32}
    (h : ∀ p ≤ 128, netmask.bits = TopBits.ones p → prefix_len.toNat = p ∧
      (p < 128 → (IPv6Address.subnetMask prefix_len.toNat).map IPv6Address.bits =
        some netmask.bits)) :
    Describes host (.inet6 addr (some netmask)) (.v6 addr) prefix_len

theorem describes_inet (host : Endian) (addr netmask : IPv4Address) :
    Describes host (.inet addr (some netmask)) (.v4 addr) (bitCount netmask.s_addr) := by
  refine .inet fun p hp hmask => ?_
  have hlen : (bitCount netmask.s_addr).toNat = p := by
    rw [toNat_bitCount4 host, hmask]
    exact Ones.countP_lt hp
  refine ⟨hlen, fun h => ?_⟩
  rw [hlen, IPv4Address.subnetMask_eq h hp, Option.map_some, IPv4Address.bits_subnetMask hp, hmask]

theorem describes_inet6 (host : Endian) (addr netmask : IPv6Address) :
    Describes host (.inet6 addr (some netmask)) (.v6 addr) (bitCount6 netmask.s6_addr) := by
  refine .inet6 fun p hp hmask => ?_
  have hlen : (bitCount6 netmask.s6_addr).toNat = p := by
    rw [toNat_bitCount6, hmask]
    exact Ones.countP_lt hp
  refine ⟨hlen, fun h => ?_⟩
  obtain ⟨s, hs, hoctets⟩ := IPv6Address.subnetMask_eq h
  rw [hlen, hs, Option.map_some, IPv6Address.bits_subnetMask hoctets, hmask]

/-! ### Null pointers -/

def IfAddr.hasNetmask : IfAddr → Bool
  | inet _ netmask => netmask.isSome
  | inet6 _ netmask => netmask.isSome
  | other _ => true

variable {family : BitVec 16} {next : Ifaddrs}

/-- No null pointer of the interface is followed: it has an address, and a netmask where that is
an internet address of the family. -/
def Ifaddrs.Readable (family : BitVec 16) (next : Ifaddrs) : Prop :=
  ∃ a, next.ifa_addr = some a ∧ (family = AF_UNSPEC ∨ family = a.saFamily → a.hasNetmask)

/-- An interface that is passed over, or reported. -/
theorem entry_cases (host : Endian) {a : IfAddr} (ha : next.ifa_addr = some a) :
    (¬(family = AF_UNSPEC ∨ family = a.saFamily) ∧ next.entry family = some none) ∨
    ((family = AF_UNSPEC ∨ family = a.saFamily) ∧
      ((∃ f, a = .other f) ∧ next.entry family = some none ∨
        (∀ f, a ≠ .other f) ∧ a.hasNetmask = false ∧ next.entry family = none ∨
        (∀ f, a ≠ .other f) ∧ a.hasNetmask = true ∧
          ∃ e, next.entry family = some (some e) ∧ Describes host a e.1 e.2)) := by
  by_cases hfamily : family = AF_UNSPEC ∨ family = a.saFamily
  · refine .inr ⟨hfamily, ?_⟩
    have hnot : ¬(family ≠ AF_UNSPEC ∧ family ≠ a.saFamily) := fun h => hfamily.elim h.1 h.2
    rw [Ifaddrs.entry, ha, Option.bind_eq_bind, Option.bind_some, if_neg hnot]
    match a with
    -- the netmask is read without a look at the pointer
    | .inet addr none => exact .inr (.inl ⟨by simp, rfl, rfl⟩)
    | .inet addr (some netmask) =>
      exact .inr (.inr ⟨by simp, rfl, _, rfl, describes_inet host addr netmask⟩)
    | .inet6 addr none => exact .inr (.inl ⟨by simp, rfl, rfl⟩)
    | .inet6 addr (some netmask) =>
      exact .inr (.inr ⟨by simp, rfl, _, rfl, describes_inet6 host addr netmask⟩)
    | .other f => exact .inl ⟨⟨f, rfl⟩, rfl⟩
  · refine .inl ⟨hfamily, ?_⟩
    rw [Ifaddrs.entry, ha, Option.bind_eq_bind, Option.bind_some, if_pos (not_or.mp hfamily)]
    rfl

theorem isSome_entry_iff : (next.entry family).isSome ↔ next.Readable family := by
  cases ha : next.ifa_addr with
  | none => simp [Ifaddrs.entry, Ifaddrs.Readable, ha]
  | some a =>
      simp only [Ifaddrs.Readable, ha, Option.some.injEq, exists_eq_left']
      rcases entry_cases .little ha with
        ⟨hfamily, he⟩ | ⟨hfamily, ⟨⟨f, rfl⟩, he⟩ | ⟨-, hmask, he⟩ | ⟨-, hmask, e, he, -⟩⟩
      · exact iff_of_true (by rw [he]; rfl) fun h => absurd h hfamily
      · exact iff_of_true (by rw [he]; rfl) fun _ => rfl
      · simp [he, hfamily, hmask]
      · exact iff_of_true (by rw [he]; rfl) fun _ => hmask

theorem isSome_insertLoop_iff {l : List Ifaddrs} {result : List (String × IPAddress × BitVec 32)} :
    (insertLoop family l result).isSome ↔ ∀ next ∈ l, next.Readable family := by
  induction l generalizing result with
  | nil => simp [insertLoop]
  | cons next l ih =>
      rw [List.forall_mem_cons, ← isSome_entry_iff, insertLoop]
      cases next.entry family with
      | none => simp
      | some e => simpa using ih

/-- What the loop has inserted. -/
theorem mem_insertLoop {l : List Ifaddrs} {result r : List (String × IPAddress × BitVec 32)}
    (h : insertLoop family l result = some r) (x : String × IPAddress × BitVec 32) :
    x ∈ r ↔ x ∈ result ∨ ∃ next ∈ l, ∃ e, next.entry family = some (some e) ∧
      (next.ifa_name, e) = x := by
  induction l generalizing result with
  | nil =>
      obtain rfl := Option.some.inj h
      simp
  | cons next l ih =>
      rw [insertLoop] at h
      obtain ⟨e, he, hrest⟩ := Option.bind_eq_some_iff.mp h
      rw [ih hrest, List.mem_append, or_assoc]
      refine or_congr_right ?_
      simp only [List.mem_map, Option.mem_toList, List.mem_cons, exists_eq_or_imp,
        he, Option.some.injEq]

/-! ### The addresses of an interface -/

variable {iface : String} {l : List Ifaddrs}

/-- The interfaces of a name. -/
theorem mem_getInterfaceAddressesOf (hiface : iface ≠ "" ∧ iface ≠ "*") {ok : Bool}
    {result : List (IPAddress × BitVec 32)}
    (h : getInterfaceAddressesOf (some l) [] iface family = some (ok, result))
    (e : IPAddress × BitVec 32) : e ∈ result ↔
      ∃ next ∈ l, next.ifa_name = iface ∧ next.entry family = some (some e) := by
  rw [getInterfaceAddressesOf, if_neg (by simp [hiface]), getInterfaceAddresses,
    Option.map_map] at h
  obtain ⟨r, hr, heq⟩ := Option.map_eq_some_iff.mp h
  have hall := mem_insertLoop hr
  have hmem : e ∈ (r.filter (·.1 = iface)).map (·.2) ↔
      ∃ next ∈ l, next.ifa_name = iface ∧ next.entry family = some (some e) := by
    simp only [List.mem_map, List.mem_filter, hall, decide_eq_true_eq, List.not_mem_nil, false_or]
    constructor
    · rintro ⟨-, ⟨⟨next, hnext, e, he, rfl⟩, hname⟩, rfl⟩
      exact ⟨next, hnext, hname, he⟩
    · rintro ⟨next, hnext, hname, he⟩
      exact ⟨(next.ifa_name, e), ⟨⟨next, hnext, e, he, rfl⟩, hname⟩, rfl⟩
  rw [← hmem]
  cases r with
  -- the inner call returns false, and the result stays as it is
  | nil =>
      obtain ⟨-, rfl⟩ := Prod.mk.inj heq
      simp
  | cons x r =>
      obtain ⟨-, rfl⟩ := Prod.mk.inj heq
      exact Iff.rfl

theorem isSome_getInterfaceAddressesOf_iff (hiface : iface ≠ "" ∧ iface ≠ "*") :
    (getInterfaceAddressesOf (some l) [] iface family).isSome ↔
      ∀ next ∈ l, next.Readable family := by
  rw [getInterfaceAddressesOf, if_neg (by simp [hiface]), getInterfaceAddresses,
    Option.isSome_map, Option.isSome_map, isSome_insertLoop_iff]

/-- **The addresses of an interface.** The call comes to an end if no interface has a null pointer
that is followed. Then the result is what `getifaddrs` has of the name and the family, each
address with the length of its prefix. -/
theorem getInterfaceAddressesOf_describes (host : Endian) (hiface : iface ≠ "" ∧ iface ≠ "*") :
    ((getInterfaceAddressesOf (some l) [] iface family).isSome ↔
      ∀ next ∈ l, next.Readable family) ∧
    ∀ ok result, getInterfaceAddressesOf (some l) [] iface family = some (ok, result) →
      (∀ e ∈ result, ∃ next ∈ l, next.ifa_name = iface ∧ ∃ a, next.ifa_addr = some a ∧
        (family = AF_UNSPEC ∨ family = a.saFamily) ∧ Describes host a e.1 e.2) ∧
      ∀ next ∈ l, next.ifa_name = iface → ∀ a, next.ifa_addr = some a →
        (family = AF_UNSPEC ∨ family = a.saFamily) → (∀ f, a ≠ .other f) →
          ∃ e ∈ result, Describes host a e.1 e.2 := by
  refine ⟨isSome_getInterfaceAddressesOf_iff hiface, fun ok result h =>
    ⟨fun e he => ?_, fun next hnext hname a ha hfamily hip => ?_⟩⟩
  · obtain ⟨next, hnext, hname, he⟩ := (mem_getInterfaceAddressesOf hiface h e).mp he
    refine ⟨next, hnext, hname, ?_⟩
    obtain ⟨a, ha, -⟩ := isSome_entry_iff.mp (Option.isSome_of_eq_some he)
    rcases entry_cases host ha with
      ⟨-, heq⟩ | ⟨hfamily, ⟨-, heq⟩ | ⟨-, -, heq⟩ | ⟨-, -, e', heq, hdescribes⟩⟩
    · cases he.symm.trans heq
    · cases he.symm.trans heq
    · cases he.symm.trans heq
    · obtain rfl := Option.some.inj (Option.some.inj (he.symm.trans heq))
      exact ⟨a, ha, hfamily, hdescribes⟩
  · have hreadable :=
      (isSome_getInterfaceAddressesOf_iff hiface).mp (Option.isSome_of_eq_some h)
    rcases entry_cases host ha with
      ⟨hnot, -⟩ | ⟨-, ⟨⟨f, rfl⟩, -⟩ | ⟨-, -, hnone⟩ | ⟨-, -, e, heq, hdescribes⟩⟩
    · exact absurd hfamily hnot
    · exact absurd rfl (hip f)
    · have hentry := isSome_entry_iff.mpr (hreadable next hnext)
      simp [hnone] at hentry
    · exact ⟨e, (mem_getInterfaceAddressesOf hiface h e).mpr ⟨next, hnext, hname, heq⟩, hdescribes⟩

/-- 192.168.1.5/24, as a little-endian host reads it. -/
def eth : Ifaddrs :=
  ⟨"eth0", some (.inet ⟨AF_INET, 0, 0x0501a8c0⟩ (some ⟨AF_INET, 0, 0x00ffffff⟩))⟩

theorem getInterfaceAddressesOf_describes_eth :
    ∃ result, getInterfaceAddressesOf (some [eth]) [] "eth0" AF_UNSPEC = some (true, result) ∧
      ∃ e ∈ result, e.2.toNat = 24 := by
  have hrun : (getInterfaceAddressesOf (some [eth]) [] "eth0" AF_UNSPEC).map Prod.fst =
      some true := by decide +kernel
  obtain ⟨⟨_, result⟩, hcall, rfl⟩ := Option.map_eq_some_iff.mp hrun
  obtain ⟨⟨a, prefix_len⟩, he, hdescribes⟩ := ((getInterfaceAddressesOf_describes .little
    (by decide)).2 true result hcall).2 eth List.mem_cons_self rfl _ rfl (.inl rfl) (by simp)
  refine ⟨result, hcall, _, he, ?_⟩
  have hmask : IPv4Address.bits .little ⟨AF_INET, 0, 0x00ffffff⟩ = TopBits.ones 24 := by
    have haddr : (0x00ffffff : BitVec 32) =
        ~~~hostToNetwork (n := 4) .little (IPv4Address.hostMask 24) := by decide
    rw [haddr]
    exact IPv4Address.bits_subnetMask (by decide) _ _
  cases hdescribes with
  | inet h => exact (h 24 (by decide) hmask).1

/-- An interface without an address, such as that of a tunnel, in front of it. -/
example : getInterfaceAddressesOf (some [⟨"tun0", none⟩, eth]) [] "eth0" AF_UNSPEC = none := rfl

end Easy.Net
