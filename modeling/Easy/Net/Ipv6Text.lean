import Mathlib.Data.List.Basic
import Mathlib.Data.List.TakeWhile
import Easy.Lib.Digits
import Easy.Net.Address

/-!
The text of an IPv6 address (`IPv6Address::insert` of `easy/net/Address.cc`).

`Denotes` is the grammar of RFC 4291 without the form that ends in dotted decimals: eight groups
of hexadecimal digits, or fewer with one `::` that stands for the missing groups, which are
zero. A text is split at its colons to see that it denotes one address at most.

`insert` goes over the groups once. It passes over the zeros in front of the first group that is
not zero behind a zero, and writes all that follow.
-/

namespace Easy.Net

open Lib Lib.Digits

/-! ### The grammar -/

/-- One to four hexadecimal digits. -/
def HexGroup (s : List Char) : Prop := s ≠ [] ∧ s.length ≤ 4 ∧ ∀ c ∈ s, c.toLower ∈ hexDigits

/-- One to four hexadecimal digits in lower case. -/
def LowerGroup (s : List Char) : Prop := s ≠ [] ∧ s.length ≤ 4 ∧ ∀ c ∈ s, c ∈ hexDigits

/-- Groups with colons between them. -/
def joined (groups : List (List Char)) : List Char := [':'].intercalate groups

/-- The texts of addresses, and the groups of the addresses. -/
inductive Denotes (Group : List Char → Prop) : List Char → List ℕ → Prop
  | full {groups : List (List Char)} (hlen : groups.length = 8) (h : ∀ g ∈ groups, Group g) :
      Denotes Group (joined groups) (groups.map hexValue)
  | zeros {left right : List (List Char)} (hlen : left.length + right.length ≤ 7)
      (hleft : ∀ g ∈ left, Group g) (hright : ∀ g ∈ right, Group g) :
      Denotes Group (joined left ++ ':' :: ':' :: joined right)
        (left.map hexValue ++ List.replicate (8 - (left.length + right.length)) 0 ++
          right.map hexValue)

theorem LowerGroup.hexGroup {s : List Char} (h : LowerGroup s) : HexGroup s := by
  have hlower : hexDigits.all fun c => c.toLower ∈ hexDigits := by decide
  exact ⟨h.1, h.2.1, fun c hc => of_decide_eq_true (List.all_eq_true.mp hlower c (h.2.2 c hc))⟩

theorem HexGroup.no_colon {s : List Char} (h : HexGroup s) : ':' ∉ s := fun hc =>
  absurd (h.2.2 ':' hc) (by decide)

section

variable {s u v u' v' : List Char} {groups left right rest : List (List Char)} {gs gs' : List ℕ}

theorem joined_cons_cons (g g' : List Char) (groups : List (List Char)) :
    joined (g :: g' :: groups) = g ++ ':' :: joined (g' :: groups) := by
  simp [joined]

theorem Denotes.imp {Group Group' : List Char → Prop} (himp : ∀ s, Group s → Group' s)
    (h : Denotes Group s gs) : Denotes Group' s gs := by
  cases h with
  | full hlen h => exact .full hlen fun g hg => himp g (h g hg)
  | zeros hlen hleft hright =>
      exact .zeros hlen (fun g hg => himp g (hleft g hg)) fun g hg => himp g (hright g hg)

/-! ### A text denotes one address -/

/-- What groups are split into: without groups there is an empty field. -/
def fields (groups : List (List Char)) : List (List Char) := if groups = [] then [[]] else groups

theorem splitOn_joined (h : ∀ g ∈ groups, HexGroup g) :
    (joined groups).splitOn ':' = fields groups := by
  rw [fields]
  split
  case isTrue hnil => rw [hnil]; rfl
  case isFalse hne => exact List.splitOn_intercalate ':' (fun g hg => (h g hg).no_colon) hne

theorem splitOn_colons (u v : List Char) :
    (u ++ ':' :: ':' :: v).splitOn ':' = u.splitOn ':' ++ [] :: v.splitOn ':' := by
  have hbehind : (':' :: v).splitOn ':' = [] :: v.splitOn ':' :=
    List.splitOn_append_cons_self [] v
  rw [List.splitOn_append_cons_self, hbehind]

/-- Only without groups a field is empty. -/
theorem eq_nil_of_nil_mem_fields (h : ∀ g ∈ groups, HexGroup g) (hmem : [] ∈ fields groups) :
    fields groups = [[]] := by
  rw [fields] at hmem ⊢
  split at hmem
  case isTrue hnil => exact if_pos hnil
  case isFalse => exact absurd rfl (h [] hmem).1

/-- The groups in front of the empty field in the middle. -/
theorem takeWhile_fields (h : ∀ g ∈ groups, HexGroup g) (rest : List (List Char)) :
    (fields groups ++ [] :: rest).takeWhile (· ≠ []) = groups := by
  rw [fields]
  split
  case isTrue hnil => rw [hnil]; rfl
  case isFalse =>
    rw [List.takeWhile_append_of_pos fun g hg => decide_eq_true (h g hg).1]
    simp

/-- The value of a text that is split. -/
def fieldsValue (fs : List (List Char)) : List ℕ :=
  if [] ∈ fs then
    let left := fs.takeWhile (· ≠ [])
    let right := (fs.reverse.takeWhile (· ≠ [])).reverse
    left.map hexValue ++ List.replicate (8 - (left.length + right.length)) 0 ++ right.map hexValue
  else fs.map hexValue

theorem Denotes.eq_value (h : Denotes HexGroup s gs) : gs = fieldsValue (s.splitOn ':') := by
  cases h with
  | @full groups hlen h =>
      have hne : groups ≠ [] := fun hnil => by simp [hnil] at hlen
      rw [splitOn_joined h, fieldsValue, fields, if_neg hne, if_neg fun hnil => (h [] hnil).1 rfl]
  | @zeros left right hlen hleft hright =>
      have hreverse : (fields right).reverse = fields right.reverse := by
        rw [fields, fields]
        by_cases hnil : right = []
        · rw [hnil]; rfl
        · rw [if_neg hnil, if_neg (by simpa using hnil)]
      have hright' : ((fields left ++ [] :: fields right).reverse.takeWhile (· ≠ [])).reverse =
          right := by
        rw [List.reverse_append, List.reverse_cons, List.append_assoc, List.singleton_append,
          hreverse, takeWhile_fields fun g hg => hright g (List.mem_reverse.mp hg),
          List.reverse_reverse]
      rw [splitOn_colons, splitOn_joined hleft, splitOn_joined hright, fieldsValue,
        if_pos (by simp)]
      simp only [takeWhile_fields hleft, hright']

/-- **A text** denotes one address at most. -/
theorem Denotes.unique (h : Denotes HexGroup s gs) (h' : Denotes HexGroup s gs') : gs = gs' :=
  h.eq_value.trans h'.eq_value.symm

/-- The empty field in the middle is the only one that has others on both sides. -/
theorem eq_fields_of_append (hleft : ∀ g ∈ left, HexGroup g) (hright : ∀ g ∈ right, HexGroup g)
    {as bs : List (List Char)} (has : as ≠ []) (hbs : bs ≠ [])
    (h : as ++ [] :: bs = fields left ++ [] :: fields right) : as = fields left := by
  rcases List.append_eq_append_iff.mp h with ⟨cs, hfields, hcs⟩ | ⟨cs, hfields, hcs⟩
  · cases cs with
    | nil => simpa using hfields.symm
    | cons c cs =>
        obtain rfl := (List.cons.inj hcs).1
        have hone := eq_nil_of_nil_mem_fields hleft (hfields ▸ by simp)
        have hlen := congrArg List.length (hone.symm.trans hfields)
        have hpos := List.length_pos_of_ne_nil has
        simp at hlen
        omega
  · cases cs with
    | nil => simpa using hfields
    | cons c cs =>
        have htail : fields right = cs ++ [] :: bs := (List.cons.inj hcs).2
        have hone := eq_nil_of_nil_mem_fields hright (htail ▸ by simp)
        have hlen := congrArg List.length (hone.symm.trans htail)
        have hpos := List.length_pos_of_ne_nil hbs
        simp at hlen
        omega

/-- **Two colons** stand in one place of a text at most. -/
theorem Denotes.colons_once (h : Denotes HexGroup s gs) (hu : s = u ++ ':' :: ':' :: v)
    (hu' : s = u' ++ ':' :: ':' :: v') : u = u' := by
  cases h with
  | @full groups hlen h =>
      have hne : groups ≠ [] := fun hnil => by simp [hnil] at hlen
      have hsplit := splitOn_colons u v
      rw [← hu, splitOn_joined h, fields, if_neg hne] at hsplit
      exact absurd rfl (h [] (hsplit ▸ by simp)).1
  | @zeros left right hlen hleft hright =>
      have hplace : ∀ {w x}, joined left ++ ':' :: ':' :: joined right = w ++ ':' :: ':' :: x →
          w = [':'].intercalate (fields left) := by
        intro w x hw
        have hsplit := congrArg (List.splitOn ':') hw
        rw [splitOn_colons, splitOn_colons, splitOn_joined hleft, splitOn_joined hright] at hsplit
        have hjoin : [':'].intercalate (w.splitOn ':') = w := List.intercalate_splitOn ':'
        rw [← hjoin, eq_fields_of_append hleft hright (List.splitOn_ne_nil _ _)
          (List.splitOn_ne_nil _ _) hsplit.symm]
      rw [hplace hu, hplace hu']

end

/-! ### `insert` -/

namespace IPv6Address

/-- `addr[i]`, as the host reads it from memory. -/
def addr (host : Endian) (a : IPv6Address) (i : ℕ) : BitVec 16 :=
  host.value 2 [a.s6_addr.toList.getD (2 * i) 0, a.s6_addr.toList.getD (2 * i + 1) 0]

/-- `os << std::hex << v << std::dec` -/
def hex (v : BitVec 16) : List Char := Nat.toDigits 16 v.toNat

/-- The `n` last rounds of the loop, from index `i`: what they write, and `used_zeros` at their
end. -/
def insertFrom (host : Endian) (addr : ℕ → BitVec 16) : ℕ → ℕ → Bool → List Char × Bool
  | 0, _, used_zeros => ([], used_zeros)
  | n + 1, i, used_zeros =>
    if addr i = 0#16 ∧ !used_zeros then insertFrom host addr n (i + 1) used_zeros
    else
      let gap : Bool := i ≠ 0 ∧ addr (i - 1) = 0#16 ∧ !used_zeros
      let next := insertFrom host addr n (i + 1) (used_zeros || gap)
      ((if gap then [':'] else []) ++ (if i ≠ 0 then [':'] else []) ++
        hex (networkToHost (n := 2) host (addr i)) ++ next.1, next.2)

/-- `insert` -/
def insert (host : Endian) (a : IPv6Address) : List Char :=
  let loop := insertFrom host (a.addr host) 8 0 false
  '[' :: loop.1 ++ (if !loop.2 ∧ a.addr host 7 = 0#16 then [':', ':'] else []) ++ [']', ':'] ++
    Nat.toDigits 10 (networkToHost (n := 2) host a.sin6_port).toNat

example : insert .little ⟨AF_INET6, 0x5000, (Vector.replicate 16 0).set 15 1⟩ =
    "[::1]:80".toList := by decide

/-- The groups of the address: two bytes each, the high one first. -/
def groups (a : IPv6Address) : List ℕ :=
  (List.range 8).map fun i =>
    256 * (a.s6_addr.toList.getD (2 * i) 0).toNat + (a.s6_addr.toList.getD (2 * i + 1) 0).toNat

/-- The group that the host makes of a word. -/
theorem toNat_networkToHost_addr (host : Endian) (a : IPv6Address) (i : ℕ) :
    (networkToHost (n := 2) host (a.addr host i)).toNat =
      256 * (a.s6_addr.toList.getD (2 * i) 0).toNat +
        (a.s6_addr.toList.getD (2 * i + 1) 0).toNat := by
  generalize hb : a.s6_addr.toList.getD (2 * i) 0 = b
  generalize hc : a.s6_addr.toList.getD (2 * i + 1) 0 = c
  have hb' := b.toNat_lt
  have hc' := c.toNat_lt
  rw [addr, hb, hc]
  cases host with
  | little =>
      have hword : (BitVec.ofNat (8 * 2) (ofLE [b, c])).toNat = ofLE [b, c] := by
        rw [BitVec.toNat_ofNat, ofLE, ofLE, ofLE]
        omega
      have hbytes : toLE 2 (ofLE [b, c]) = [b, c] := toLE_ofLE [b, c]
      rw [networkToHost, byteswap, Endian.value, hword, hbytes, BitVec.toNat_ofNat]
      simp only [List.reverse_cons, List.reverse_nil, List.nil_append, List.cons_append, ofLE]
      omega
  | big =>
      rw [networkToHost, Endian.value, BitVec.toNat_ofNat]
      simp only [List.reverse_cons, List.reverse_nil, List.nil_append, List.cons_append, ofLE]
      omega

variable (host : Endian) (addr : ℕ → BitVec 16) {i : ℕ}

/-- The group of a word, and a colon in front of it. -/
def group (j : ℕ) : List Char := hex (networkToHost (n := 2) host (addr j))

def behindColon (j : ℕ) : List Char := ':' :: group host addr j

/-- The words in front of the first zero, and those from the first one behind it that is not
zero. -/
def front (is : List ℕ) : List ℕ := is.takeWhile (addr · ≠ 0#16)

def behind (is : List ℕ) : List ℕ := (is.dropWhile (addr · ≠ 0#16)).dropWhile (addr · = 0#16)

section

variable {addr} {is : List ℕ}

theorem front_of_zero (h : addr i = 0#16) : front addr (i :: is) = [] := by
  simp [front, h]

theorem front_of_ne (h : addr i ≠ 0#16) : front addr (i :: is) = i :: front addr is := by
  simp [front, h]

theorem behind_of_zero (h : addr i = 0#16) :
    behind addr (i :: is) = is.dropWhile (addr · = 0#16) := by
  simp [behind, h]

theorem behind_of_ne (h : addr i ≠ 0#16) : behind addr (i :: is) = behind addr is := by
  simp [behind, h]

theorem ne_zero_of_mem_front (h : i ∈ front addr is) : addr i ≠ 0#16 :=
  of_decide_eq_true (List.mem_takeWhile_imp (p := (addr · ≠ 0#16)) h)

end

/-- What is written from the zeros on. -/
def tail (is : List ℕ) : List Char :=
  if is = [] then [] else ':' :: is.flatMap (behindColon host addr)

/-- **Behind the two colons** all groups are written. -/
theorem insertFrom_used (n : ℕ) (hi : i ≠ 0) : insertFrom host addr n i true =
    ((List.range' i n).flatMap (behindColon host addr), true) := by
  induction n generalizing i with
  | zero => rfl
  | succ n ih =>
      have ih := ih (Nat.succ_ne_zero i)
      rw [insertFrom, List.range'_succ, List.flatMap_cons]
      simp [hi, behindColon, group, ih]

/-- **Behind a zero** the two colons stand in front of the next group that is not zero. -/
theorem insertFrom_zero (n : ℕ) (hi : i ≠ 0) (hzero : addr (i - 1) = 0#16) :
    insertFrom host addr n i false =
      (tail host addr ((List.range' i n).dropWhile (addr · = 0#16)),
        decide ((List.range' i n).dropWhile (addr · = 0#16) ≠ [])) := by
  induction n generalizing i with
  | zero => rfl
  | succ n ih =>
      rw [insertFrom, List.range'_succ, List.dropWhile_cons]
      by_cases h : addr i = 0#16
      · rw [if_pos ⟨h, rfl⟩, ih (Nat.succ_ne_zero i) h, if_pos (decide_eq_true h)]
      · have hrest := insertFrom_used host addr n (Nat.succ_ne_zero i)
        simp [h, hi, hzero, hrest, tail, behindColon, group]

/-- **In front of the zeros** the groups are written with colons between them. -/
theorem insertFrom_front (n : ℕ) (hi : i ≠ 0) (hne : addr (i - 1) ≠ 0#16) :
    insertFrom host addr n i false =
      ((front addr (List.range' i n)).flatMap (behindColon host addr) ++
        tail host addr (behind addr (List.range' i n)),
      decide (behind addr (List.range' i n) ≠ [])) := by
  induction n generalizing i with
  | zero => rfl
  | succ n ih =>
      rw [insertFrom, List.range'_succ]
      by_cases h : addr i = 0#16
      · rw [if_pos ⟨h, rfl⟩, insertFrom_zero host addr n (Nat.succ_ne_zero i) h, front_of_zero h,
          behind_of_zero h]
        rfl
      · have ih := ih (Nat.succ_ne_zero i) h
        rw [front_of_ne h, behind_of_ne h]
        simp [h, hi, hne, ih, behindColon, group]

theorem joined_cons (j : ℕ) (js : List ℕ) : joined ((j :: js).map (group host addr)) =
    group host addr j ++ js.flatMap (behindColon host addr) := by
  induction js generalizing j with
  | nil => simp [joined]
  | cons k js ih =>
      have ih := ih k
      rw [List.map_cons] at ih
      rw [List.map_cons, List.map_cons, joined_cons_cons, ih, List.flatMap_cons]
      rfl

/-- **The loop**: what it writes, and whether it has come behind the zeros. -/
theorem insertFrom_eq (n : ℕ) : insertFrom host addr (n + 1) 0 false =
    (joined ((front addr (List.range' 0 (n + 1))).map (group host addr)) ++
      tail host addr (behind addr (List.range' 0 (n + 1))),
    decide (behind addr (List.range' 0 (n + 1)) ≠ [])) := by
  rw [insertFrom, List.range'_succ]
  by_cases h : addr 0 = 0#16
  · rw [if_pos ⟨h, rfl⟩, insertFrom_zero host addr n Nat.one_ne_zero h, front_of_zero h,
      behind_of_zero h]
    rfl
  · have hrest := insertFrom_front host addr n Nat.one_ne_zero h
    rw [front_of_ne h, behind_of_ne h, joined_cons]
    simp [h, hrest, group]

theorem tail_eq {is : List ℕ} (h : is ≠ []) :
    tail host addr is = ':' :: ':' :: joined (is.map (group host addr)) := by
  cases is with
  | nil => exact absurd rfl h
  | cons j js =>
      rw [joined_cons, tail, if_neg h]
      rfl

variable {host addr} (a : IPv6Address)

/-- What is written between the brackets. -/
def text (host : Endian) (a : IPv6Address) : List Char :=
  (insertFrom host (a.addr host) 8 0 false).1 ++
    if !(insertFrom host (a.addr host) 8 0 false).2 ∧ a.addr host 7 = 0#16 then [':', ':'] else []

theorem insert_eq (host : Endian) (a : IPv6Address) : a.insert host = '[' :: (a.text host ++
    ']' :: ':' :: Nat.toDigits 10 (networkToHost (n := 2) host a.sin6_port).toNat) := by
  simp [insert, text]

/-- The words from the first zero on. -/
def zerosOn (addr : ℕ → BitVec 16) : List ℕ := (List.range' 0 8).dropWhile (addr · ≠ 0#16)

theorem front_append_zerosOn (addr : ℕ → BitVec 16) :
    front addr (List.range' 0 8) ++ zerosOn addr = List.range' 0 8 :=
  List.takeWhile_append_dropWhile

/-- An address without a zero group. -/
theorem text_full (h : zerosOn (a.addr host) = []) :
    a.text host = joined ((List.range' 0 8).map (group host (a.addr host))) := by
  have hfront := front_append_zerosOn (a.addr host)
  rw [h, List.append_nil] at hfront
  have hbehind : behind (a.addr host) (List.range' 0 8) = [] := by
    rw [behind, ← zerosOn, h]
    rfl
  have hlast : a.addr host 7 ≠ 0#16 := by
    have hmem : 7 ∈ front (a.addr host) (List.range' 0 8) := by
      rw [hfront]
      decide
    exact ne_zero_of_mem_front hmem
  rw [text, insertFrom_eq, hfront, hbehind]
  simp [tail, hlast]

/-- An address with a zero group. -/
theorem text_zeros (h : zerosOn (a.addr host) ≠ []) :
    a.text host = joined ((front (a.addr host) (List.range' 0 8)).map (group host (a.addr host))) ++
      ':' :: ':' :: joined ((behind (a.addr host) (List.range' 0 8)).map
        (group host (a.addr host))) := by
  rw [text, insertFrom_eq]
  by_cases hbehind : behind (a.addr host) (List.range' 0 8) = []
  · have hlast : a.addr host 7 = 0#16 := by
      have hmem : 7 ∈ zerosOn (a.addr host) := by
        have hrange : (List.range' 0 8).getLast? = some 7 := rfl
        rw [← front_append_zerosOn (a.addr host), List.getLast?_append,
          List.getLast?_eq_some_getLast h, Option.some_or] at hrange
        exact Option.some.inj hrange ▸ List.getLast_mem h
      exact of_decide_eq_true (List.dropWhile_eq_nil_iff.mp hbehind 7 hmem)
    rw [hbehind]
    simp [tail, hlast, joined]
  · rw [tail_eq _ _ hbehind]
    simp [hbehind]

theorem lowerGroup_group (j : ℕ) : LowerGroup (group host addr j) := by
  refine ⟨Nat.toDigits_ne_nil, ?_, (hexValue_toDigits _).2⟩
  exact (Nat.length_toDigits_le_iff (by decide) (by decide)).mpr (BitVec.isLt _)

theorem groups_eq (host : Endian) (a : IPv6Address) :
    a.groups = ((List.range' 0 8).map (group host (a.addr host))).map hexValue := by
  rw [groups, List.range_eq_range', List.map_map]
  refine List.map_congr_left fun j _ => ?_
  rw [Function.comp_apply, group, hex, (hexValue_toDigits _).1, toNat_networkToHost_addr]

/-- The zeros that the two colons stand for. -/
def skipped (addr : ℕ → BitVec 16) : List ℕ := (zerosOn addr).takeWhile (addr · = 0#16)

theorem skipped_append_behind (addr : ℕ → BitVec 16) :
    skipped addr ++ behind addr (List.range' 0 8) = zerosOn addr :=
  List.takeWhile_append_dropWhile

theorem skipped_ne_nil (h : zerosOn addr ≠ []) : skipped addr ≠ [] := by
  have hhead : decide (addr ((zerosOn addr).head h) ≠ 0#16) = false :=
    List.head_dropWhile_not (addr · ≠ 0#16) h
  rw [skipped, ← List.cons_head_tail h, List.takeWhile_cons_of_pos (by simpa using hhead)]
  exact List.cons_ne_nil _ _

/-- A zero has the value of a zero. -/
theorem hexValue_skipped (host : Endian) (addr : ℕ → BitVec 16) :
    ((skipped addr).map (group host addr)).map hexValue =
      List.replicate (skipped addr).length 0 := by
  rw [List.map_map, List.map_eq_replicate_iff]
  intro j hj
  have hzero : addr j = 0#16 :=
    of_decide_eq_true (List.mem_takeWhile_imp (p := (addr · = 0#16)) hj)
  rw [Function.comp_apply, group, hex, (hexValue_toDigits _).1, hzero,
    (networkToHost_eq_zero (n := 2) host 0#16).mpr rfl]
  rfl

/-- The groups of an address with a zero group. -/
theorem map_hexValue_zeros (host : Endian) (h : zerosOn addr ≠ []) :
    ((front addr (List.range' 0 8)).map (group host addr)).length +
        ((behind addr (List.range' 0 8)).map (group host addr)).length ≤ 7 ∧
      ((List.range' 0 8).map (group host addr)).map hexValue =
        ((front addr (List.range' 0 8)).map (group host addr)).map hexValue ++
          List.replicate (8 - (((front addr (List.range' 0 8)).map (group host addr)).length +
            ((behind addr (List.range' 0 8)).map (group host addr)).length)) 0 ++
          ((behind addr (List.range' 0 8)).map (group host addr)).map hexValue := by
  have hrange := front_append_zerosOn addr
  rw [← skipped_append_behind] at hrange
  have hlen := congrArg List.length hrange
  have hpos := List.length_pos_of_ne_nil (skipped_ne_nil h)
  have hvalues := congrArg (fun is => (is.map (group host addr)).map hexValue) hrange
  simp only [List.map_append, hexValue_skipped] at hvalues
  rw [List.length_append, List.length_append, List.length_range'] at hlen
  rw [List.length_map, List.length_map]
  refine ⟨by omega, ?_⟩
  have hskipped : (skipped addr).length =
      8 - ((front addr (List.range' 0 8)).length + (behind addr (List.range' 0 8)).length) := by
    omega
  rw [← hvalues, hskipped, List.append_assoc]

/-- **The text** denotes the address. -/
theorem denotes_text (host : Endian) (a : IPv6Address) :
    Denotes LowerGroup (a.text host) a.groups := by
  have hlower : ∀ is : List ℕ, ∀ g ∈ is.map (group host (a.addr host)), LowerGroup g := by
    intro is g hg
    obtain ⟨j, -, rfl⟩ := List.mem_map.mp hg
    exact lowerGroup_group j
  rw [groups_eq host]
  by_cases h : zerosOn (a.addr host) = []
  · rw [text_full a h]
    exact .full (by simp) (hlower _)
  · obtain ⟨hlen, hvalues⟩ := map_hexValue_zeros host h
    rw [text_zeros a h, hvalues]
    exact .zeros hlen (hlower _) (hlower _)

/-! ### What the text says -/

/-- The text between the brackets is one of the grammar in lower case, with two colons in one
place at most, and denotes the address and no other; behind it stands the port. -/
structure Prints (host : Endian) (a : IPv6Address) (text s : List Char) : Prop where
  eq : s = '[' :: (text ++ ']' :: ':' :: Nat.toDigits 10 (a.port host).toNat)
  denotes : Denotes LowerGroup text a.groups
  unique : ∀ gs, Denotes HexGroup text gs → gs = a.groups
  once : ∀ u v u' v', text = u ++ ':' :: ':' :: v → text = u' ++ ':' :: ':' :: v' → u = u'

theorem toNat_port (host : Endian) (a : IPv6Address) :
    (a.port host).toNat = (networkToHost (n := 2) host a.sin6_port).toNat := by
  have hlt := (networkToHost (n := 2) host a.sin6_port).isLt
  rw [port, BitVec.toNat_setWidth]
  omega

theorem prints_insert (host : Endian) (a : IPv6Address) :
    a.Prints host (a.text host) (a.insert host) := by
  have hdenotes := denotes_text host a
  have hhex := hdenotes.imp fun _ => LowerGroup.hexGroup
  refine ⟨?_, hdenotes, fun gs h => h.unique hhex, fun u v u' v' => hhex.colons_once⟩
  rw [insert_eq, toNat_port]

/-- Two bytes are their group. -/
theorem groups_injective {a b : IPv6Address} (h : a.groups = b.groups) : a.s6_addr = b.s6_addr := by
  have hbytes : ∀ i < 8, a.s6_addr.toList.getD (2 * i) 0 = b.s6_addr.toList.getD (2 * i) 0 ∧
      a.s6_addr.toList.getD (2 * i + 1) 0 = b.s6_addr.toList.getD (2 * i + 1) 0 := by
    intro i hi
    have hgroup := List.map_inj_left.mp h i (List.mem_range.mpr hi)
    have ha := (a.s6_addr.toList.getD (2 * i + 1) 0).toNat_lt
    have hb := (b.s6_addr.toList.getD (2 * i + 1) 0).toNat_lt
    exact ⟨UInt8.toNat.inj (by omega), UInt8.toNat.inj (by omega)⟩
  refine Vector.ext fun j hj => ?_
  have hget : ∀ c : IPv6Address, c.s6_addr.toList.getD j 0 = c.s6_addr[j] := by
    intro c
    simp [hj]
  rw [← hget a, ← hget b]
  obtain ⟨heven, hodd⟩ := hbytes (j / 2) (by omega)
  rcases Nat.mod_two_eq_zero_or_one j with hmod | hmod
  · have hj' : j = 2 * (j / 2) := by omega
    rwa [← hj'] at heven
  · have hj' : j = 2 * (j / 2) + 1 := by omega
    rwa [← hj'] at hodd

theorem mem_joined {groups : List (List Char)} {c : Char} (h : c ∈ joined groups) :
    c = ':' ∨ ∃ g ∈ groups, c ∈ g := by
  induction groups with
  | nil => cases h
  | cons g groups ih =>
      cases groups with
      | nil => exact .inr ⟨g, List.mem_cons_self, by simpa [joined] using h⟩
      | cons g' groups =>
          rw [joined_cons_cons] at h
          rcases List.mem_append.mp h with hg | htail
          · exact .inr ⟨g, List.mem_cons_self, hg⟩
          rcases List.mem_cons.mp htail with hcolon | hrest
          · exact .inl hcolon
          · exact (ih hrest).imp_right fun ⟨k, hk, hc⟩ => ⟨k, List.mem_cons_of_mem _ hk, hc⟩

theorem no_bracket {text : List Char} {gs : List ℕ} (h : Denotes LowerGroup text gs) :
    ']' ∉ text := by
  have hjoined : ∀ groups : List (List Char), (∀ g ∈ groups, LowerGroup g) →
      ']' ∉ joined groups := by
    intro groups hgroups hmem
    rcases mem_joined hmem with heq | ⟨g, hg, hc⟩
    · exact absurd heq (by decide)
    · exact absurd ((hgroups g hg).2.2 ']' hc) (by decide)
  cases h with
  | full hlen h => exact hjoined _ h
  | zeros hlen hleft hright => simp [hjoined _ hleft, hjoined _ hright]

/-- **Texts of addresses** denote them, and different addresses have different texts. -/
theorem prints (host : Endian) : (∀ a : IPv6Address, ∃ text, a.Prints host text (a.insert host)) ∧
    ∀ a b : IPv6Address, a.insert host = b.insert host →
      a.s6_addr = b.s6_addr ∧ a.port host = b.port host := by
  refine ⟨fun a => ⟨_, prints_insert host a⟩, fun a b h => ?_⟩
  have ha := prints_insert host a
  have hb := prints_insert host b
  rw [ha.eq, hb.eq] at h
  have hbehind : ']' ∉ ':' :: Nat.toDigits 10 (a.port host).toNat := by
    intro hmem
    rcases List.mem_cons.mp hmem with heq | hdigit
    · exact absurd heq (by decide)
    · exact absurd (Nat.isDigit_of_mem_toDigits (by decide) (by decide) hdigit) (by decide)
  obtain ⟨htext, -, hport⟩ := (List.append_cons_inj_of_notMem (no_bracket ha.denotes) hbehind).mp
    (List.cons.inj h).2
  have hgroups := hb.unique a.groups (htext ▸ ha.denotes.imp fun _ => LowerGroup.hexGroup)
  refine ⟨groups_injective hgroups, BitVec.eq_of_toNat_eq ?_⟩
  have hvalue := congrArg (Nat.ofDigitChars 10 · 0) (List.cons.inj hport).2
  rwa [Nat.ofDigitChars_ten_toDigits, Nat.ofDigitChars_ten_toDigits] at hvalue

end IPv6Address

end Easy.Net
