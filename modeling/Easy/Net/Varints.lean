import Easy.Net.RoundTrip
import Easy.Net.TypedReads
import Mathlib.Algebra.BigOperators.Group.Finset.Basic

/-!
What `readUint32` and `readUint64` make of any bytes.

The loop takes a byte in each round, until one is below `0x80` or the rounds are used up. The
groups of seven bits lie side by side in the result; the last round of all may shift some
of its bits out, which is a reduction modulo the width.
-/

namespace Easy.Net

open Lib

section Varint

variable {w : ℕ} {host : Endian}

theorem readFuint8_cons (host : Endian) (c : UInt8) (s : List UInt8) :
    readFuint8 host (c :: s) = some (c.toBitVec, s) := reads_byte host c.toBitVec s

/-- One round on a byte, before it is looked at. -/
theorem readVarint_cons {i : ℕ} (hi : i < w) (result : BitVec w) (c : UInt8) (s : List UInt8) :
    readVarint host i result (c :: s) =
      if c.toBitVec < 0x80 then some (result ||| c.toBitVec.setWidth w <<< i, s)
      else readVarint host (i + 7) (result ||| (c.toBitVec &&& 0x7f).setWidth w <<< i) s := by
  rw [readVarint, if_pos hi, Parser.bind_apply, readFuint8_cons, Option.bind_some]
  split
  · rfl
  · rfl

/-- Storing a group above the bits in use adds it, modulo the width. -/
theorem ofNat_or_shiftLeft {i acc : ℕ} (hi : i < w) (hacc : acc < 2 ^ i) (x : BitVec 8) :
    BitVec.ofNat w acc ||| x.setWidth w <<< i = BitVec.ofNat w (acc + 2 ^ i * x.toNat) := by
  have hpow : 2 ^ w = 2 ^ i * 2 ^ (w - i) := by rw [← pow_add, Nat.add_sub_cancel' hi.le]
  have hle : 2 ^ i ≤ 2 ^ w := Nat.pow_le_pow_right (by decide) hi.le
  have hlow : (acc + 2 ^ i * x.toNat) % 2 ^ i = acc := by
    rw [Nat.add_mul_mod_self_left, Nat.mod_eq_of_lt hacc]
  have hhigh : (acc + 2 ^ i * x.toNat) / 2 ^ i = x.toNat := by
    rw [Nat.add_mul_div_left _ _ (Nat.two_pow_pos i), Nat.div_eq_of_lt hacc, Nat.zero_add]
  have hshift : (x.setWidth w <<< i).toNat = 2 ^ i * (x.toNat % 2 ^ (w - i)) := by
    rw [BitVec.toNat_shiftLeft, BitVec.toNat_setWidth, Nat.shiftLeft_eq, Nat.mod_mul_mod,
      Nat.mul_comm, hpow, Nat.mul_mod_mul_left]
  apply BitVec.eq_of_toNat_eq
  rw [BitVec.toNat_or, BitVec.toNat_ofNat, BitVec.toNat_ofNat, Nat.mod_eq_of_lt (hacc.trans_le hle),
    hshift, hpow, Nat.mod_mul, hlow, hhigh, Nat.or_comm, ← Nat.two_pow_add_eq_or_of_lt hacc,
    Nat.add_comm]

/-- **The loop** takes bytes that are not below `0x80` as long as there are rounds. -/
theorem readVarint_more {gs : List UInt8} (hgs : ∀ g ∈ gs, 0x80 ≤ g) {i acc : ℕ}
    (hi : i + 7 * gs.length < w + 7) (hacc : acc < 2 ^ i) (rest : List UInt8) :
    readVarint host i (BitVec.ofNat w acc) (gs ++ rest) =
      readVarint host (i + 7 * gs.length) (BitVec.ofNat w (acc + 2 ^ i * ofGroups gs)) rest := by
  induction gs generalizing i acc with
  | nil => simp [ofGroups]
  | cons g gs ih =>
      rw [List.length_cons] at hi
      have hmore : ¬ g.toBitVec < 0x80 := UInt8.not_lt.mpr (hgs g (by simp))
      have hgroup : (g.toBitVec &&& 0x7f).toNat = g.toNat % 128 := toNat_and_127 le_rfl _
      have hpow : 2 ^ (i + 7) = 2 ^ i * 128 := pow_add 2 i 7
      have hlt : g.toNat % 128 < 128 := Nat.mod_lt _ (by decide)
      have hacc' : acc + 2 ^ i * (g.toNat % 128) < 2 ^ (i + 7) := by
        have hle : 2 ^ i * (g.toNat % 128 + 1) ≤ 2 ^ i * 128 := Nat.mul_le_mul_left _ hlt
        rw [Nat.mul_add, Nat.mul_one] at hle
        omega
      have hround : i + 7 * (gs.length + 1) = i + 7 + 7 * gs.length := by omega
      have hsum : acc + 2 ^ i * (g.toNat % 128 + 128 * ofGroups gs) =
          acc + 2 ^ i * (g.toNat % 128) + 2 ^ (i + 7) * ofGroups gs := by
        rw [hpow]
        ring
      rw [List.cons_append, readVarint_cons (by omega), if_neg hmore,
        ofNat_or_shiftLeft (by omega) hacc, hgroup,
        ih (fun c hc => hgs c (by simp [hc])) (by omega) hacc', ofGroups, hsum, List.length_cons,
        hround]

/-! ### The law -/

/-- The number that the first `n` bytes of a stream stand for. -/
def varintValue (bs : List UInt8) (n : ℕ) : ℕ :=
  ∑ i ∈ Finset.range n, (bs.getD i 0).toNat % 128 * 2 ^ (7 * i)

theorem varintValue_eq {bs : List UInt8} {n : ℕ} (hn : n ≤ bs.length) :
    varintValue bs n = ofGroups (bs.take n) := by
  induction n with
  | zero => simp [varintValue, ofGroups]
  | succ n ih =>
      have hget : bs[n]? = some bs[n] := List.getElem?_eq_getElem (by omega)
      have hlen : (bs.take n).length = n := List.length_take_of_le (by omega)
      have hsum : varintValue bs (n + 1) =
          varintValue bs n + (bs.getD n 0).toNat % 128 * 2 ^ (7 * n) := Finset.sum_range_succ ..
      rw [hsum, ih (by omega), List.take_add_one, hget, Option.toList_some, ofGroups_append, hlen,
        List.getD_eq_getElem?_getD, hget, Option.getD_some, Nat.mul_comm]
      simp [ofGroups]

/-- What a decoder of at most `N` rounds does with a stream, where `returns n` is that it
takes `n` bytes and returns what they stand for. -/
structure Decodes (N : ℕ) (bs : List UInt8) (returns : ℕ → Prop) (throws : Prop) : Prop where
  ended : ∀ j < N, ∀ b, bs[j]? = some b → b < 0x80 → (∀ i < j, ∀ c, bs[i]? = some c → 0x80 ≤ c) →
    returns (j + 1)
  full : N ≤ bs.length → (∀ i < N, ∀ c, bs[i]? = some c → 0x80 ≤ c) → returns N
  short : bs.length < N → (∀ c ∈ bs, 0x80 ≤ c) → throws

theorem Decodes.imp {N : ℕ} {bs : List UInt8} {returns returns' : ℕ → Prop} {throws throws' : Prop}
    (h : Decodes N bs returns throws) (hreturns : ∀ n ≤ bs.length, returns n → returns' n)
    (hthrows : throws → throws') : Decodes N bs returns' throws' where
  ended j hj b hb hlt hmore := by
    obtain ⟨hlen, -⟩ := List.getElem?_eq_some_iff.mp hb
    exact hreturns _ hlen (h.ended j hj b hb hlt hmore)
  full hlen hmore := hreturns _ hlen (h.full hlen hmore)
  short hlen hmore := hthrows (h.short hlen hmore)

theorem forall_mem_take {bs : List UInt8} {n : ℕ}
    (h : ∀ i < n, ∀ c, bs[i]? = some c → 0x80 ≤ c) : ∀ c ∈ bs.take n, 0x80 ≤ c := by
  intro c hc
  obtain ⟨i, hi⟩ := List.mem_iff_getElem?.mp hc
  rw [List.getElem?_take] at hi
  split at hi
  case isTrue hlt => exact h i hlt c hi
  case isFalse => cases hi

/-- The rounds in front of the one that ends the loop. -/
theorem readVarint_take (host : Endian) {n : ℕ} (hn : 7 * n < w + 7) {bs : List UInt8}
    (hlen : n ≤ bs.length) (hmore : ∀ i < n, ∀ c, bs[i]? = some c → 0x80 ≤ c) :
    readVarint host 0 (0 : BitVec w) bs =
      readVarint host (7 * n) (BitVec.ofNat w (varintValue bs n)) (bs.drop n) := by
  have hzero : (0 : BitVec w) = BitVec.ofNat w 0 := rfl
  have htake : (bs.take n).length = n := List.length_take_of_le hlen
  have hloop : readVarint host 0 (BitVec.ofNat w 0) (bs.take n ++ bs.drop n) =
      readVarint host (0 + 7 * (bs.take n).length)
        (BitVec.ofNat w (0 + 2 ^ 0 * ofGroups (bs.take n))) (bs.drop n) :=
    readVarint_more (forall_mem_take hmore) (by omega) (by decide) _
  rwa [List.take_append_drop, htake, ← hzero, Nat.zero_add, Nat.zero_add, pow_zero, Nat.one_mul,
    ← varintValue_eq hlen] at hloop

/-- **Varints of any bytes**, for a width of `N` rounds. -/
theorem readVarint_decodes (host : Endian) {N : ℕ} (hle : w ≤ 7 * N) (hlt : 7 * N < w + 7)
    (bs : List UInt8) :
    Decodes N bs
      (fun n => readVarint host 0 (0 : BitVec w) bs =
        some (BitVec.ofNat w (varintValue bs n), bs.drop n))
      (readVarint host 0 (0 : BitVec w) bs = none) where
  ended j hj b hb hbyte hmore := by
    obtain ⟨hlen, rfl⟩ := List.getElem?_eq_some_iff.mp hb
    have hacc : varintValue bs j < 2 ^ (7 * j) := by
      have hgroups := ofGroups_lt (bs.take j)
      rwa [List.length_take_of_le hlen.le, ← varintValue_eq hlen.le] at hgroups
    have hvalue : varintValue bs (j + 1) = varintValue bs j + 2 ^ (7 * j) * bs[j].toNat := by
      have hlow : bs[j].toNat % 128 = bs[j].toNat :=
        Nat.mod_eq_of_lt (UInt8.lt_iff_toNat_lt.mp hbyte)
      rw [varintValue, Finset.sum_range_succ, List.getD_eq_getElem?_getD, hb, Option.getD_some,
        hlow, Nat.mul_comm]
      rfl
    have hdrop : bs.drop j = bs[j] :: bs.drop (j + 1) := List.drop_eq_getElem_cons hlen
    have hend : bs[j].toBitVec < 0x80 := hbyte
    rw [readVarint_take host (by omega) hlen.le hmore, hdrop, readVarint_cons (by omega),
      if_pos hend, ofNat_or_shiftLeft (by omega) hacc, hvalue]
    rfl
  full hlen hmore := by
    rw [readVarint_take host hlt hlen hmore, readVarint, if_neg (by omega)]
    rfl
  short hlen hmore := by
    have hall : ∀ i < bs.length, ∀ c, bs[i]? = some c → 0x80 ≤ c :=
      fun i _ c hc => hmore c (List.mem_of_getElem? hc)
    rw [readVarint_take host (by omega) le_rfl hall, List.drop_length, readVarint,
      if_pos (by omega)]
    rfl

end Varint

/-! ### The same of a buffer -/

namespace Buffer

variable {α : Type} {b : Buffer}

/-- The call takes `n` bytes at the cursor and returns `a`. -/
def Takes (b : Buffer) (c : Call α) (n : ℕ) (a : α) : Prop :=
  ∃ b', c b = .ok a b' ∧ b'.position = b.position + n ∧ b'.content = b.content

/-- The call throws `std::out_of_range`. -/
def Throws (b : Buffer) (c : Call α) : Prop := ∃ b', c b = .error .outOfRange b'

theorem Follows.takes {c : Call α} {p : Parser UInt8 α} (h : Follows b.endian c p) (hwf : b.Wf)
    {n : ℕ} {a : α} (hn : n ≤ (b.content.drop b.position).length)
    (hp : p (b.content.drop b.position) = some (a, (b.content.drop b.position).drop n)) :
    b.Takes c n a := by
  obtain ⟨v, hpv, hv, hc⟩ := h b hwf rfl
  rw [hp] at hc
  obtain ⟨hrest, hc⟩ := hc
  have hlen := congrArg List.length hrest
  have hv' : v = b.position + n := by
    simp only [List.length_drop, hwf.length_content] at hn hlen
    omega
  exact ⟨_, hc, hv', content_moveTo hv⟩

theorem Follows.throws {c : Call α} {p : Parser UInt8 α} (h : Follows b.endian c p) (hwf : b.Wf)
    (hp : p (b.content.drop b.position) = none) : b.Throws c := by
  obtain ⟨v, -, -, hc⟩ := h b hwf rfl
  rw [hp] at hc
  exact ⟨_, hc⟩

theorem Hollow.content_eq (h : b.Hollow) : b.content = [] := by
  rw [content, h.size_eq, List.take_zero]

/-- There is no byte in a buffer of base size zero. -/
theorem Hollow.throws_readVarint {w : ℕ} (h : b.Hollow) (host : Endian) (hw : 0 < w) :
    b.Throws (readVarint host 0 (0 : BitVec w)) := by
  have hread : read 1 b = .error .outOfRange b := read_throws (by simp [readSize, h.size_eq])
  refine ⟨b, ?_⟩
  rw [readVarint, if_pos hw]
  simp [readFuint8, readRaw, hread]

theorem Sound.readVarint_decodes {w N : ℕ} (h : b.Sound) (host : Endian) (hw : 0 < w)
    (hle : w ≤ 7 * N) (hlt : 7 * N < w + 7) :
    Decodes N (b.content.drop b.position)
      (fun n => b.Takes (readVarint host 0 (0 : BitVec w)) n
        (BitVec.ofNat w (varintValue (b.content.drop b.position) n)))
      (b.Throws (readVarint host 0 (0 : BitVec w))) := by
  have hfollows := follows_readVarint (e := b.endian) host 0 (0 : BitVec w)
  have hdecodes := Net.readVarint_decodes host hle hlt (b.content.drop b.position)
  rcases h with hwf | hhollow
  · exact hdecodes.imp (fun n hn hp => hfollows.takes hwf hn hp) fun hp => hfollows.throws hwf hp
  · refine hdecodes.imp (fun n hn hp => ?_) fun _ => hhollow.throws_readVarint host hw
    obtain rfl : n = 0 := by simpa [hhollow.content_eq] using hn
    rw [hhollow.content_eq, List.drop_nil, List.drop_nil, Net.readVarint, if_pos hw] at hp
    cases hp

end Buffer

/-- **Decoding a varint.** Of any bytes, of a flat stream as of a buffer in any state,
`readUint32` takes at most five and `readUint64` at most ten. -/
theorem readUint_decodes (host : Endian) :
    (∀ bs, Decodes 5 bs
        (fun n => readUint32 host bs = some (BitVec.ofNat 32 (varintValue bs n), bs.drop n))
        (readUint32 host bs = none) ∧
      Decodes 10 bs
        (fun n => readUint64 host bs = some (BitVec.ofNat 64 (varintValue bs n), bs.drop n))
        (readUint64 host bs = none)) ∧
      ∀ b, Buffer.uses.Reachable b →
        Decodes 5 (b.content.drop b.position)
          (fun n => b.Takes (Buffer.readUint32 host) n
            (BitVec.ofNat 32 (varintValue (b.content.drop b.position) n)))
          (b.Throws (Buffer.readUint32 host)) ∧
        Decodes 10 (b.content.drop b.position)
          (fun n => b.Takes (Buffer.readUint64 host) n
            (BitVec.ofNat 64 (varintValue (b.content.drop b.position) n)))
          (b.Throws (Buffer.readUint64 host)) := by
  refine ⟨fun bs => ⟨?_, ?_⟩, fun b hr => ⟨?_, ?_⟩⟩
  · exact readVarint_decodes host (by decide) (by decide) bs
  · exact readVarint_decodes host (by decide) (by decide) bs
  · exact (Buffer.reachable_sound hr).readVarint_decodes host (by decide) (by decide) (by decide)
  · exact (Buffer.reachable_sound hr).readVarint_decodes host (by decide) (by decide) (by decide)

/-- Five bytes that go on, the last with bits that do not fit. -/
theorem readUint_decodes_full :
    ∃ b, Buffer.uses.Reachable b ∧ b.content.drop b.position = [0xff, 0xff, 0xff, 0xff, 0xff, 1] ∧
      b.Takes (Buffer.readUint32 .little) 5 0xffffffff := by
  have hrun : (Buffer.uses.run (Buffer.new 8 fun _ => 0)
      [.call (.write [0xff, 0xff, 0xff, 0xff, 0xff, 1] fun _ => 0), .call (.setPosition 0)]).map
        (fun b => b.content.drop b.position) = some [0xff, 0xff, 0xff, 0xff, 0xff, 1] := by
    decide
  obtain ⟨b, hr, hb⟩ := (Buffer.reachable_new 8 fun _ => 0).of_map_run hrun
  have hff : ∀ i < 5, ([0xff, 0xff, 0xff, 0xff, 0xff, 1] : List UInt8)[i]? = some 0xff := by
    decide
  obtain ⟨h32, -⟩ := (readUint_decodes .little).2 b hr
  have hfull := h32.full
  rw [hb] at hfull
  refine ⟨b, hr, hb, hfull (by decide) fun i hi c hc => ?_⟩
  obtain rfl := Option.some.inj ((hff i hi).symm.trans hc)
  decide

end Easy.Net
