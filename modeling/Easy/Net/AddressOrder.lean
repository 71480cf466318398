import Mathlib.Algebra.Order.Ring.Nat
import Mathlib.Data.List.Infix
import Mathlib.Order.Basic

/-!
The comparisons of addresses (`easy/net/Address.cc`).

`operator<` compares the bytes that both addresses have, and then the lengths. But it returns
false where the first difference is in its favour, so that only an address that the other one
goes on from is less than it. This is a strict order, in which addresses that differ in a byte
have no place before or behind each other.
-/

namespace Easy.Net

/-- What the comparisons read of an address: the `addrLen()` bytes from `addr()` on. -/
structure SockAddr where
  addr : List UInt8
  length_lt : addr.length < 2 ^ 32
  deriving DecidableEq

/-- `memcmp` of `n` bytes. -/
def memcmp : ℕ → List UInt8 → List UInt8 → ℤ
  | n + 1, x :: xs, y :: ys => if x = y then memcmp n xs ys else (x.toNat : ℤ) - y.toNat
  | _, _, _ => 0

namespace SockAddr

def addrLen (a : SockAddr) : ℕ := a.addr.length

/-- `operator<` -/
def lt (a other : SockAddr) : Bool :=
  let minlen := min a.addrLen other.addrLen
  let result := memcmp minlen a.addr other.addr
  if result < 0 then false
  else if result > 0 then false
  else if a.addrLen < other.addrLen then true
  else false

/-- `operator==` -/
def eq (a other : SockAddr) : Bool :=
  a.addrLen = other.addrLen && memcmp a.addrLen a.addr other.addr = 0

/-- `operator!=` -/
def ne (a other : SockAddr) : Bool := !a.eq other

end SockAddr

/-! ### What they compare -/

theorem memcmp_eq_zero {n : ℕ} {s t : List UInt8} (hs : n ≤ s.length) (ht : n ≤ t.length) :
    memcmp n s t = 0 ↔ s.take n = t.take n := by
  induction n generalizing s t with
  | zero => simp [memcmp]
  | succ n ih =>
      cases s with
      | nil => simp at hs
      | cons x xs =>
          cases t with
          | nil => simp at ht
          | cons y ys =>
              rw [memcmp, List.take_succ_cons, List.take_succ_cons, List.cons.injEq]
              split
              case isTrue hxy => rw [ih (by simpa using hs) (by simpa using ht), and_iff_right hxy]
              case isFalse hxy =>
                have hne : x.toNat ≠ y.toNat := fun h => hxy (UInt8.toNat_inj.mp h)
                exact iff_of_false (by omega) fun h => hxy h.1

namespace SockAddr

variable {a b c : SockAddr}

theorem lt_iff_memcmp :
    a.lt b ↔ memcmp (min a.addrLen b.addrLen) a.addr b.addr = 0 ∧ a.addrLen < b.addrLen := by
  simp only [lt]
  split
  case isTrue hneg => exact iff_of_false (by simp) fun h => by omega
  case isFalse hneg =>
    split
    case isTrue hpos => exact iff_of_false (by simp) fun h => by omega
    case isFalse hpos =>
      have hzero : memcmp (min a.addrLen b.addrLen) a.addr b.addr = 0 := by omega
      simp [hzero]

theorem memcmp_min_eq_zero (h : a.addr.length ≤ b.addr.length) :
    memcmp (min a.addrLen b.addrLen) a.addr b.addr = 0 ↔ a.addr <+: b.addr := by
  have hmin : min a.addrLen b.addrLen = a.addr.length := Nat.min_eq_left h
  rw [hmin, memcmp_eq_zero le_rfl h, List.take_length, List.prefix_iff_eq_take]

/-- **Less** is an address that the other one goes on from. -/
theorem lt_iff : a.lt b ↔ a.addr <+: b.addr ∧ a.addr ≠ b.addr := by
  rw [lt_iff_memcmp]
  constructor
  · rintro ⟨hzero, hlt⟩
    refine ⟨(memcmp_min_eq_zero hlt.le).mp hzero, fun heq => ?_⟩
    exact absurd hlt (by rw [addrLen, addrLen, heq]; exact lt_irrefl _)
  · rintro ⟨hpre, hne⟩
    have hlt : a.addr.length < b.addr.length :=
      lt_of_le_of_ne hpre.length_le fun hlen => hne (hpre.eq_of_length hlen)
    exact ⟨(memcmp_min_eq_zero hlt.le).mpr hpre, hlt⟩

theorem eq_iff : a.eq b ↔ a.addr = b.addr := by
  simp only [eq, Bool.and_eq_true, decide_eq_true_eq]
  constructor
  · rintro ⟨hlen, hzero⟩
    have hlen : a.addr.length = b.addr.length := hlen
    rw [addrLen, memcmp_eq_zero le_rfl hlen.le, List.take_length, hlen, List.take_length] at hzero
    exact hzero
  · intro heq
    refine ⟨congrArg List.length heq, ?_⟩
    rw [addrLen, memcmp_eq_zero le_rfl (by rw [heq]), heq]

/-! ### The laws of an order -/

theorem lt_irrefl (a : SockAddr) : ¬a.lt a := fun h => (lt_iff.mp h).2 rfl

theorem lt_trans (h : a.lt b) (h' : b.lt c) : a.lt c := by
  obtain ⟨hab, hne⟩ := lt_iff.mp h
  obtain ⟨hbc, -⟩ := lt_iff.mp h'
  refine lt_iff.mpr ⟨hab.trans hbc, fun hac => hne ?_⟩
  exact hab.eq_of_length (Nat.le_antisymm hab.length_le (hac ▸ hbc.length_le))

/-- Exactly one of `a < b`, `b < a` and `a == b`. -/
def Trichotomous (a b : SockAddr) : Prop :=
  a.lt b ∧ ¬b.lt a ∧ ¬a.eq b ∨ ¬a.lt b ∧ b.lt a ∧ ¬a.eq b ∨ ¬a.lt b ∧ ¬b.lt a ∧ a.eq b

theorem trichotomous_iff : Trichotomous a b ↔ a.addr <+: b.addr ∨ b.addr <+: a.addr := by
  rw [Trichotomous, lt_iff, lt_iff, eq_iff]
  constructor
  · rintro (⟨h, -, -⟩ | ⟨-, h, -⟩ | ⟨-, -, heq⟩)
    · exact .inl h.1
    · exact .inr h.1
    · exact .inl (heq ▸ List.prefix_rfl)
  · intro hpre
    by_cases heq : a.addr = b.addr
    · simp [heq]
    · have hone : ¬(a.addr <+: b.addr ∧ b.addr <+: a.addr) := fun h =>
        heq (h.1.eq_of_length (Nat.le_antisymm h.1.length_le h.2.length_le))
      have hne : b.addr ≠ a.addr := fun h => heq h.symm
      tauto

/-- **The order of addresses** is strict for any of them, and tells two of them apart if and
only if one of them begins with all of the other. -/
theorem order_iff (a b c : SockAddr) :
    (¬a.lt a ∧ (a.lt b → b.lt c → a.lt c) ∧ Trichotomous a b) ↔
      a.addr <+: b.addr ∨ b.addr <+: a.addr := by
  rw [← trichotomous_iff]
  exact ⟨fun h => h.2.2, fun h => ⟨lt_irrefl a, lt_trans, h⟩⟩

/-- 127.0.0.1 and 127.0.0.2, port 80. -/
theorem order_false :
    ¬Trichotomous ⟨[2, 0, 0, 80, 127, 0, 0, 1, 0, 0, 0, 0, 0, 0, 0, 0], by decide⟩
      ⟨[2, 0, 0, 80, 127, 0, 0, 2, 0, 0, 0, 0, 0, 0, 0, 0], by decide⟩ := by
  rw [trichotomous_iff]
  decide

end SockAddr

end Easy.Net
