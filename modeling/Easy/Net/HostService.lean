import Mathlib.Data.List.TakeWhile
import Mathlib.Data.Nat.Notation

/-!
How `Address::Lookup` (`easy/net/Address.cc`) splits a host string.

The first stage looks for an address in brackets, the second one for a single colon. Both
write `service`, and the second one leaves it at the first colon where it finds another one
behind it. So a bare IPv6 literal goes to `getaddrinfo` with a service that begins in the
middle of it.
-/

namespace Easy.Net

/-- `memchr` in the bytes from `start` on, as an offset in `s`. -/
def memchr (s : List Char) (start : ℕ) (c : Char) : Option ℕ :=
  ((s.drop start).idxOf? c).map (· + start)

/-- What a C function reads of a string. -/
def cstr (s : List Char) : List Char := s.takeWhile (· ≠ '\x00')

namespace Lookup

variable {host x s : List Char}

/-- The stage for an IPv6 address in brackets: `node`, and where `service` points to. -/
def inBrackets (host : List Char) : List Char × Option ℕ :=
  if host.head? = some '[' then
    match memchr host 1 ']' with
    | some endipv6 =>
      ((host.drop 1).take (endipv6 - 1),
        if (host ++ ['\x00'])[endipv6 + 1]? = some ':' then some (endipv6 + 2) else none)
    | none => ([], none)
  else ([], none)

/-- The stage for a node and a service. -/
def atColon (host : List Char) : List Char × Option ℕ :=
  match memchr host 0 ':' with
  | some k =>
    if (memchr host (k + 1) ':').isNone then (host.take k, some (k + 1)) else ([], some k)
  | none => ([], none)

/-- The node and the service that `Lookup` calls `getaddrinfo` with. -/
def getaddrinfoArgs (host : List Char) : List Char × Option (List Char) :=
  let first := inBrackets host
  let second := if first.1 = [] then atColon host else first
  let node := if second.1 = [] then host else second.1
  (cstr node, second.2.map fun k => cstr (host.drop k))

/-! ### The stages -/

theorem idxOf?_append_cons {c : Char} (h : c ∉ x) (s : List Char) :
    (x ++ c :: s).idxOf? c = some x.length := by
  rw [List.idxOf?_eq_some_iff]
  refine ⟨by simp, by simp, fun j hj => ?_⟩
  rw [List.getElem_append_left hj]
  exact fun hc => h (hc ▸ List.getElem_mem hj)

theorem cstr_eq (h : '\x00' ∉ s) : cstr s = s := by
  rw [cstr, List.takeWhile_eq_self_iff]
  intro c hc
  have hne : c ≠ '\x00' := fun heq => h (heq ▸ hc)
  simpa using hne

theorem inBrackets_none (h : host.head? ≠ some '[') : inBrackets host = ([], none) := if_neg h

theorem inBrackets_cons (h : ']' ∉ x) : inBrackets ('[' :: (x ++ ']' :: s)) =
    (x, if s.head? = some ':' then some (x.length + 3) else none) := by
  have hend : memchr ('[' :: (x ++ ']' :: s)) 1 ']' = some (x.length + 1) := by
    rw [memchr, List.drop_one, List.tail_cons, idxOf?_append_cons h, Option.map_some]
  have hbehind : ('[' :: (x ++ ']' :: s) ++ ['\x00'])[x.length + 1 + 1]? =
      (s ++ ['\x00']).head? := by
    simp [List.head?_eq_getElem?]
  have hcolon : (s ++ ['\x00']).head? = some ':' ↔ s.head? = some ':' := by
    cases s with
    | nil => decide
    | cons c cs => simp
  rw [inBrackets, List.head?_cons, if_pos rfl, hend]
  simp only [hbehind, hcolon]
  simp

theorem atColon_none (h : ':' ∉ host) : atColon host = ([], none) := by
  have hnone : memchr host 0 ':' = none := by
    rw [memchr, List.drop_zero, List.idxOf?_eq_none_iff.mpr h, Option.map_none]
  rw [atColon, hnone]

theorem atColon_append (h : ':' ∉ x) : atColon (x ++ ':' :: s) =
    if ':' ∈ s then ([], some x.length) else (x, some (x.length + 1)) := by
  have hfirst : memchr (x ++ ':' :: s) 0 ':' = some x.length := by
    rw [memchr, List.drop_zero, idxOf?_append_cons h, Option.map_some, Nat.add_zero]
  have hnext : (memchr (x ++ ':' :: s) (x.length + 1) ':').isNone ↔ ':' ∉ s := by
    have hdrop : (x ++ ':' :: s).drop (x.length + 1) = s := by simp
    rw [memchr, hdrop, Option.isNone_map, List.isNone_idxOf?]
  rw [atColon, hfirst]
  simp only [hnext, List.take_left]
  split
  case isTrue hs => rfl
  case isFalse hs => simp [not_not.mp hs]

/-! ### The law -/

/-- What `getaddrinfo` should be called with. -/
structure Splits (host : List Char) (args : List Char × Option (List Char)) : Prop where
  brackets : ∀ x, host = '[' :: (x ++ [']']) → x ≠ [] → ']' ∉ x → args = (x, none)
  brackets_service : ∀ x s, host = '[' :: (x ++ ']' :: ':' :: s) → x ≠ [] → ']' ∉ x →
    args = (x, some s)
  one_colon : host.head? ≠ some '[' → ∀ x s, host = x ++ ':' :: s → x ≠ [] → ':' ∉ x → ':' ∉ s →
    args = (x, some s)
  no_colon : host.head? ≠ some '[' → ':' ∉ host → args = (host, none)
  more_colons : host.head? ≠ some '[' → 2 ≤ host.count ':' → args = (host, none)

theorem args_brackets (h : '\x00' ∉ host) (hhost : host = '[' :: (x ++ ']' :: s)) (hx : x ≠ [])
    (hend : ']' ∉ x) :
    getaddrinfoArgs host = (x, if s.head? = some ':' then some (s.drop 1) else none) := by
  subst hhost
  have hnul : '\x00' ∉ x := fun hc => h (by simp [hc])
  have hnul' : '\x00' ∉ s.drop 1 := fun hc => h (by simp [List.mem_of_mem_drop hc])
  have hdrop : ('[' :: (x ++ ']' :: s)).drop (x.length + 3) = s.drop 1 := by simp
  simp only [getaddrinfoArgs, inBrackets_cons hend, if_neg hx, cstr_eq hnul]
  split
  · rw [Option.map_some, hdrop, cstr_eq hnul']
  · rfl

theorem args_no_colon (h : '\x00' ∉ host) (hhead : host.head? ≠ some '[') (hcolon : ':' ∉ host) :
    getaddrinfoArgs host = (host, none) := by
  simp [getaddrinfoArgs, inBrackets_none hhead, atColon_none hcolon, cstr_eq h]

theorem args_colon (h : '\x00' ∉ host) (hhead : host.head? ≠ some '[')
    (hhost : host = x ++ ':' :: s) (hx : ':' ∉ x) : getaddrinfoArgs host =
      if ':' ∈ s then (host, some (':' :: s)) else (if x = [] then host else x, some s) := by
  have hnul : '\x00' ∉ s := fun hc => h (by simp [hhost, hc])
  have hnul' : '\x00' ∉ x := fun hc => h (by simp [hhost, hc])
  have hnul'' : '\x00' ∉ ':' :: s := fun hc => h (hhost ▸ List.mem_append_right x hc)
  have hdrop : host.drop x.length = ':' :: s := by simp [hhost]
  have hdrop' : host.drop (x.length + 1) = s := by simp [hhost]
  have hsecond : atColon host = _ := hhost ▸ atColon_append hx
  simp only [getaddrinfoArgs, inBrackets_none hhead, if_true, hsecond]
  by_cases hs : ':' ∈ s
  · simp only [if_pos hs, if_true, Option.map_some, hdrop, cstr_eq h, cstr_eq hnul'']
  · simp only [if_neg hs, Option.map_some, hdrop', cstr_eq hnul]
    split
    · rw [cstr_eq h]
    · rw [cstr_eq hnul']

/-- **The split** is the right one for all strings but those without brackets that have two
colons or more. -/
theorem splits_iff (h : '\x00' ∉ host) :
    Splits host (getaddrinfoArgs host) ↔ host.head? = some '[' ∨ host.count ':' < 2 := by
  constructor
  · intro hsplits
    by_contra hbare
    obtain ⟨hhead, hcount⟩ := not_or.mp hbare
    have hcount := Nat.not_lt.mp hcount
    obtain ⟨x, s, hhost, hx⟩ :=
      List.eq_append_cons_of_mem (List.count_pos_iff.mp (Nat.lt_of_lt_of_le Nat.two_pos hcount))
    have hs : ':' ∈ s := by
      rw [hhost, List.count_append, List.count_eq_zero.mpr hx, List.count_cons_self] at hcount
      exact List.count_pos_iff.mp (by omega)
    have hargs := args_colon h hhead hhost hx
    rw [if_pos hs, hsplits.more_colons hhead (Nat.not_lt.mp (not_or.mp hbare).2)] at hargs
    cases hargs
  · intro hfew
    refine ⟨fun x hhost hx hend => ?_, fun x s hhost hx hend => ?_,
      fun hhead x s hhost hx hcolon hcolon' => ?_, fun hhead hcolon => args_no_colon h hhead hcolon,
      fun hhead hmore => ?_⟩
    · exact args_brackets h hhost hx hend
    · exact args_brackets h hhost hx hend
    · rw [args_colon h hhead hhost hcolon, if_neg hcolon', if_neg hx]
    · rcases hfew with hhead' | hlt
      · exact absurd hhead' hhead
      · exact absurd hlt (Nat.not_lt.mpr hmore)

/-- `[::1]:80` -/
theorem splits_brackets :
    Splits ['[', ':', ':', '1', ']', ':', '8', '0']
      (getaddrinfoArgs ['[', ':', ':', '1', ']', ':', '8', '0']) :=
  (splits_iff (by decide)).mpr (by decide)

/-- `::1` -/
theorem splits_false :
    getaddrinfoArgs [':', ':', '1'] = ([':', ':', '1'], some [':', ':', '1']) ∧
      ¬Splits [':', ':', '1'] (getaddrinfoArgs [':', ':', '1']) := by
  refine ⟨by decide, fun h => ?_⟩
  have hargs := h.more_colons (by decide) (by decide)
  exact absurd hargs (by decide)

end Lookup

end Easy.Net
