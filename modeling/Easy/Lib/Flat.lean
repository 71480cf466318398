import Mathlib.Data.List.Basic
import Mathlib.Tactic.Linarith

/-!
Flat arrays with a cursor, and arrays cut into chunks of one length.

`overwrite` is the one operation on contents: it puts a list at an offset and
extends the array where the list runs past its end. `Flat` adds the cursor.
The second half relates a list of equal chunks to its concatenation: a position
`p` of the flat array is offset `p % k` of chunk `p / k`, and overwriting inside
one chunk is overwriting the concatenation.
-/

namespace Easy.Lib

variable {α : Type*}

/-- The array with `bs` stored at offset `off`, extended if `bs` reaches past
its end. -/
def overwrite (l : List α) (off : ℕ) (bs : List α) : List α :=
  l.take off ++ bs ++ l.drop (off + bs.length)

@[simp] theorem overwrite_nil_right (l : List α) (off : ℕ) : overwrite l off [] = l := by
  simp [overwrite]

theorem length_overwrite {l : List α} {off : ℕ} (bs : List α) (h : off ≤ l.length) :
    (overwrite l off bs).length = max l.length (off + bs.length) := by
  simp only [overwrite, List.length_append, List.length_take, List.length_drop]
  omega

theorem length_overwrite_of_le {l : List α} {off : ℕ} {bs : List α}
    (h : off + bs.length ≤ l.length) : (overwrite l off bs).length = l.length := by
  rw [length_overwrite bs (by omega)]
  omega

theorem getElem?_overwrite {l : List α} {off : ℕ} (bs : List α) (h : off ≤ l.length) (i : ℕ) :
    (overwrite l off bs)[i]? =
      if i < off then l[i]? else if i < off + bs.length then bs[i - off]? else l[i]? := by
  simp only [overwrite, List.getElem?_append, List.length_append, List.length_take,
    Nat.min_eq_left h]
  by_cases h₁ : i < off
  · simp [h₁, show i < off + bs.length by omega]
  · by_cases h₂ : i < off + bs.length
    · simp [h₁, h₂]
    · simp only [h₁, h₂, if_false, List.getElem?_drop]
      congr 1
      omega

/-- What an overwrite inside an array does to a front part of it that contains
the offset. -/
theorem take_overwrite {l : List α} {off n : ℕ} (bs : List α) (h : off ≤ n) (hn : n ≤ l.length) :
    (overwrite l off bs).take (max n (off + bs.length)) = overwrite (l.take n) off bs := by
  refine List.ext_getElem? fun i => ?_
  rw [List.getElem?_take, getElem?_overwrite bs (by omega),
    getElem?_overwrite bs (by simp; omega), List.getElem?_take]
  split_ifs <;> first | rfl | omega

theorem overwrite_append_left {l l' : List α} {off : ℕ} {bs : List α}
    (h : off + bs.length ≤ l.length) :
    overwrite (l ++ l') off bs = overwrite l off bs ++ l' := by
  simp only [overwrite, List.take_append_of_le_length (show off ≤ l.length by omega),
    List.drop_append_of_le_length h, List.append_assoc]

theorem overwrite_append_right (l l' : List α) (off : ℕ) (bs : List α) :
    overwrite (l ++ l') (l.length + off) bs = l ++ overwrite l' off bs := by
  simp only [overwrite, List.take_length_add_append, Nat.add_assoc, List.drop_length_add_append,
    List.append_assoc]

/-- Overwriting in two parts. -/
theorem overwrite_overwrite {l bs : List α} {off n : ℕ} (h : off + n ≤ l.length)
    (hbs : off + bs.length ≤ l.length) :
    overwrite (overwrite l off (bs.take n)) (off + n) (bs.drop n) = overwrite l off bs := by
  have htake : off + (bs.take n).length ≤ l.length := by
    rw [List.length_take]
    omega
  have hlen := length_overwrite_of_le htake
  refine List.ext_getElem? fun i => ?_
  rw [getElem?_overwrite _ (by omega), getElem?_overwrite _ (by omega),
    getElem?_overwrite _ (by omega), List.length_take, List.length_drop, List.getElem?_take,
    List.getElem?_drop]
  split_ifs <;> first | rfl | omega | (congr 1; omega)

/-! ### The array with a cursor -/

/-- A flat array and a position in it. -/
structure Flat (α : Type*) where
  content : List α
  cursor : ℕ

namespace Flat

def empty : Flat α := ⟨[], 0⟩

/-- Store at the cursor and move it past what was stored. -/
def write (f : Flat α) (bs : List α) : Flat α :=
  ⟨overwrite f.content f.cursor bs, f.cursor + bs.length⟩

/-- The `n` elements at the cursor, which moves past them. -/
def read (f : Flat α) (n : ℕ) : List α × Flat α :=
  ((f.content.drop f.cursor).take n, { f with cursor := f.cursor + n })

def seek (f : Flat α) (v : ℕ) : Flat α := { f with cursor := v }

@[simp] theorem cursor_write (f : Flat α) (bs : List α) :
    (f.write bs).cursor = f.cursor + bs.length := rfl

@[simp] theorem content_write (f : Flat α) (bs : List α) :
    (f.write bs).content = overwrite f.content f.cursor bs := rfl

end Flat

/-! ### Equal chunks -/

section Chunks

variable {L : List (List α)} {k : ℕ} (hL : ∀ c ∈ L, c.length = k)
include hL

theorem length_flatten_chunks : L.flatten.length = k * L.length := by
  induction L with
  | nil => simp
  | cons c cs ih =>
      have hc : c.length = k := hL c (by simp)
      have hcs := ih fun c' h' => hL c' (by simp [h'])
      simp only [List.flatten_cons, List.length_append, List.length_cons, hc, hcs, Nat.mul_succ]
      omega

/-- The chunks from the `i`-th on hold what lies from position `k * i` on. -/
theorem flatten_drop_chunks (i : ℕ) : (L.drop i).flatten = L.flatten.drop (k * i) := by
  induction L generalizing i with
  | nil => simp
  | cons d cs ih =>
      cases i with
      | zero => simp
      | succ i =>
          have hd : d.length = k := hL d (by simp)
          rw [List.drop_succ_cons, ih (fun c' h' => hL c' (by simp [h'])), List.flatten_cons,
            show k * (i + 1) = d.length + k * i by rw [hd, Nat.mul_succ]; omega,
            List.drop_length_add_append]

/-- Overwriting inside chunk `i` overwrites the concatenation. -/
theorem flatten_set_overwrite {i o : ℕ} {c bs : List α} (hi : L[i]? = some c)
    (ho : o + bs.length ≤ k) :
    (L.set i (overwrite c o bs)).flatten = overwrite L.flatten (k * i + o) bs := by
  induction L generalizing i with
  | nil => simp at hi
  | cons d cs ih =>
      have hd : d.length = k := hL d (by simp)
      cases i with
      | zero =>
          simp only [List.getElem?_cons_zero, Option.some.injEq] at hi
          subst hi
          simp only [List.set_cons_zero, List.flatten_cons, Nat.mul_zero, Nat.zero_add]
          rw [overwrite_append_left (by omega)]
      | succ i =>
          have hcs := ih (fun c' h' => hL c' (by simp [h'])) hi
          rw [List.set_cons_succ, List.flatten_cons, hcs, List.flatten_cons,
            show k * (i + 1) + o = d.length + (k * i + o) by rw [hd, Nat.mul_succ]; omega,
            overwrite_append_right]

end Chunks

end Easy.Lib
