import Easy.Lib.Flat

/-!
Extents: pieces of equal chunks, for data that is read from and stored to several
places.

A list of extents tiles a range of the concatenated chunks if each lies in its chunk
and they follow one another in the concatenation. What is gathered from a tiling is
the range, and storing to it overwrites the range.
-/

namespace Easy.Lib

/-- `len` elements at offset `off` of a chunk. -/
structure Extent where
  chunk : ℕ
  off : ℕ
  len : ℕ
  deriving DecidableEq, Repr

namespace Extent

variable {α : Type*}

/-- Where the extent starts in the concatenation of chunks of length `k`. -/
def start (k : ℕ) (e : Extent) : ℕ := k * e.chunk + e.off

/-- The elements of an extent. -/
def get (L : List (List α)) (e : Extent) : List α := ((L[e.chunk]?.getD []).drop e.off).take e.len

/-- The elements of all extents, in order. -/
def gather (L : List (List α)) (es : List Extent) : List α := es.flatMap (get L)

/-- The chunks with `bs` stored in the extents, in order. -/
def scatter : List (List α) → List Extent → List α → List (List α)
  | L, [], _ => L
  | L, e :: es, bs =>
    scatter (L.modify e.chunk fun c => overwrite c e.off (bs.take e.len)) es (bs.drop e.len)

/-- The extents are pieces of chunks of length `k`, not empty, and are together the
range from `p` to `q` of the concatenation. -/
inductive Tiles (k : ℕ) : ℕ → List Extent → ℕ → Prop
  | nil {p : ℕ} : Tiles k p [] p
  | cons {e : Extent} {es : List Extent} {p q : ℕ} (hp : e.start k = p) (hpos : 0 < e.len)
      (hfit : e.off + e.len ≤ k) (ht : Tiles k (p + e.len) es q) : Tiles k p (e :: es) q

namespace Tiles

variable {k p q : ℕ} {es : List Extent} {L : List (List α)}

theorem le (h : Tiles k p es q) : p ≤ q := by
  induction h with
  | nil => exact le_rfl
  | cons _ _ _ _ ih => omega

/-- The extents cover each position of the range once, in order. -/
theorem positions (h : Tiles k p es q) :
    (es.flatMap fun e => List.range' (e.start k) e.len) = List.range' p (q - p) := by
  induction h with
  | nil => simp
  | cons hp hpos hfit ht ih =>
      have := ht.le
      rw [List.flatMap_cons, ih, hp, List.range'_append_1]
      congr 1
      omega

/-- Each extent ends before the ones behind it begin. -/
theorem pairwise (h : Tiles k p es q) :
    es.Pairwise fun e f => e.start k + e.len ≤ f.start k := by
  have hstart : ∀ {p q : ℕ} {es : List Extent}, Tiles k p es q → ∀ e ∈ es, p ≤ e.start k := by
    intro p q es h
    induction h with
    | nil => simp
    | cons hp _ _ _ ih =>
        intro e he
        rcases List.mem_cons.mp he with rfl | he
        · exact hp.ge
        · have := ih e he
          omega
  induction h with
  | nil => exact .nil
  | cons hp _ _ ht ih => exact .cons (fun f hf => hp ▸ hstart ht f hf) ih

/-- The extents of a range of existing positions are inside existing chunks. -/
theorem inside (h : Tiles k p es q) {count : ℕ} (hq : q ≤ k * count) :
    ∀ e ∈ es, e.chunk < count ∧ e.off + e.len ≤ k ∧ e.start k + e.len ≤ q := by
  induction h with
  | nil => simp
  | cons hp hpos hfit ht ih =>
      intro e he
      rcases List.mem_cons.mp he with rfl | he
      · have hle := ht.le
        refine ⟨?_, hfit, by omega⟩
        rw [start] at hp
        by_contra hout
        have := Nat.mul_le_mul_left k (Nat.le_of_not_lt hout)
        omega
      · exact ih hq e he

section Chunks

variable (hL : ∀ c ∈ L, c.length = k)
include hL

/-- An extent of an existing chunk is a range of the concatenation. -/
theorem get_eq {e : Extent} (hchunk : e.chunk < L.length) (hfit : e.off + e.len ≤ k) :
    e.get L = (L.flatten.drop (e.start k)).take e.len := by
  have hlen : L[e.chunk].length = k := hL _ (List.getElem_mem hchunk)
  rw [get, List.getElem?_eq_getElem hchunk, Option.getD_some, start, ← List.drop_drop,
    ← flatten_drop_chunks hL, List.drop_eq_getElem_cons hchunk, List.flatten_cons,
    List.drop_append_of_le_length (by omega), List.take_append_of_le_length]
  rw [List.length_drop]
  omega

/-- **Gathering** a tiling yields the range. -/
theorem gather_eq (h : Tiles k p es q) (hq : q ≤ k * L.length) :
    gather L es = (L.flatten.drop p).take (q - p) := by
  induction h with
  | nil => simp [gather]
  | @cons e es p q hp hpos hfit ht ih =>
      obtain ⟨hchunk, -, -⟩ := inside (.cons hp hpos hfit ht) hq e (by simp)
      have hle := ht.le
      rw [gather, List.flatMap_cons, ← gather, ih hq, get_eq hL hchunk hfit, hp, ← List.drop_drop,
        show q - p = e.len + (q - (p + e.len)) by omega, List.take_add]

/-- **Scattering** into a tiling overwrites the range, as far as the data goes. -/
theorem scatter_eq (h : Tiles k p es q) (hq : q ≤ k * L.length) {bs : List α}
    (hbs : bs.length ≤ q - p) :
    (scatter L es bs).flatten = overwrite L.flatten p bs ∧ (scatter L es bs).length = L.length ∧
      ∀ c ∈ scatter L es bs, c.length = k := by
  induction h generalizing L bs with
  | nil =>
      obtain rfl : bs = [] := by simpa using hbs
      simpa [scatter] using hL
  | @cons e es p q hp hpos hfit ht ih =>
      obtain ⟨hchunk, -, -⟩ := inside (.cons hp hpos hfit ht) hq e (by simp)
      have hle := ht.le
      have htake : e.off + (bs.take e.len).length ≤ k := by
        rw [List.length_take]
        omega
      have hchunks : ∀ c ∈ L.set e.chunk (overwrite L[e.chunk] e.off (bs.take e.len)),
          c.length = k := by
        intro c hc
        rcases List.mem_or_eq_of_mem_set hc with hc | rfl
        · exact hL c hc
        · have hlen := hL _ (List.getElem_mem hchunk)
          rw [length_overwrite_of_le (by omega), hlen]
      have hset : L.modify e.chunk (fun c => overwrite c e.off (bs.take e.len)) =
          L.set e.chunk (overwrite L[e.chunk] e.off (bs.take e.len)) := by
        rw [List.modify_eq_set_getElem? , List.getElem?_eq_getElem hchunk]
        rfl
      have hflat := flatten_set_overwrite hL (List.getElem?_eq_getElem hchunk) htake
      have hlenL : L.flatten.length = k * L.length := length_flatten_chunks hL
      rw [scatter, hset]
      have hdrop : (bs.drop e.len).length ≤ q - (p + e.len) := by
        rw [List.length_drop]
        omega
      obtain ⟨hrest, hlength, hsizes⟩ := ih hchunks (by simpa using hq) hdrop
      refine ⟨?_, by simpa using hlength, hsizes⟩
      rw [hrest, hflat, ← start, hp]
      exact overwrite_overwrite (by omega) (by omega)

end Chunks

end Tiles

end Extent

end Easy.Lib
