import Mathlib.Data.List.Basic
import Mathlib.Order.Basic

/-!
Growable tables of pointers: a vector whose new entries are null, and the loop that
gives every null entry an object of its own.

Objects are numbered in the order in which they are made; the number of the next
one is passed along.
-/

namespace Easy.Lib.PtrTable

/-- `vector::resize` on pointers. -/
def resize {α : Type*} (l : List (Option α)) (size : ℕ) : List (Option α) :=
  l.take size ++ List.replicate (size - l.length) none

@[simp] theorem length_resize {α : Type*} (l : List (Option α)) (size : ℕ) :
    (resize l size).length = size := by
  simp only [resize, List.length_append, List.length_take, List.length_replicate]
  omega

theorem getElem?_resize {α : Type*} {l : List (Option α)} {size i : ℕ} (hi : i < l.length)
    (hsize : i < size) : (resize l size)[i]? = l[i]? := by
  rw [resize, List.getElem?_append_left (by simp; omega), List.getElem?_take_of_lt hsize]

/-- Growing adds null entries, which read like entries that are not there. -/
theorem join_getElem?_resize {α : Type*} {l : List (Option α)} {size : ℕ} (h : l.length ≤ size)
    (i : ℕ) : (resize l size)[i]?.join = l[i]?.join := by
  rw [resize, List.take_of_length_le h, List.getElem?_append]
  split
  · rfl
  · rw [List.getElem?_eq_none (l := l) (by omega), List.getElem?_replicate]
    split <;> rfl

/-- Every null entry is set to a new object. -/
def fill (next : ℕ) : List (Option ℕ) → ℕ × List (Option ℕ)
  | [] => (next, [])
  | none :: ps => ((fill (next + 1) ps).1, some next :: (fill (next + 1) ps).2)
  | some b :: ps => ((fill next ps).1, some b :: (fill next ps).2)

@[simp] theorem length_fill (next : ℕ) (ps : List (Option ℕ)) :
    (fill next ps).2.length = ps.length := by
  induction ps generalizing next with
  | nil => rfl
  | cons p ps ih => cases p <;> simp [fill, ih]

/-- Entries that are not null stay. -/
theorem getElem?_fill {next i b : ℕ} {ps : List (Option ℕ)} (h : ps[i]? = some (some b)) :
    (fill next ps).2[i]? = some (some b) := by
  induction ps generalizing next i with
  | nil => simp at h
  | cons p ps ih =>
      cases i with
      | zero =>
          obtain rfl : p = some b := by simpa using h
          rfl
      | succ i => cases p <;> exact ih (by simpa using h)

/-- No entry of a filled table is null. -/
theorem exists_of_mem_fill {next : ℕ} {ps : List (Option ℕ)} {p : Option ℕ}
    (h : p ∈ (fill next ps).2) : ∃ b, p = some b := by
  induction ps generalizing next with
  | nil => simp [fill] at h
  | cons q ps ih =>
      cases q with
      | none =>
          rcases List.mem_cons.mp h with rfl | h
          · exact ⟨next, rfl⟩
          · exact ih h
      | some c =>
          rcases List.mem_cons.mp h with rfl | h
          · exact ⟨c, rfl⟩
          · exact ih h

/-- Every entry of a filled table points to an object. -/
theorem getElem?_fill_of_lt {next i : ℕ} {ps : List (Option ℕ)} (h : i < ps.length) :
    ∃ b, (fill next ps).2[i]? = some (some b) := by
  have hi : i < (fill next ps).2.length := by simpa using h
  obtain ⟨b, hb⟩ := exists_of_mem_fill (List.getElem_mem hi)
  exact ⟨b, by rw [List.getElem?_eq_getElem hi, hb]⟩

/-- A table that does not shrink keeps its objects. -/
theorem getElem?_fill_resize {next size i b : ℕ} {ps : List (Option ℕ)}
    (h : ps[i]? = some (some b)) (hsize : ps.length ≤ size) :
    (fill next (resize ps size)).2[i]? = some (some b) := by
  have hi : i < ps.length := (List.getElem?_eq_some_iff.mp h).1
  apply getElem?_fill
  rw [getElem?_resize hi (by omega), h]

end Easy.Lib.PtrTable
