import Mathlib.Order.Basic
import Mathlib.Data.List.Basic

/-!
Ordered sets as sorted lists: insertion by a comparator, and the two halves a
sorted list is cut into at a bound.

The order is a relation `lt` on the elements, which for a set of pointers reads
the objects they point to, so nothing here fixes it; what is needed of it is
assumed of the elements at hand.
-/

namespace Easy.Lib.OrderedSet

variable {α : Type*} {lt : α → α → Prop}

/-- Insertion in front of the first larger element. Where the set holds an
equivalent element, it stays as it is. -/
def insert (lt : α → α → Prop) [DecidableRel lt] (x : α) : List α → List α
  | [] => [x]
  | y :: ys => if lt x y then x :: y :: ys else if lt y x then y :: insert lt x ys else y :: ys

section Insert

variable [DecidableRel lt] {x : α} {l : List α}

theorem mem_of_mem_insert {y : α} (h : y ∈ insert lt x l) : y = x ∨ y ∈ l := by
  induction l with
  | nil => simpa [insert] using h
  | cons z zs ih =>
      simp only [insert] at h
      split_ifs at h
      · simpa using h
      · rcases List.mem_cons.mp h with rfl | h
        · simp
        · rcases ih h with rfl | h <;> simp [*]
      · exact .inr h

/-- If no two elements are equivalent, everything inserted is found. -/
theorem mem_insert (htri : ∀ y ∈ l, lt x y ∨ x = y ∨ lt y x) {y : α} :
    y ∈ insert lt x l ↔ y = x ∨ y ∈ l := by
  refine ⟨mem_of_mem_insert, fun h => ?_⟩
  induction l with
  | nil => simpa [insert] using h
  | cons z zs ih =>
      have hzs : ∀ y ∈ zs, lt x y ∨ x = y ∨ lt y x := fun y hy => htri y (by simp [hy])
      simp only [insert]
      split_ifs with h₁ h₂
      · simpa using h
      · rcases h with rfl | h
        · exact List.mem_cons_of_mem _ (ih hzs (.inl rfl))
        · rcases List.mem_cons.mp h with rfl | h
          · simp
          · exact List.mem_cons_of_mem _ (ih hzs (.inr h))
      · have hxz : x = z := by
          have := htri z (by simp)
          tauto
        rcases h with rfl | h
        · simp [hxz]
        · exact h

theorem pairwise_insert (htrans : ∀ a b c, lt a b → lt b c → lt a c) (h : l.Pairwise lt) :
    (insert lt x l).Pairwise lt := by
  induction l with
  | nil => simp [insert]
  | cons z zs ih =>
      obtain ⟨hz, hzs⟩ := List.pairwise_cons.mp h
      simp only [insert]
      split_ifs with h₁ h₂
      · refine List.pairwise_cons.mpr ⟨fun y hy => ?_, h⟩
        rcases List.mem_cons.mp hy with rfl | hy
        · exact h₁
        · exact htrans _ _ _ h₁ (hz y hy)
      · refine List.pairwise_cons.mpr ⟨fun y hy => ?_, ih hzs⟩
        rcases mem_of_mem_insert hy with rfl | hy
        · exact h₂
        · exact hz y hy
      · exact h

/-- An element that does not come first was not smaller than the first one. -/
theorem head?_insert_ne (h : (insert lt x l).head? ≠ some x) :
    ∃ y ys, l = y :: ys ∧ (insert lt x l).head? = some y ∧ ¬ lt x y := by
  cases l with
  | nil => simp [insert] at h
  | cons y ys =>
      refine ⟨y, ys, rfl, ?_⟩
      simp only [insert] at h ⊢
      split_ifs at h ⊢ with h₁ h₂
      · simp at h
      · simp [h₁]
      · simp [h₁]

end Insert

/-! ### Finding an element -/

/-- The first element not smaller than `x`, if it is equivalent to it. -/
def find (lt : α → α → Prop) [DecidableRel lt] (x : α) (l : List α) : Option α :=
  (l.find? fun y => ¬ lt y x).filter fun y => ¬ lt x y

/-- In a sorted list without equivalent elements, `find` finds `x` itself, if
it is there. -/
theorem find_eq [DecidableRel lt] [DecidableEq α] {x : α} {l : List α} (hl : l.Pairwise lt)
    (hirr : ¬ lt x x) (htrans : ∀ a b c, lt a b → lt b c → lt a c)
    (htri : ∀ y ∈ l, lt x y ∨ x = y ∨ lt y x) : find lt x l = if x ∈ l then some x else none := by
  induction l with
  | nil => rfl
  | cons z zs ih =>
      obtain ⟨hz, hzs⟩ := List.pairwise_cons.mp hl
      rcases htri z (by simp) with hlt | rfl | hgt
      · have hnot : ¬ lt z x := fun hgt => hirr (htrans x z x hlt hgt)
        have hout : x ∉ z :: zs := by
          intro hx
          rcases List.mem_cons.mp hx with rfl | hx
          · exact hirr hlt
          · exact hnot (hz x hx)
        simp [find, hnot, hlt, hout]
      · simp [find, hirr]
      · have hne : x ≠ z := fun heq => hirr (heq ▸ hgt)
        have hrest := ih hzs fun y hy => htri y (by simp [hy])
        simpa [find, hgt, hne] using hrest

/-! ### Cutting at a bound -/

section Cut

variable {p : α → Bool} {l : List α}

/-- In a sorted list an upward closed predicate holds from its first success on. -/
theorem of_mem_drop_findIdx (hl : l.Pairwise lt)
    (hp : ∀ a ∈ l, ∀ b ∈ l, lt a b → p a → p b) {x : α} (hx : x ∈ l.drop (l.findIdx p)) : p x := by
  induction l with
  | nil => simp at hx
  | cons y ys ih =>
      obtain ⟨hy, hys⟩ := List.pairwise_cons.mp hl
      rw [List.findIdx_cons] at hx
      by_cases hpy : p y
      · rw [hpy] at hx
        rcases List.mem_cons.mp hx with rfl | hx
        · exact hpy
        · exact hp y (by simp) x (by simp [hx]) (hy x hx) hpy
      · simp only [hpy, cond_false, List.drop_succ_cons] at hx
        exact ih hys (fun a ha b hb => hp a (by simp [ha]) b (by simp [hb])) hx

end Cut

end Easy.Lib.OrderedSet
