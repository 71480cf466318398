import Mathlib.Data.List.Basic

/-!
Parsers of flat streams, and what it means that one reads what an encoder has
written: it takes exactly the written elements, whatever follows them.
-/

namespace Easy.Lib

/-- A parser takes its input from the front of a stream, or fails. -/
abbrev Parser (β : Type) := StateT (List β) Option

namespace Parser

variable {β α γ : Type}

/-- The next `n` elements. -/
def take (n : ℕ) : Parser β (List β) := fun s =>
  if n ≤ s.length then some (s.take n, s.drop n) else none

theorem bind_apply (p : Parser β α) (f : α → Parser β γ) (s : List β) :
    (p >>= f) s = (p s).bind fun r => f r.1 r.2 := rfl

/-- On a stream that starts with `bs`, the parser takes `bs` and yields `a`. -/
def Reads (p : Parser β α) (bs : List β) (a : α) : Prop := ∀ rest, p (bs ++ rest) = some (a, rest)

theorem Reads.pure (a : α) : Reads (β := β) (Pure.pure a) [] a := fun _ => rfl

theorem Reads.bind {p : Parser β α} {f : α → Parser β γ} {bs bs' : List β} {a : α} {c : γ}
    (h : p.Reads bs a) (h' : (f a).Reads bs' c) : (p >>= f).Reads (bs ++ bs') c := by
  intro rest
  rw [List.append_assoc]
  change (p (bs ++ (bs' ++ rest)) >>= fun r => f r.1 r.2) = _
  rw [h (bs' ++ rest)]
  exact h' rest

/-- A parser of one element, and one of the rest. -/
theorem Reads.cons {p : Parser β α} {f : α → Parser β γ} {b : β} {bs : List β} {a : α} {c : γ}
    (h : p.Reads [b] a) (h' : (f a).Reads bs c) : (p >>= f).Reads (b :: bs) c :=
  h.bind h'

theorem Reads.map {p : Parser β α} {bs : List β} {a : α} (h : p.Reads bs a) (f : α → γ) :
    (f <$> p).Reads bs (f a) := by
  intro rest
  change (p (bs ++ rest) >>= fun r => some (f r.1, r.2)) = _
  rw [h rest]
  rfl

theorem reads_take (bs : List β) : (take bs.length).Reads bs bs := by
  intro rest
  simp [take]

/-! ### Sequences of items of different kinds -/

section Items

variable {κ : Type} {Val : κ → Type}

/-- The encodings of the items, one after the other. -/
def writeAll (write : ∀ k, Val k → List β) : List (Σ k, Val k) → List β
  | [] => []
  | ⟨k, v⟩ :: items => write k v ++ writeAll write items

/-- One item of each of the kinds, in their order. -/
def readAll (read : ∀ k, Parser β (Val k)) : List κ → Parser β (List (Σ k, Val k))
  | [] => Pure.pure []
  | k :: ks => do
    let v ← read k
    (⟨k, v⟩ :: ·) <$> readAll read ks

/-- **Sequences.** If each kind of item is read as it was written, so is any sequence
of items. -/
theorem reads_all {write : ∀ k, Val k → List β} {read : ∀ k, Parser β (Val k)}
    (h : ∀ k v, (read k).Reads (write k v) v) (items : List (Σ k, Val k)) :
    (readAll read (items.map Sigma.fst)).Reads (writeAll write items) items := by
  induction items with
  | nil => exact .pure []
  | cons item items ih =>
      obtain ⟨k, v⟩ := item
      exact (h k v).bind (ih.map (⟨k, v⟩ :: ·))

end Items

end Parser

end Easy.Lib
