import Easy.Lib.Lts
import Easy.Lib.PtrTable
import Mathlib.Logic.Function.Basic

/-!
The table `events_` of `easy/base/IOManager.cc`, which `idle` passes to `epoll_wait`.

`resizeRevent` gives each entry an `epoll_event` of its own, so the table is not an
array of them. `epoll_wait` fills an array that starts where it is told to, at the
first entry's object. An address is an object and an offset in it, and each object has
room for one record, at offset 0.
-/

namespace Easy.Base

open Lib

/-- `events_`, and the number of the next `epoll_event`. -/
structure EventTable where
  events : List (Option ℕ)
  next : ℕ
  deriving DecidableEq, Repr

/-- What is stored where; `ρ` is the type of the records. -/
abbrev EventMemory (ρ : Type) := ℕ × ℕ → Option ρ

namespace EventTable

variable {ρ : Type}

/-- `resizeRevent` -/
def resizeRevent (t : EventTable) (size : ℕ) : EventTable :=
  let (next, events) := PtrTable.fill t.next (PtrTable.resize t.events size)
  ⟨events, next⟩

/-- The address is that of an `epoll_event` of the table. -/
def Owned (t : EventTable) (a : ℕ × ℕ) : Prop := some a.1 ∈ t.events ∧ a.2 = 0

/-- The addresses `epoll_wait` writes `k` records to, from `p` on. -/
def written (p : ℕ × ℕ) (k : ℕ) : List (ℕ × ℕ) := (List.range k).map fun j => (p.1, p.2 + j)

/-- The memory after `epoll_wait` has written the records from `p` on. -/
def epollWait (mem : EventMemory ρ) (p : ℕ × ℕ) (recs : List ρ) : EventMemory ρ := fun a =>
  if a.1 = p.1 ∧ p.2 ≤ a.2 then recs[a.2 - p.2]? <|> mem a else mem a

/-- The loop of `idle` over the first entries of the table: what it reads in each
round. A round leaves `touch` of the record in its place. -/
def dispatch (touch : ρ → ρ) : EventMemory ρ → List (Option ℕ) → List (Option ρ)
  | _, [] => []
  | mem, none :: events => none :: dispatch touch mem events
  | mem, some b :: events =>
    mem (b, 0) :: dispatch touch (Function.update mem (b, 0) ((mem (b, 0)).map touch)) events

/-- The table when the loop starts: it has grown if the batch filled it. -/
def grown (t : EventTable) (numEvents : ℕ) : EventTable :=
  if numEvents = t.events.length then t.resizeRevent (t.events.length <<< 1) else t

/-- What the rounds of the loop read after `epoll_wait` has written a batch from
`p` on. -/
def processed (t : EventTable) (mem : EventMemory ρ) (touch : ρ → ρ) (p : ℕ × ℕ)
    (recs : List ρ) : List (Option ρ) :=
  dispatch touch (epollWait mem p recs) ((t.grown recs.length).events.take recs.length)

/-- A batch written from `*events_.begin()` on stays inside the table's objects, and
each round of the loop processes its own record. -/
def Dispatched (t : EventTable) (mem : EventMemory ρ) (touch : ρ → ρ) (recs : List ρ) : Prop :=
  ∃ b, t.events.head? = some (some b) ∧ (∀ a ∈ written (b, 0) recs.length, t.Owned a) ∧
    t.processed mem touch (b, 0) recs = recs.map some

/-- All sequences of `resizeRevent` calls. -/
def machine : Lts EventTable ℕ where
  init t := t = ⟨[], 0⟩
  step t size := some (t.resizeRevent size)

/-- Every entry points to an object. -/
def Filled (t : EventTable) : Prop := ∀ i < t.events.length, ∃ b, t.events[i]? = some (some b)

theorem filled_resizeRevent (t : EventTable) (size : ℕ) : (t.resizeRevent size).Filled := by
  intro i hi
  exact PtrTable.getElem?_fill_of_lt (by simpa [resizeRevent] using hi)

theorem filled {t : EventTable} (h : machine.Reachable t) : t.Filled := by
  refine h.invariant (I := Filled) ?_ ?_
  · rintro t rfl i hi
    exact absurd hi (Nat.not_lt_zero i)
  · intro t size t' hstep _
    exact Option.some.inj hstep ▸ filled_resizeRevent t size

/-- Growing keeps the entries there are. -/
theorem getElem?_grown {t : EventTable} {i b : ℕ} (h : t.events[i]? = some (some b)) (k : ℕ) :
    (t.grown k).events[i]? = some (some b) := by
  simp only [grown]
  split
  · apply PtrTable.getElem?_fill_resize h
    rw [Nat.shiftLeft_eq]
    omega
  · exact h

/-- **Batches.** In any table that `resizeRevent` has made, a batch of records is
written inside the table's objects and each record dispatched if and only if there
is only one. -/
theorem dispatched_iff {t : EventTable} (h : machine.Reachable t) (mem : EventMemory ρ)
    (touch : ρ → ρ) {recs : List ρ} (hpos : 1 ≤ recs.length)
    (hsize : recs.length ≤ t.events.length) :
    t.Dispatched mem touch recs ↔ recs.length = 1 := by
  obtain ⟨b, hb⟩ := filled h 0 (by omega)
  have hhead : t.events.head? = some (some b) := by rw [List.head?_eq_getElem?, hb]
  constructor
  · rintro ⟨c, -, hinside, -⟩
    by_contra hmany
    -- the second record lies behind the first object
    have hsecond := hinside (c, 0 + 1) (List.mem_map.mpr ⟨1, List.mem_range.mpr (by omega), rfl⟩)
    exact absurd hsecond.2 (by simp)
  · intro hone
    obtain ⟨r, rfl⟩ := List.length_eq_one_iff.mp hone
    refine ⟨b, hhead, ?_, ?_⟩
    · intro a ha
      obtain rfl : a = (b, 0) := by simpa [written] using ha
      exact ⟨List.mem_of_head? hhead, rfl⟩
    · have htake : (t.grown 1).events.take 1 = [some b] := by
        rw [List.take_one, List.head?_eq_getElem?, getElem?_grown hb 1]
        rfl
      simp [processed, htake, dispatch, epollWait]

theorem dispatched_one : (resizeRevent ⟨[], 0⟩ 32).Dispatched (fun _ => none) id ["IN"] :=
  (dispatched_iff (.step (a := 32) (.init rfl) rfl) (fun _ => none) id (by decide) (by decide)).mpr
    rfl

/-- Two descriptors are ready at once. -/
theorem dispatched_two_false :
    ¬ (resizeRevent ⟨[], 0⟩ 32).Dispatched (fun _ => none) id ["IN", "OUT"] := by
  rintro ⟨b, -, hinside, -⟩
  exact absurd (hinside (b, 1) (by simp [written])).2 (by simp)

end EventTable

end Easy.Base
