import Easy.Net.FlatRefinement
import Easy.Net.Iovecs

/-!
Everything that can happen to a `Buffer`.

`uses` adds to the calls of `machine` what that leaves out: buffers of base size zero,
empty reads, `setIsLittleEndian`, and stores through an `iovec` that `getWriteBuffers`
has handed out at some time. A buffer of base size at least one is well formed
throughout; one of base size zero stays empty.
-/

namespace Easy.Net.Buffer

open Lib

variable {b : Buffer}

/-- `Buffer::setIsLittleEndian` -/
def setIsLittleEndian (val : Bool) : Call Unit :=
  modify fun b => { b with endian := if val then .little else .big }

/-- What may happen to a buffer. `store` is made by a holder of an `iovec`. -/
inductive Use
  | call (op : Op)
  | setIsLittleEndian (val : Bool)
  | store (v : Iovec) (bs : List UInt8)

def Use.exec : Use → Call Unit
  | .call op => do let _ ← op.exec; return
  | .setIsLittleEndian val => Buffer.setIsLittleEndian val
  | .store v bs => memcpy v.node v.off bs

/-- The runs of a buffer of either constructor and of any size. Where a run would
meet undefined behaviour it ends. -/
def uses : Lts Buffer Use where
  init b := (∃ k fresh, b = new k fresh) ∨ ∃ data, b = ofData data
  step b u :=
    match u.exec b with
    | .ok _ b' => some b'
    | .error .outOfRange b' => some b'
    | .error _ _ => none

/-- A buffer of base size zero. -/
structure Hollow (b : Buffer) : Prop where
  baseSize_eq : b.baseSize = 0
  position_eq : b.position = 0
  size_eq : b.size = 0
  capacity_eq : b.capacity = 0

/-- What holds of a buffer throughout. -/
def Sound (b : Buffer) : Prop := b.Wf ∨ b.Hollow

/-! ### Empty reads -/

/-- An empty read divides by the base size first. -/
theorem Hollow.read_zero (h : b.Hollow) : read 0 b = .error .divByZero b := by
  simp [read, remainder, h.baseSize_eq]

/-- At exact capacity there is no node behind the cursor, and an empty read follows
the null pointer. -/
theorem Wf.read_zero (h : b.Wf) :
    read 0 b = if b.position = b.capacity then .error .nullNode b else .ok [] b := by
  split
  case isTrue hfull =>
    have hcur : b.cur = none := by rw [h.cur_eq, if_pos hfull]
    simp [read, h, hcur, deref]
  case isFalse hfull =>
    have hle := h.position_le.trans h.size_le
    obtain ⟨n, hcur, hn, -⟩ := h.node_at (by omega)
    simp [read, h, hcur, deref_apply hn]

/-! ### The invariant over all runs -/

/-- The buffer a call leaves to a later one is in `I`. A call that faults
leaves none. -/
def Leaves {α : Type} (I : Buffer → Prop) : EStateM.Result Fault Buffer α → Prop
  | .ok _ b => I b
  | .error .outOfRange b => I b
  | .error _ _ => True

@[simp] theorem leaves_ok {α : Type} (I : Buffer → Prop) (a : α) :
    Leaves I (.ok a b) ↔ I b := Iff.rfl

@[simp] theorem leaves_outOfRange {α : Type} (I : Buffer → Prop) :
    Leaves (α := α) I (.error .outOfRange b) ↔ I b := Iff.rfl

theorem Leaves.step {I : Buffer → Prop} {u : Use} {b' : Buffer} (h : Leaves I (u.exec b))
    (hs : uses.step b u = some b') : I b' := by
  simp only [uses] at hs
  split at hs
  case h_1 he =>
    rw [he] at h
    exact Option.some.inj hs ▸ h
  case h_2 he =>
    rw [he] at h
    exact Option.some.inj hs ▸ h
  case h_3 => cases hs

theorem Leaves.call {I : Buffer → Prop} {op : Op} (h : Leaves I (op.exec b)) :
    Leaves I ((Use.call op).exec b) := by
  simp only [Use.exec, Call.bind_apply]
  split
  case h_1 he => rwa [he] at h
  case h_2 e _ he =>
    rw [he] at h
    cases e <;> exact h

theorem Wf.leaves_call (h : b.Wf) (op : Op) : Leaves Wf (op.exec b) := by
  by_cases hop : op.Callable
  · rcases h.exec hop with ⟨out, b', he, hwf⟩ | he
    · rwa [he]
    · rwa [he]
  · cases op with
    | read n =>
        obtain rfl : n = 0 := by simpa [Op.Callable] using hop
        rw [Op.exec, h.read_zero]
        split
        · trivial
        · exact h
    | _ => exact absurd trivial hop

theorem Wf.leaves_memcpy (h : b.Wf) (v : Iovec) (bs : List UInt8) :
    Leaves Wf (memcpy v.node v.off bs b) := by
  rw [memcpy]
  split
  case h_1 => trivial
  case h_2 n hn =>
    split
    · exact h.setNode v.node (h.node_size n (List.mem_of_getElem? hn))
    · trivial

theorem Wf.leaves (h : b.Wf) (u : Use) : Leaves Wf (u.exec b) := by
  cases u with
  | call op => exact (h.leaves_call op).call
  | setIsLittleEndian val => exact { h with }
  | store v bs => exact h.leaves_memcpy v bs

theorem Hollow.addCapacity (h : b.Hollow) {n : ℕ} (fresh : ℕ → UInt8) (hn : 0 < n) :
    addCapacity n fresh b = .error .divByZero b := by
  simp [Buffer.addCapacity, getCapacity, h.baseSize_eq, h.capacity_eq, hn.ne']

theorem Hollow.leaves_call (h : b.Hollow) (op : Op) : Leaves Hollow (op.exec b) := by
  cases op with
  | write buf fresh =>
      by_cases hnil : buf.length = 0
      · simpa [Op.exec, write, hnil] using h
      · simp [Op.exec, write, hnil, h.addCapacity fresh (Nat.pos_of_ne_zero hnil), Leaves]
  | read n =>
      by_cases hn : n = 0
      · rw [hn, Op.exec, h.read_zero]
        trivial
      · rw [Op.exec, read_throws (by simp [readSize, h.size_eq]; omega)]
        exact h
  | setPosition v =>
      by_cases hv : v = 0
      · subst hv
        cases hchain : b.chain with
        | nil => simp [Op.exec, setPosition, hchain, seekLoop, liftLoop, Leaves]
        | cons root rest =>
            obtain ⟨cur, hseek⟩ : ∃ cur, seekLoop (root :: rest) 0 0 = .ok cur := by
              simp only [seekLoop, Nat.not_lt_zero, if_false]
              split <;> exact ⟨_, rfl⟩
            simp only [Op.exec, setPosition, Call.bind_apply, Call.get_apply, Nat.not_lt_zero,
              if_false, Call.modify_apply, hchain, hseek, liftLoop]
            exact ⟨h.baseSize_eq, rfl, h.size_eq, h.capacity_eq⟩
      · simpa [Op.exec, setPosition_throws (show b.capacity < v by simp [h.capacity_eq]; omega)]
          using h
  | getWriteBuffers len fresh =>
      by_cases hlen : len = 0
      · simpa [Op.exec, getWriteBuffers, hlen] using h
      · simp [Op.exec, getWriteBuffers, hlen, h.addCapacity fresh (Nat.pos_of_ne_zero hlen), Leaves]
  | clear =>
      cases hchain : b.chain with
      | nil => simp [Op.exec, clear, hchain, deref, Leaves]
      | cons root rest =>
          simp only [Op.exec, clear, hchain, deref, Call.bind_apply, Call.modify_apply,
            Call.get_apply]
          exact ⟨h.baseSize_eq, rfl, rfl, h.baseSize_eq⟩

theorem Hollow.leaves (h : b.Hollow) (u : Use) : Leaves Hollow (u.exec b) := by
  cases u with
  | call op => exact (h.leaves_call op).call
  | setIsLittleEndian val => exact { h with }
  | store v bs =>
      rw [Use.exec, memcpy]
      split
      case h_1 => trivial
      case h_2 n hn =>
        split
        · exact { h with }
        · trivial

theorem reachable_new (k : ℕ) (fresh : ℕ → UInt8) : uses.Reachable (new k fresh) :=
  .init (.inl ⟨k, fresh, rfl⟩)

theorem reachable_sound (h : uses.Reachable b) : b.Sound := by
  refine h.invariant ?_ ?_
  · rintro s (⟨k, fresh, rfl⟩ | ⟨data, rfl⟩)
    · obtain rfl | hk := Nat.eq_zero_or_pos k
      · exact .inr ⟨rfl, rfl, rfl, rfl⟩
      · exact .inl (wf_new fresh hk)
    · obtain hd | hd := Nat.eq_zero_or_pos data.length
      · exact .inr ⟨hd, rfl, hd, hd⟩
      · exact .inl (wf_ofData hd)
  · rintro s u s' hs (hwf | hhollow)
    · exact .inl ((hwf.leaves u).step hs)
    · exact .inr ((hhollow.leaves u).step hs)

/-- **The representation invariant**, of every buffer whose base size is not zero. -/
theorem uses_wf (h : uses.Reachable b) (hbase : 1 ≤ b.baseSize) : b.Wf := by
  rcases reachable_sound h with hwf | hhollow
  · exact hwf
  · have := hhollow.baseSize_eq
    omega

end Easy.Net.Buffer
