import Easy.Net.Representation

/-!
Runs of `Buffer` calls: the representation invariant over all of them, and how
far the buffer is a flat byte array with a cursor.

`machine` takes every public call that moves the cursor or changes the chain,
with any arguments. Its reachable buffers are well formed, and a call on one
of them returns or throws `out_of_range` with nothing changed.

`Tracks` compares a run with the flat array call by call. Reads and seeks always
agree with it. A write agrees exactly when its bytes fit behind the cursor in
the cursor's node, since `write` stores no further.
-/

namespace Easy.Net.Buffer

open Lib

variable {b : Buffer}

/-! ### The invariant over all runs -/

/-- The arguments the calls are made with: an empty `read` is left out. -/
def Op.Callable : Op → Prop
  | .read n => 1 ≤ n
  | _ => True

instance : DecidablePred Op.Callable
  | .read n => inferInstanceAs (Decidable (1 ≤ n))
  | .write .. | .setPosition _ | .getWriteBuffers .. | .clear => inferInstanceAs (Decidable True)

/-- All runs of calls on a buffer of either constructor. A call that throws
is part of the run; a call that faults ends it. -/
def machine : Lts Buffer Op where
  init b := (∃ k fresh, 1 ≤ k ∧ b = new k fresh) ∨ ∃ data, 1 ≤ data.length ∧ b = ofData data
  step b op :=
    if op.Callable then
      match op.exec b with
      | .ok _ b' => some b'
      | .error .outOfRange b' => some b'
      | .error _ _ => none
    else none

theorem wf_new {k : ℕ} (fresh : ℕ → UInt8) (hk : 1 ≤ k) : (new k fresh).Wf where
  base_pos := hk
  position_le := le_rfl
  size_le := Nat.zero_le _
  chain_ne := by simp [new]
  node_size := by simp [new, Node.alloc]
  capacity_eq := by simp [new]
  cur_eq := by simp [new, show ¬ 0 = k by omega]

theorem wf_ofData {data : List UInt8} (h : 1 ≤ data.length) : (ofData data).Wf where
  base_pos := h
  position_le := Nat.zero_le _
  size_le := le_rfl
  chain_ne := by simp [ofData]
  node_size := by simp [ofData, Node.wrap]
  capacity_eq := by simp [ofData]
  cur_eq := by simp [ofData, show ¬ 0 = data.length by omega]

/-- **One call.** On a well-formed buffer it returns and leaves one, or throws
`out_of_range` and leaves the buffer as it was. -/
theorem Wf.exec (h : b.Wf) {op : Op} (hop : op.Callable) :
    (∃ out b', op.exec b = .ok out b' ∧ b'.Wf) ∨ op.exec b = .error .outOfRange b := by
  cases op with
  | write buf fresh =>
      obtain ⟨b', hw, hwf, -, -⟩ := write_eq h buf fresh
      exact .inl ⟨[], b', by simp [Op.exec, hw], hwf⟩
  | read n =>
      by_cases hn : n ≤ b.readSize
      · refine .inl ⟨_, _, read_eq h hop hn, h.moveTo ?_⟩
        have := h.position_le
        have := h.size_le
        rw [readSize] at hn
        omega
      · exact .inr (read_throws (Nat.lt_of_not_le hn))
  | setPosition v =>
      by_cases hv : v ≤ b.capacity
      · exact .inl ⟨[], _, by simp [Op.exec, setPosition_eq h hv], h.moveTo hv⟩
      · exact .inr (by simp [Op.exec, setPosition_throws (Nat.lt_of_not_le hv)])
  | getWriteBuffers len fresh =>
      obtain ⟨r, b', hg, g⟩ := getWriteBuffers_eq h len fresh
      exact .inl ⟨[], b', by simp [Op.exec, hg], g.wf⟩
  | clear =>
      obtain ⟨b', hc, hwf⟩ := clear_eq h
      exact .inl ⟨[], b', by simp [Op.exec, hc], hwf⟩

theorem Wf.step {b' : Buffer} {op : Op} (hs : machine.step b op = some b') (h : b.Wf) : b'.Wf := by
  simp only [machine] at hs
  split at hs
  case isFalse => cases hs
  case isTrue hop =>
    rcases h.exec hop with ⟨out, b₁, he, hwf⟩ | he
    · rw [he] at hs
      exact Option.some.inj hs ▸ hwf
    · rw [he] at hs
      exact Option.some.inj hs ▸ h

theorem reachable_wf (h : machine.Reachable b) : b.Wf := by
  refine h.invariant ?_ (fun _ _ _ hs hwf => hwf.step hs)
  rintro s (⟨k, fresh, hk, rfl⟩ | ⟨data, hd, rfl⟩)
  · exact wf_new fresh hk
  · exact wf_ofData hd

/-- **The representation invariant.** After every run of calls the buffer is
well formed, and the next call, whatever its arguments, returns or throws
`out_of_range` and changes nothing. -/
theorem representation_invariant (h : machine.Reachable b) :
    b.Wf ∧ ∀ op : Op, op.Callable →
      (∃ out b', op.exec b = .ok out b') ∨ op.exec b = .error .outOfRange b := by
  have hwf := reachable_wf h
  refine ⟨hwf, fun op hop => ?_⟩
  rcases hwf.exec hop with ⟨out, b', he, -⟩ | he
  · exact .inl ⟨out, b', he⟩
  · exact .inr he

/-- A run over a chunk boundary that then seeks past the capacity. -/
theorem representation_invariant_run :
    ∃ b, machine.run (new 2 fun _ => 0)
        [.write [1, 2] fun _ => 0, .write [3] fun _ => 0, .setPosition 9] = some b ∧
      b.Wf ∧ ∀ op : Op, op.Callable →
        (∃ out b', op.exec b = .ok out b') ∨ op.exec b = .error .outOfRange b := by
  obtain ⟨b, hb⟩ := Option.isSome_iff_exists.mp (show (machine.run (new 2 fun _ => 0)
    [.write [1, 2] fun _ => 0, .write [3] fun _ => 0, .setPosition 9]).isSome from by decide)
  exact ⟨b, hb, representation_invariant (.of_run (.init (.inl ⟨2, _, by decide, rfl⟩)) hb)⟩

/-! ### The flat array -/

/-- The calls the flat array has. -/
inductive Access
  | write (buf : List UInt8) (fresh : ℕ → UInt8)
  | read (n : ℕ)
  | setPosition (v : ℕ)

namespace Access

def op : Access → Op
  | .write buf fresh => .write buf fresh
  | .read n => .read n
  | .setPosition v => .setPosition v

/-- The same call on the flat array, with what it returns. -/
def onFlat (f : Flat UInt8) : Access → List UInt8 × Flat UInt8
  | .write buf _ => ([], f.write buf)
  | .read n => f.read n
  | .setPosition v => ([], f.seek v)

/-- The arguments a call on `b` may have. -/
def Admissible (b : Buffer) : Access → Prop
  | .write _ _ => True
  | .read n => 1 ≤ n ∧ n ≤ b.readSize
  | .setPosition v => v ≤ b.size

/-- A write whose bytes fit into the cursor's node. -/
def Fits (b : Buffer) : Access → Prop
  | .write buf _ => buf.length ≤ b.room
  | _ => True

instance (b : Buffer) : DecidablePred (Admissible b)
  | .write .. => inferInstanceAs (Decidable True)
  | .read n => inferInstanceAs (Decidable (1 ≤ n ∧ n ≤ b.readSize))
  | .setPosition v => inferInstanceAs (Decidable (v ≤ b.size))

instance (b : Buffer) : DecidablePred (Fits b)
  | .write buf _ => inferInstanceAs (Decidable (buf.length ≤ b.room))
  | .read _ | .setPosition _ => inferInstanceAs (Decidable True)

end Access

/-- Every call of the run meets `P` on the buffer it is made on. -/
def Calls (P : Buffer → Access → Prop) : Buffer → List Access → Prop
  | _, [] => True
  | b, a :: as =>
    P b a ∧
      match a.op.exec b with
      | .ok _ b' => Calls P b' as
      | .error _ _ => True

instance decidableCalls (P : Buffer → Access → Prop) [∀ b a, Decidable (P b a)] :
    ∀ b as, Decidable (Calls P b as)
  | _, [] => inferInstanceAs (Decidable True)
  | b, a :: as =>
    let rest : ∀ r : EStateM.Result Fault Buffer (List UInt8),
        Decidable (match r with | .ok _ b' => Calls P b' as | .error _ _ => True)
      | .ok _ b' => decidableCalls P b' as
      | .error _ _ => inferInstanceAs (Decidable True)
    @instDecidableAnd _ _ _ (rest (a.op.exec b))

/-- `position_`, `size_` and the logical content are those of the flat array. -/
structure Shows (b : Buffer) (f : Flat UInt8) : Prop where
  position_eq : b.position = f.cursor
  size_eq : b.size = f.content.length
  content_eq : b.content = f.content

/-- Every call of the run returns what the flat array returns, and leaves a
buffer that shows it. -/
def Tracks : Buffer → Flat UInt8 → List Access → Prop
  | _, _, [] => True
  | b, f, a :: as =>
    ∃ b', a.op.exec b = .ok (a.onFlat f).1 b' ∧ b'.Shows (a.onFlat f).2 ∧
      Tracks b' (a.onFlat f).2 as

theorem Wf.shows_iff (h : b.Wf) {f : Flat UInt8} : b.Shows f ↔ b.flat = f := by
  constructor
  · intro hs
    rw [flat, hs.content_eq, hs.position_eq]
  · rintro rfl
    exact ⟨rfl, h.length_content.symm, rfl⟩

/-- **One call against the flat array.** It returns the same bytes, and shows the
same array afterwards if and only if it was not a write that ran over its node. -/
theorem Wf.access (h : b.Wf) {a : Access} (ha : a.Admissible b) :
    ∃ b', a.op.exec b = .ok (a.onFlat b.flat).1 b' ∧ b'.Wf ∧
      (b'.Shows (a.onFlat b.flat).2 ↔ a.Fits b) := by
  have hsc := h.size_le
  cases a with
  | write buf fresh =>
      obtain ⟨b', hw, hwf, -, hflat⟩ := write_eq h buf fresh
      refine ⟨b', by simp [Access.op, Op.exec, Access.onFlat, hw], hwf, ?_⟩
      rw [hwf.shows_iff, hflat, Access.onFlat, Access.Fits]
      constructor
      · intro heq
        have hcur := congrArg Flat.cursor heq
        simp only [Flat.cursor_write, List.length_take] at hcur
        omega
      · intro hfit
        rw [List.take_of_length_le hfit]
  | read n =>
      obtain ⟨hn, hle⟩ := ha
      have hps := h.position_le
      rw [readSize] at hle
      have hwf := h.moveTo (v := b.position + n) (by omega)
      refine ⟨_, read_eq h hn hle, hwf, ?_⟩
      rw [hwf.shows_iff, flat_moveTo (by omega)]
      exact ⟨fun _ => trivial, fun _ => rfl⟩
  | setPosition v =>
      have hv : v ≤ b.size := ha
      have hwf := h.moveTo (v := v) (by omega)
      refine ⟨_, by simp [Access.op, Op.exec, Access.onFlat, setPosition_eq h (hv.trans hsc)],
        hwf, ?_⟩
      rw [hwf.shows_iff, flat_moveTo hv]
      exact ⟨fun _ => trivial, fun _ => rfl⟩

theorem Wf.tracks_iff (h : b.Wf) {as : List Access} (hadm : Calls Access.Admissible b as) :
    Tracks b b.flat as ↔ Calls Access.Fits b as := by
  induction as generalizing b with
  | nil => exact Iff.rfl
  | cons a as ih =>
      obtain ⟨ha, hrest⟩ := hadm
      obtain ⟨b', he, hwf, hshows⟩ := h.access ha
      rw [he] at hrest
      simp only [Tracks, Calls, he]
      constructor
      · rintro ⟨b₁, heq, hs, ht⟩
        obtain rfl : b' = b₁ := by injection heq
        rw [← hwf.shows_iff.mp hs] at ht
        exact ⟨hshows.mp hs, (ih hwf hrest).mp ht⟩
      · rintro ⟨hfit, hfits⟩
        refine ⟨b', rfl, hshows.mpr hfit, ?_⟩
        rw [← hwf.shows_iff.mp (hshows.mpr hfit)]
        exact (ih hwf hrest).mpr hfits

/-- **The flat array.** A run of admissible calls on a fresh buffer tracks the
flat array if and only if each of its writes fits into the node of the cursor. -/
theorem tracks_flat_iff {k : ℕ} (fresh : ℕ → UInt8) (hk : 1 ≤ k) {as : List Access}
    (hadm : Calls Access.Admissible (new k fresh) as) :
    Tracks (new k fresh) Flat.empty as ↔ Calls Access.Fits (new k fresh) as := by
  rw [← (wf_new fresh hk).tracks_iff hadm]
  rfl

/-- A write that fills a node, a read of it from its middle and a write into
the next node. -/
theorem tracks_flat_four :
    Tracks (new 4 fun _ => 0) Flat.empty
      [.write [1, 2, 3, 4] fun _ => 0, .setPosition 1, .read 3, .write [5, 6] fun _ => 0] :=
  (tracks_flat_iff (fun _ => 0) (by decide) (by decide)).mpr (by decide)

/-- Three bytes written to a fresh buffer of base size two. -/
theorem tracks_flat_two_false :
    Calls Access.Admissible (new 2 fun _ => 0) [.write [1, 2, 3] fun _ => 0] ∧
      ¬ Tracks (new 2 fun _ => 0) Flat.empty [.write [1, 2, 3] fun _ => 0] := by
  refine ⟨by decide, ?_⟩
  rintro ⟨b', he, hs, -⟩
  have hcursor : 2 = b'.position :=
    congrArg (fun r => match r with | .ok _ b => b.position | .error _ b => b.position) he
  rw [hs.position_eq] at hcursor
  simp [Access.onFlat, Flat.write, Flat.empty] at hcursor

end Easy.Net.Buffer
