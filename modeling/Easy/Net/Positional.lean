import Easy.Net.ConstReads
import Easy.Net.Uses

/-!
Reading `Buffer` at a position that is not the cursor's.

Both positional calls bound what they hand out by what is readable at the cursor, and
the copying one also takes the cursor's node for the node of the position. Each of them
does what a seek followed by the plain call would do on the buffers where that
makes no difference, and only there.
-/

namespace Easy.Net.Buffer

open Lib

variable {b : Buffer} {n p : ℕ}

/-! ### Copying -/

/-- A positional read of `n` bytes hands out the content from `p` on, or throws if there
are not so many, and changes nothing. -/
def ReadsPosition (b : Buffer) (n p : ℕ) : Prop :=
  if p + n ≤ b.size then readAt n p b = .ok ((b.content.drop p).take n) b
  else readAt n p b = .error .outOfRange b

/-- The cursor tells as well as `p` whether there are `n` bytes, and if there are, the
`n` bytes from `p`'s offset in the cursor's node on exist and are those at `p`. -/
def CursorTells (b : Buffer) (n p : ℕ) : Prop :=
  (p + n ≤ b.size ↔ b.position + n ≤ b.size) ∧
    (p + n ≤ b.size → b.readStart p + n ≤ b.capacity ∧
      (b.bytes.drop (b.readStart p)).take n = (b.bytes.drop p).take n)

instance : Decidable (b.CursorTells n p) :=
  inferInstanceAs (Decidable ((p + n ≤ b.size ↔ b.position + n ≤ b.size) ∧
    (p + n ≤ b.size → b.readStart p + n ≤ b.capacity ∧
      (b.bytes.drop (b.readStart p)).take n = (b.bytes.drop p).take n)))

/-- In the node of the cursor a positional read starts at its position. -/
theorem readStart_of_same_node (h : p / b.baseSize = b.position / b.baseSize) :
    b.readStart p = p := by
  rw [readStart, ← h, Nat.div_add_mod]

/-- What a positional read stands for: a seek to `p` and a read there. -/
theorem seek_read (h : b.Wf) (hn : 1 ≤ n) (hp : p ≤ b.size) :
    (do setPosition p
        read n : Call (List UInt8)) b =
      if p + n ≤ b.size then .ok ((b.content.drop p).take n) (b.moveTo (p + n))
      else .error .outOfRange (b.moveTo p) := by
  have hcap := hp.trans h.size_le
  have hsize : (b.moveTo p).size = b.size := Nat.max_eq_left hp
  have hreadSize : (b.moveTo p).readSize = b.size - p := by
    rw [readSize, hsize]
    rfl
  simp only [Call.bind_apply, setPosition_eq h hcap]
  split
  case isTrue hle =>
    have hcontent : (b.moveTo p).content = b.content := congrArg Flat.content (flat_moveTo hp)
    rw [read_eq (h.moveTo hcap) hn (by omega), hcontent]
    congr 1
    simp only [moveTo, curAt, Nat.max_eq_left hp]
  case isFalse hle => exact read_throws (by omega)

/-- Positional reads are those of the cursor on exactly the buffers where the cursor
tells what `p` does. -/
theorem Wf.readsPosition_iff (h : b.Wf) (hn : 1 ≤ n) : b.ReadsPosition n p ↔ b.CursorTells n p := by
  have hps := h.position_le
  have hread : n ≤ b.readSize ↔ b.position + n ≤ b.size := by
    rw [readSize]
    omega
  rw [ReadsPosition, CursorTells]
  by_cases hcur : b.position + n ≤ b.size
  · have hle := hread.mpr hcur
    by_cases hfit : b.readStart p + n ≤ b.capacity
    · have hrun := readAt_eq h hn hle hfit
      split
      case isTrue hp =>
        rw [hrun, ← slice_content hp]
        simp [hp, hcur, hfit]
      case isFalse hp =>
        rw [hrun]
        simp [hp, hcur]
    · have hrun := readAt_runs_out h hn hle (Nat.lt_of_not_le hfit)
      split
      case isTrue hp =>
        rw [hrun]
        simp [hp, hfit]
      case isFalse hp =>
        rw [hrun]
        simp [hp, hcur]
  · rw [readAt_throws (Nat.lt_of_not_le (hread.not.mpr hcur))]
    split
    case isTrue hp => simp [hp, hcur]
    case isFalse hp => simp [hp, hcur]

/-- In the node of the cursor the bytes are the right ones. -/
theorem Wf.cursorTells_of_same_node (h : b.Wf) (hsame : p / b.baseSize = b.position / b.baseSize) :
    b.CursorTells n p ↔ (p + n ≤ b.size ↔ b.position + n ≤ b.size) := by
  have hsc := h.size_le
  rw [CursorTells, readStart_of_same_node hsame]
  exact and_iff_left fun hp => ⟨hp.trans hsc, rfl⟩

/-- There a positional read is independent of the cursor unless what is readable from
one of the two places is too little. -/
theorem reads_position_of_same_node (h : uses.Reachable b) (hbase : 1 ≤ b.baseSize) (hn : 1 ≤ n)
    (hsame : p / b.baseSize = b.position / b.baseSize) :
    b.ReadsPosition n p ↔ (p + n ≤ b.size ↔ b.position + n ≤ b.size) := by
  have hwf := uses_wf h hbase
  rw [hwf.readsPosition_iff hn, hwf.cursorTells_of_same_node hsame]

/-- **Positional reads.** They are independent of the cursor on exactly the buffers where
the cursor tells what `p` does. -/
theorem positional_read_iff (h : uses.Reachable b) (hbase : 1 ≤ b.baseSize) (hn : 1 ≤ n) :
    b.ReadsPosition n p ↔ b.CursorTells n p := (uses_wf h hbase).readsPosition_iff hn

/-- A read from the middle of the cursor's node. -/
theorem positional_read_same_node :
    ∃ b, uses.Reachable b ∧ b.content = [1, 2, 3, 4] ∧
      (b.ReadsPosition 2 1 ↔ b.CursorTells 2 1) := by
  have hrun : (uses.run (new 4 fun _ => 0) [.call (.write [1, 2, 3, 4] fun _ => 0),
      .call (.setPosition 0)]).map (fun b => (b.baseSize, b.content)) =
      some (4, [1, 2, 3, 4]) := by
    decide
  obtain ⟨b, hr, hb⟩ := (reachable_new 4 fun _ => 0).of_map_run hrun
  obtain ⟨hbase, hcontent⟩ := Prod.mk.inj hb
  exact ⟨b, hr, hcontent, positional_read_iff hr (by omega) (by decide)⟩

/-- A cursor in the first node, and two bytes wanted of the second one. -/
theorem positional_read_false :
    ∃ b, uses.Reachable b ∧ 1 ≤ b.baseSize ∧ 2 ≤ b.size ∧ ¬ b.ReadsPosition 2 2 := by
  have hrun : (uses.run (new 2 fun _ => 0) [.call (.write [1, 2] fun _ => 0),
      .call (.write [3, 4] fun _ => 0), .call (.setPosition 0)]).map
        (fun b => (b.baseSize, b.size, b.content, (readAt 2 2).run' b)) =
      some (2, 4, [1, 2, 3, 4], some [1, 2]) := by
    decide
  obtain ⟨b, hr, hb⟩ := (reachable_new 2 fun _ => 0).of_map_run hrun
  obtain ⟨hbase, hsize, hcontent, hread⟩ : b.baseSize = 2 ∧ b.size = 4 ∧
      b.content = [1, 2, 3, 4] ∧ (readAt 2 2).run' b = some [1, 2] := by
    simpa using hb
  refine ⟨b, hr, by omega, by omega, fun h => ?_⟩
  rw [ReadsPosition, hsize, if_pos (by decide), hcontent] at h
  rw [Call.run'_eq_some h] at hread
  simp at hread

/-! ### `iovec`s -/

/-- `iovec`s for `len` bytes at `p` cover what there is of them, and nothing changes. -/
def BuffersPosition (b : Buffer) (len p : ℕ) : Prop :=
  ∃ iovs, getReadBuffersAt len p b = .ok (iovs, min len (b.size - p)) b ∧
    b.Covers iovs p (p + min len (b.size - p)) ∧
    iovs.flatMap (Iovec.bytes b) = (b.content.drop p).take (min len (b.size - p))

theorem walkLoop_eq {i count : ℕ} (h : i + count < b.chain.length) :
    walkLoop count (some i) b = .ok (some (i + count)) b := by
  induction count generalizing i with
  | zero => rfl
  | succ count ih =>
      have hnode : b.chain[i]? = some b.chain[i] := List.getElem?_eq_getElem (by omega)
      have hnext : b.next i = some (i + 1) := if_pos (by omega)
      simp only [walkLoop, Call.bind_apply, deref_apply hnode, Call.get_apply, hnext]
      rw [ih (by omega), show i + 1 + count = i + (count + 1) by omega]

/-- Where `iovec`s are returned, they are for as many bytes as are readable at the cursor. -/
theorem getReadBuffersAt_result {len m : ℕ} {iovs : List Iovec} {b' : Buffer}
    (h : getReadBuffersAt len p b = .ok (iovs, m) b') : m = min len b.readSize := by
  simp only [getReadBuffersAt, clamp_eq, Call.bind_apply, Call.get_apply] at h
  split at h
  case isTrue hzero => exact (Prod.mk.inj (EStateM.Result.ok.inj h).1).2.symm.trans hzero.symm
  case isFalse hzero =>
    obtain ⟨npos, b₁, -, h⟩ := Call.bind_eq_ok h
    obtain ⟨cur, b₂, -, h⟩ := Call.bind_eq_ok h
    obtain ⟨⟨i, n⟩, b₃, -, h⟩ := Call.bind_eq_ok h
    obtain ⟨iovs', b₄, -, h⟩ := Call.bind_eq_ok h
    exact (Prod.mk.inj (EStateM.Result.ok.inj h).1).2.symm

theorem getReadBuffersAt_eq (h : b.Wf) {len : ℕ} (hfit : p + min len b.readSize ≤ b.capacity) :
    ∃ iovs, getReadBuffersAt len p b = .ok (iovs, min len b.readSize) b ∧
      Extent.Tiles b.baseSize p (iovs.map Iovec.extent) (p + min len b.readSize) := by
  by_cases hzero : min len b.readSize = 0
  · refine ⟨[], ?_, by rw [hzero]; exact .nil⟩
    simp only [getReadBuffersAt, clamp_eq, Call.bind_apply, Call.get_apply, hzero, if_true,
      Call.pure_apply]
  · have hidx := h.index_lt (v := p) (by omega)
    have hwalk := walkLoop_eq (show 0 + p / b.baseSize < b.chain.length by omega)
    rw [Nat.zero_add] at hwalk
    have hnode := List.getElem?_eq_getElem hidx
    obtain ⟨iovs, hloop, ht⟩ := h.iovecs (Nat.pos_of_ne_zero hzero) hfit
    refine ⟨iovs, ?_, ht⟩
    simp only [getReadBuffersAt, clamp_eq, Call.bind_apply, Call.get_apply, if_neg hzero,
      if_neg h.chain_ne, remainder_apply h, hwalk, deref_apply hnode, hloop, liftLoop,
      Call.pure_apply]

/-- **Positional `iovec`s.** They cover the requested range on exactly the buffers where
as much of it is readable from the cursor as from `p`. -/
theorem positional_buffers_iff (h : uses.Reachable b) (hbase : 1 ≤ b.baseSize) (hp : p ≤ b.size)
    {len : ℕ} :
    b.BuffersPosition len p ↔ min len (b.size - b.position) = min len (b.size - p) := by
  have hwf := uses_wf h hbase
  have hsc := hwf.size_le
  constructor
  · rintro ⟨iovs, hget, -, -⟩
    exact (getReadBuffersAt_result hget).symm
  · intro hsame
    have hle : p + min len (b.size - p) ≤ b.size := by omega
    have hfit : p + min len b.readSize ≤ b.capacity := by
      rw [readSize, hsame]
      omega
    obtain ⟨iovs, hget, ht⟩ := getReadBuffersAt_eq hwf hfit
    rw [readSize, hsame] at hget ht
    refine ⟨iovs, hget, hwf.covers ht (by omega), ?_⟩
    rw [hwf.bytes_tiled ht (by omega), Nat.add_sub_cancel_left, slice_content hle]

/-- Three bytes wanted from a position behind the cursor, of the five there are. -/
theorem positional_buffers_behind :
    ∃ b, uses.Reachable b ∧ 1 ≤ b.size ∧
      (b.BuffersPosition 3 1 ↔ min 3 (b.size - b.position) = min 3 (b.size - 1)) := by
  have hrun : (uses.run (new 2 fun _ => 0) [.call (.write [1, 2] fun _ => 0),
      .call (.write [3, 4] fun _ => 0), .call (.write [5] fun _ => 0),
      .call (.setPosition 0)]).map (fun b => (b.baseSize, b.size)) = some (2, 5) := by
    decide
  obtain ⟨b, hr, hb⟩ := (reachable_new 2 fun _ => 0).of_map_run hrun
  obtain ⟨hbase, hsize⟩ := Prod.mk.inj hb
  exact ⟨b, hr, by omega, positional_buffers_iff hr (by omega) (by omega)⟩

/-- A cursor at the end of the content, and two bytes wanted from its start. -/
theorem positional_buffers_false :
    ∃ b, uses.Reachable b ∧ 1 ≤ b.baseSize ∧ 0 ≤ b.size ∧ ¬ b.BuffersPosition 2 0 := by
  have hrun : (uses.run (new 2 fun _ => 0) [.call (.write [1, 2] fun _ => 0),
      .call (.write [3] fun _ => 0)]).map (fun b => (b.baseSize, b.position, b.size)) =
      some (2, 3, 3) := by
    decide
  obtain ⟨b, hr, hb⟩ := (reachable_new 2 fun _ => 0).of_map_run hrun
  obtain ⟨hbase, hpos, hsize⟩ : b.baseSize = 2 ∧ b.position = 3 ∧ b.size = 3 := by simpa using hb
  refine ⟨b, hr, by omega, by omega, ?_⟩
  rintro ⟨iovs, hget, -, -⟩
  have hresult := getReadBuffersAt_result hget
  rw [readSize, hpos, hsize] at hresult
  omega

end Easy.Net.Buffer
