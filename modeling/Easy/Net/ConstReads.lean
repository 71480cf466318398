import Easy.Net.Iovecs

/-!
The `const` member functions of `Buffer` that hand out bytes.

They walk the chain on a node pointer of their own. A copying read starts at the node
of the cursor, whatever position it is given; `getReadBuffers` with a position counts
its nodes from `root_`; `writeToFile` takes one piece of each node it comes to.
-/

namespace Easy.Net.Buffer

open Lib

variable {b : Buffer}

/-- `Buffer::read(void*, size_t, size_t) const` -/
def readAt (size position : ℕ) : Call (List UInt8) := do
  let b ← get
  if b.readSize < size then
    throw .outOfRange
  let npos ← remainder position b.baseSize
  let (i, _) ← deref b.cur
  if size = 0 then
    return []
  let (out, _) ← liftLoop (readLoop (b.chain.drop i) i npos size)
  return out

/-- `Buffer::toString` -/
def toString : Call (List UInt8) := do
  let b ← get
  if b.readSize = 0 then
    return []
  readAt b.readSize b.position

/-- `Buffer::getReadBuffers` at the cursor: what it appends to `buffers`, and its result. -/
def getReadBuffers (len : ℕ) : Call (List Iovec × ℕ) := do
  let b ← get
  let len := if b.readSize < len then b.readSize else len
  if len = 0 then
    return ([], 0)
  let npos ← remainder b.position b.baseSize
  let (i, _) ← deref b.cur
  let iovs ← liftLoop (iovecLoop (b.chain.drop i) i npos len)
  return (iovs, len)

/-- `count` times `cur = cur->next_`. -/
def walkLoop : ℕ → Option ℕ → Call (Option ℕ)
  | 0, cur => return cur
  | count + 1, cur => do
    let (i, _) ← deref cur
    let b ← get
    walkLoop count (b.next i)

/-- `Buffer::getReadBuffers` with a position. -/
def getReadBuffersAt (len position : ℕ) : Call (List Iovec × ℕ) := do
  let b ← get
  let len := if b.readSize < len then b.readSize else len
  if len = 0 then
    return ([], 0)
  let npos ← remainder position b.baseSize
  let cur ← walkLoop (position / b.baseSize) (if b.chain = [] then none else some 0)
  let (i, _) ← deref cur
  let iovs ← liftLoop (iovecLoop (b.chain.drop i) i npos len)
  return (iovs, len)

/-- The loop of `Buffer::writeToFile`, from the node `cur` points to: the bytes of each
`ofs.write`. Where the length comes out below zero, the subtraction wraps around and
`ofs.write` is told to read outside the node. -/
def saveLoop (baseSize : ℕ) : List Node → ℕ → ℕ → Except Fault (List (List UInt8))
  | [], _, readSize => if readSize = 0 then .ok [] else .error .nullNode
  | n :: rest, pos, readSize =>
    if readSize = 0 then .ok []
    else
      let diff := pos % baseSize
      let most := if baseSize < readSize then baseSize else readSize
      if most < diff then .error .overrun
      else if n.size < most then .error .overrun
      else
        match saveLoop baseSize rest (pos + (most - diff)) (readSize - (most - diff)) with
        | .error e => .error e
        | .ok out => .ok ((n.ptr.drop diff).take (most - diff) :: out)

/-- `Buffer::writeToFile`: the bytes of each `ofs.write`, and the result. `opened` is
whether the stream opens. -/
def writeToFile (opened : Bool) : Call (List (List UInt8) × Bool) := do
  if ¬ opened then
    return ([], false)
  let b ← get
  if b.readSize = 0 then
    return ([], true)
  let _ ← remainder b.position b.baseSize
  let out ← liftLoop (saveLoop b.baseSize (b.cur.elim [] b.chain.drop) b.position b.readSize)
  return (out, true)

/-! ### Reading at the cursor -/

/-- A copying read starts in the node of the cursor, at the offset that its position has
in its own node. -/
def readStart (b : Buffer) (position : ℕ) : ℕ :=
  b.baseSize * (b.position / b.baseSize) + position % b.baseSize

theorem readStart_position : b.readStart b.position = b.position := Nat.div_add_mod ..

theorem readAt_throws {n position : ℕ} (h : b.readSize < n) :
    readAt n position b = .error .outOfRange b := by
  simp [readAt, h]

/-- The bytes of the chain from a position of node `i` on. -/
theorem Wf.bytes_drop (h : b.Wf) (i o : ℕ) :
    ((b.chain.drop i).map Node.ptr).flatten.drop o = b.bytes.drop (b.baseSize * i + o) := by
  rw [List.map_drop, flatten_drop_chunks h.chain_length, List.drop_drop, bytes]

/-- What lies behind node `i`, by its offset in the chain. -/
theorem Wf.room_behind (h : b.Wf) (i : ℕ) :
    b.baseSize * (b.chain.drop i).length = b.capacity - b.baseSize * i := by
  rw [List.length_drop, Nat.mul_sub, ← h.capacity_eq]

theorem slice_content {p n : ℕ} (hle : p + n ≤ b.size) :
    (b.bytes.drop p).take n = (b.content.drop p).take n := by
  rw [content, List.drop_take, List.take_take, Nat.min_eq_left (by omega)]

/-- What is readable is copied from the node of the cursor on. -/
theorem readAt_eq_loop (h : b.Wf) {n position : ℕ} (hn : 0 < n) (hle : n ≤ b.readSize) :
    readAt n position b = liftLoop (Prod.fst <$> readLoop
      (b.chain.drop (b.position / b.baseSize)) (b.position / b.baseSize)
        (position % b.baseSize) n) b := by
  have hsc := h.size_le
  have henough : ¬ b.readSize < n := Nat.not_lt.mpr hle
  rw [readSize] at hle
  obtain ⟨node, hcur, hnode, -⟩ := h.node_at (by omega)
  cases hloop : readLoop (b.chain.drop (b.position / b.baseSize)) (b.position / b.baseSize)
      (position % b.baseSize) n with
  | ok r => simp [readAt, henough, h, hcur, deref_apply hnode, hloop, liftLoop, hn.ne']
  | error e => simp [readAt, henough, h, hcur, deref_apply hnode, hloop, liftLoop, hn.ne']

/-- A read inside the chain hands out the bytes from `readStart` on. -/
theorem readAt_eq (h : b.Wf) {n position : ℕ} (hn : 0 < n) (hle : n ≤ b.readSize)
    (hfit : b.readStart position + n ≤ b.capacity) :
    readAt n position b = .ok ((b.bytes.drop (b.readStart position)).take n) b := by
  have hmod := Nat.mod_lt position h.base_pos
  have hroom := h.room_behind (b.position / b.baseSize)
  rw [readStart] at hfit
  have hloop := readLoop_eq h.base_pos (h.node_size_drop (b.position / b.baseSize))
    (b.position / b.baseSize) (position % b.baseSize) n hmod hn (by omega)
  rw [h.bytes_drop] at hloop
  rw [readAt_eq_loop h hn hle, hloop]
  rfl

/-- A copy past the end of the chain follows the null pointer there. -/
theorem readLoop_runs_out {k : ℕ} {ns : List Node} (hns : ∀ n ∈ ns, n.size = k)
    (cur npos size : ℕ) (hnpos : npos < k) (hlt : k * ns.length < npos + size) :
    readLoop ns cur npos size = .error .nullNode := by
  induction ns generalizing cur npos size with
  | nil => rfl
  | cons n rest ih =>
      have hn : n.size = k := hns n (by simp)
      have hrest : ∀ m ∈ rest, m.size = k := fun m hm => hns m (by simp [hm])
      simp only [List.length_cons, Nat.mul_succ] at hlt
      have hfit : ¬ size ≤ k - npos := by omega
      rw [readLoop, hn, if_neg hfit,
        ih hrest (cur + 1) 0 (size - (k - npos)) (by omega) (by omega)]

theorem readAt_runs_out (h : b.Wf) {n position : ℕ} (hn : 0 < n) (hle : n ≤ b.readSize)
    (hfit : b.capacity < b.readStart position + n) :
    readAt n position b = .error .nullNode b := by
  have hmod := Nat.mod_lt position h.base_pos
  have hroom := h.room_behind (b.position / b.baseSize)
  rw [readStart] at hfit
  have hloop := readLoop_runs_out (h.node_size_drop (b.position / b.baseSize))
    (b.position / b.baseSize) (position % b.baseSize) n hmod (by omega)
  rw [readAt_eq_loop h hn hle, hloop]
  rfl

/-- **`toString`** is all that can be read. -/
theorem toString_eq (h : b.Wf) : toString b = .ok (b.content.drop b.position) b := by
  have hps := h.position_le
  have hlen := h.length_content
  by_cases hzero : b.readSize = 0
  · have hdrop : b.content.drop b.position = [] := List.drop_eq_nil_of_le (by
      rw [readSize] at hzero
      omega)
    simp [toString, hzero, hdrop]
  · have hfit : b.readStart b.position + b.readSize ≤ b.capacity := by
      have hsc := h.size_le
      rw [readStart_position, readSize]
      omega
    have hread := readAt_eq h (Nat.pos_of_ne_zero hzero) le_rfl hfit
    rw [readStart_position, slice_content (by rw [readSize]; omega),
      List.take_of_length_le (by rw [List.length_drop, readSize]; omega)] at hread
    simp [toString, hzero, hread]

/-! ### `iovec`s of a range -/

/-- The `iovec`s a walk from node `i` hands out. -/
theorem Wf.iovecs (h : b.Wf) {p len : ℕ} (hlen : 0 < len) (hfit : p + len ≤ b.capacity) :
    ∃ iovs, iovecLoop (b.chain.drop (p / b.baseSize)) (p / b.baseSize) (p % b.baseSize) len =
        .ok iovs ∧ Extent.Tiles b.baseSize p (iovs.map Iovec.extent) (p + len) := by
  have hroom := h.room_behind (p / b.baseSize)
  have hsplit := Nat.div_add_mod p b.baseSize
  obtain ⟨iovs, hloop, ht⟩ := iovecLoop_tiles h.base_pos (h.node_size_drop (p / b.baseSize))
    (p / b.baseSize) (p % b.baseSize) len (Nat.mod_lt p h.base_pos) hlen (by omega)
  rw [hsplit] at ht
  exact ⟨iovs, hloop, ht⟩

/-- What is readable of `len` bytes. -/
theorem clamp_eq (len : ℕ) :
    (if b.readSize < len then b.readSize else len) = min len b.readSize := by
  split <;> omega

/-- **`getReadBuffers`** at the cursor covers what is readable. -/
theorem getReadBuffers_eq (h : b.Wf) (len : ℕ) :
    ∃ iovs, getReadBuffers len b = .ok (iovs, min len b.readSize) b ∧
      Extent.Tiles b.baseSize b.position (iovs.map Iovec.extent)
        (b.position + min len b.readSize) := by
  have hps := h.position_le
  have hsc := h.size_le
  by_cases hzero : min len b.readSize = 0
  · refine ⟨[], ?_, by rw [hzero]; exact .nil⟩
    simp only [getReadBuffers, clamp_eq, Call.bind_apply, Call.get_apply, hzero, if_true,
      Call.pure_apply]
  · have hle : min len b.readSize ≤ b.size - b.position := Nat.min_le_right ..
    obtain ⟨node, hcur, hnode, -⟩ := h.node_at (by omega)
    obtain ⟨iovs, hloop, ht⟩ := h.iovecs (p := b.position) (Nat.pos_of_ne_zero hzero) (by omega)
    refine ⟨iovs, ?_, ht⟩
    simp only [getReadBuffers, clamp_eq, Call.bind_apply, Call.get_apply, if_neg hzero,
      remainder_apply h, hcur, deref_apply hnode, hloop, liftLoop, Call.pure_apply]

/-- **`getWriteBuffers`** covers the `len` bytes behind the cursor. -/
theorem getWriteBuffers_tiles (h : b.Wf) {len : ℕ} (hlen : 0 < len) (fresh : ℕ → UInt8) :
    ∃ iovs b', getWriteBuffers len fresh b = .ok (iovs, len) b' ∧ b.Grown b' len ∧
      Extent.Tiles b'.baseSize b'.position (iovs.map Iovec.extent) (b'.position + len) := by
  obtain ⟨b', hgrow, g⟩ := addCapacity_eq h fresh hlen
  have hfits := g.fits
  rw [← g.position_eq] at hfits
  obtain ⟨n, hcur, hn, -⟩ := g.wf.node_at (by omega)
  obtain ⟨iovs, hloop, ht⟩ := g.wf.iovecs hlen hfits
  refine ⟨iovs, b', ?_, g, ht⟩
  simp [getWriteBuffers, hlen.ne', hgrow, g.wf, hcur, deref_apply hn, hloop, liftLoop]

end Easy.Net.Buffer
