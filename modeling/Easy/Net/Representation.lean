import Easy.Net.Buffer
import Easy.Lib.Lts

/-!
The representation invariant of `Buffer`, and what each member function does
to a buffer that satisfies it.

`Wf` is the invariant. The cached cursor is a function of the other fields:
`curAt v` is the node a position belongs to, and null at exact capacity. The
loops over the chain are solved once, for a chain of nodes of one size, and
every member function then gets one specification lemma, which later proofs use
in place of its definition.
-/

namespace Easy.Net

open Lib

/-! ### Running a call -/

namespace Call

variable {α β : Type}

@[simp] theorem bind_apply (x : Call α) (f : α → Call β) (b : Buffer) :
    (x >>= f) b = match x b with
      | .ok a b' => f a b'
      | .error e b' => .error e b' := by
  simp only [bind, EStateM.bind]
  cases x b <;> rfl

@[simp] theorem pure_apply (a : α) (b : Buffer) : (pure a : Call α) b = .ok a b := rfl

@[simp] theorem get_apply (b : Buffer) : (get : Call Buffer) b = .ok b b := rfl

@[simp] theorem modify_apply (g : Buffer → Buffer) (b : Buffer) :
    (modify g : Call PUnit) b = .ok ⟨⟩ (g b) := rfl

@[simp] theorem map_apply (f : α → β) (x : Call α) (b : Buffer) :
    (f <$> x) b = match x b with
      | .ok a b' => .ok (f a) b'
      | .error e b' => .error e b' := by
  simp only [Functor.map, EStateM.map]
  cases x b <;> rfl

/-- A sequence of calls returns if the first one does and the rest does from there. -/
theorem bind_eq_ok {x : Call α} {f : α → Call β} {b b' : Buffer} {c : β}
    (h : (x >>= f) b = .ok c b') : ∃ a b₁, x b = .ok a b₁ ∧ f a b₁ = .ok c b' := by
  rw [bind_apply] at h
  split at h
  case h_1 a b₁ he => exact ⟨a, b₁, he, h⟩
  case h_2 => cases h

theorem bind_eq_error {x : Call α} {f : α → Call β} {b b' : Buffer} {e : Fault}
    (h : (x >>= f) b = .error e b') :
    x b = .error e b' ∨ ∃ a b₁, x b = .ok a b₁ ∧ f a b₁ = .error e b' := by
  rw [bind_apply] at h
  split at h
  case h_1 a b₁ he => exact .inr ⟨a, b₁, he, h⟩
  case h_2 he =>
    cases h
    exact .inl he

theorem run'_eq_some {x : Call α} {b b' : Buffer} {a : α} (h : x b = .ok a b') :
    x.run' b = some a := congrArg (fun r => EStateM.run' (fun _ : Buffer => r) b) h

@[simp] theorem throw_apply (e : Fault) (b : Buffer) : (throw e : Call α) b = .error e b := rfl

end Call

namespace Buffer

variable {b : Buffer}

/-- The representation invariant. -/
structure Wf (b : Buffer) : Prop where
  base_pos : 0 < b.baseSize
  position_le : b.position ≤ b.size
  size_le : b.size ≤ b.capacity
  chain_ne : b.chain ≠ []
  node_size : ∀ n ∈ b.chain, n.size = b.baseSize
  capacity_eq : b.capacity = b.baseSize * b.chain.length
  cur_eq : b.cur = if b.position = b.capacity then none else some (b.position / b.baseSize)

/-- The node a position belongs to: null at exact capacity. -/
def curAt (b : Buffer) (v : ℕ) : Option ℕ :=
  if v = b.capacity then none else some (v / b.baseSize)

/-- The buffer with its cursor at `v`, and its size extended to `v`. -/
def moveTo (b : Buffer) (v : ℕ) : Buffer :=
  { b with position := v, size := max b.size v, cur := b.curAt v }

/-- What the cursor's node has left behind the cursor. -/
def room (b : Buffer) : ℕ := b.baseSize - b.position % b.baseSize

/-! ### Reading the chain -/

theorem Wf.chain_length (h : b.Wf) : ∀ c ∈ b.chain.map Node.ptr, c.length = b.baseSize := by
  intro c hc
  obtain ⟨n, hn, rfl⟩ := List.mem_map.mp hc
  rw [n.length_ptr, h.node_size n hn]

theorem Wf.length_bytes (h : b.Wf) : b.bytes.length = b.capacity := by
  rw [bytes, length_flatten_chunks h.chain_length, List.length_map, h.capacity_eq]

theorem Wf.length_content (h : b.Wf) : b.content.length = b.size := by
  rw [content, List.length_take, h.length_bytes]
  exact Nat.min_eq_left h.size_le

theorem Wf.index_lt (h : b.Wf) {v : ℕ} (hv : v < b.capacity) :
    v / b.baseSize < b.chain.length := by
  rw [Nat.div_lt_iff_lt_mul h.base_pos, Nat.mul_comm, ← h.capacity_eq]
  exact hv

theorem Wf.node_size_drop (h : b.Wf) (i : ℕ) : ∀ n ∈ b.chain.drop i, n.size = b.baseSize :=
  fun n hn => h.node_size n (List.mem_of_mem_drop hn)

/-- Below capacity the cursor points to the node of its position. -/
theorem Wf.node_at (h : b.Wf) (hp : b.position < b.capacity) :
    ∃ n, b.cur = some (b.position / b.baseSize) ∧
      b.chain[b.position / b.baseSize]? = some n ∧ n.size = b.baseSize := by
  have hlt := h.index_lt hp
  refine ⟨b.chain[b.position / b.baseSize], ?_, List.getElem?_eq_getElem hlt,
    h.node_size _ (List.getElem_mem hlt)⟩
  rw [h.cur_eq, if_neg (by omega)]

/-! ### Moving the cursor -/

theorem curAt_of_lt {i v : ℕ} (h : b.Wf) (hi : i < b.chain.length) (hle : b.baseSize * i ≤ v)
    (hlt : v < b.baseSize * (i + 1)) : b.curAt v = some i := by
  have hcap : b.baseSize * (i + 1) ≤ b.capacity := by
    rw [h.capacity_eq]
    exact Nat.mul_le_mul_left _ hi
  rw [curAt, if_neg (by omega), Nat.div_eq_of_lt_le (by rwa [Nat.mul_comm]) (by rwa [Nat.mul_comm])]

/-- At a chunk boundary the cursor is what `next_` of the chunk before is. -/
theorem curAt_mul_succ {i : ℕ} (h : b.Wf) (hi : i < b.chain.length) :
    b.curAt (b.baseSize * (i + 1)) = b.next i := by
  have hiff : b.baseSize * (i + 1) = b.capacity ↔ ¬ i + 1 < b.chain.length := by
    rw [h.capacity_eq, Nat.mul_right_inj h.base_pos.ne']
    omega
  rw [curAt, next, Nat.mul_div_cancel_left _ h.base_pos]
  by_cases hlt : i + 1 < b.chain.length
  · rw [if_neg (by rw [hiff]; simpa using hlt), if_pos hlt]
  · rw [if_pos (hiff.mpr hlt), if_neg hlt]

/-- Behind `n` bytes of the cursor's node stands that node, or the next one
if they are all it has left. -/
theorem curAt_add {n : ℕ} (h : b.Wf) (hp : b.position < b.capacity) (hn : n ≤ b.room) :
    b.curAt (b.position + n) =
      if b.baseSize = b.position % b.baseSize + n then b.next (b.position / b.baseSize)
      else some (b.position / b.baseSize) := by
  have hidx := h.index_lt hp
  have hsplit := Nat.div_add_mod b.position b.baseSize
  have hmod := Nat.mod_lt b.position h.base_pos
  simp only [room] at hn
  split
  · rw [← curAt_mul_succ h hidx, Nat.mul_succ]
    congr 1
    omega
  · refine curAt_of_lt h hidx (by omega) ?_
    rw [Nat.mul_succ]
    omega

theorem Wf.moveTo (h : b.Wf) {v : ℕ} (hv : v ≤ b.capacity) : (b.moveTo v).Wf where
  base_pos := h.base_pos
  position_le := Nat.le_max_right ..
  size_le := Nat.max_le.mpr ⟨h.size_le, hv⟩
  chain_ne := h.chain_ne
  node_size := h.node_size
  capacity_eq := h.capacity_eq
  cur_eq := rfl

/-- Inside the content, moving the cursor changes nothing else. -/
theorem flat_moveTo {v : ℕ} (hv : v ≤ b.size) : (b.moveTo v).flat = b.flat.seek v := by
  simp [flat, content, bytes, Buffer.moveTo, Flat.seek, Nat.max_eq_left hv]

/-! ### The loops over a chain of equal nodes -/

section Loops

variable {k : ℕ} {ns : List Node}

theorem seekLoop_eq (hk : 0 < k) (hns : ∀ n ∈ ns, n.size = k) (hne : ns ≠ []) {v : ℕ} (cur : ℕ)
    (hv : v ≤ k * ns.length) :
    seekLoop ns cur v = .ok (if v = k * ns.length then none else some (cur + v / k)) := by
  induction ns generalizing cur v with
  | nil => exact absurd rfl hne
  | cons n rest ih =>
      have hn : n.size = k := hns n (by simp)
      have hrest : ∀ m ∈ rest, m.size = k := fun m hm => hns m (by simp [hm])
      simp only [List.length_cons, Nat.mul_succ] at hv ⊢
      by_cases hlt : k < v
      · have hne' : rest ≠ [] := by
          rintro rfl
          simp at hv
          omega
        have hdiv : v / k = (v - k) / k + 1 := Nat.div_eq_sub_div hk hlt.le
        rw [seekLoop, hn, if_pos hlt, ih hrest hne' (cur + 1) (by omega), hdiv]
        simp only [Nat.sub_eq_iff_eq_add hlt.le, Nat.add_assoc, Nat.add_comm 1]
      · rw [seekLoop, hn, if_neg hlt]
        by_cases heq : v = k
        · subst heq
          cases rest with
          | nil => simp
          | cons m rest => simp [Nat.div_self hk, Nat.mul_succ, hk.ne']
        · have hz : v / k = 0 := Nat.div_eq_of_lt (by omega)
          rw [if_neg heq, if_neg (by omega), hz, Nat.add_zero]

theorem readLoop_eq (hk : 0 < k) (hns : ∀ n ∈ ns, n.size = k) (cur npos size : ℕ)
    (hnpos : npos < k) (hsize : 0 < size) (hle : npos + size ≤ k * ns.length) :
    readLoop ns cur npos size =
      .ok (((ns.map Node.ptr).flatten.drop npos).take size,
        if npos + size = k * ns.length then none else some (cur + (npos + size) / k)) := by
  induction ns generalizing cur npos size with
  | nil => simp at hle; omega
  | cons n rest ih =>
      have hn : n.size = k := hns n (by simp)
      have hlen : n.ptr.length = k := by rw [n.length_ptr, hn]
      have hrest : ∀ m ∈ rest, m.size = k := fun m hm => hns m (by simp [hm])
      simp only [List.length_cons, Nat.mul_succ] at hle ⊢
      simp only [List.map_cons, List.flatten_cons]
      rw [List.drop_append_of_le_length (by omega)]
      by_cases hfit : size ≤ k - npos
      · rw [readLoop, hn, if_pos hfit, List.take_append_of_le_length (by simp; omega)]
        congr 2
        by_cases hend : k = npos + size
        · rw [if_pos hend, ← hend, Nat.div_self hk]
          cases rest with
          | nil => simp
          | cons m rest => simp [Nat.mul_succ, hk.ne']
        · have hz : (npos + size) / k = 0 := Nat.div_eq_of_lt (by omega)
          rw [if_neg hend, if_neg (by omega), hz, Nat.add_zero]
      · have hrec := ih hrest (cur + 1) 0 (size - (k - npos)) hk (by omega) (by omega)
        have hdiv : (npos + size) / k = (npos + size - k) / k + 1 :=
          Nat.div_eq_sub_div hk (by omega)
        rw [readLoop, hn, if_neg hfit, hrec, hdiv, List.take_append, List.take_of_length_le
          (show (n.ptr.drop npos).length ≤ size by simp; omega), List.length_drop, hlen,
          List.drop_zero]
        simp only [show 0 + (size - (k - npos)) = npos + size - k by omega,
          show npos + size - k = k * rest.length ↔ npos + size = k * rest.length + k by omega,
          Nat.add_assoc, Nat.add_comm 1]

theorem iovecLoop_isOk (hk : 0 < k) (hns : ∀ n ∈ ns, n.size = k) (cur npos len : ℕ)
    (hnpos : npos < k) (hlen : 0 < len) (hle : npos + len ≤ k * ns.length) :
    ∃ iovs, iovecLoop ns cur npos len = .ok iovs := by
  induction ns generalizing cur npos len with
  | nil => simp at hle; omega
  | cons n rest ih =>
      have hn : n.size = k := hns n (by simp)
      have hrest : ∀ m ∈ rest, m.size = k := fun m hm => hns m (by simp [hm])
      simp only [List.length_cons, Nat.mul_succ] at hle
      rw [iovecLoop, hn]
      split
      · exact ⟨_, rfl⟩
      · obtain ⟨iovs, h⟩ := ih hrest (cur + 1) 0 (len - (k - npos)) hk (by omega) (by omega)
        exact ⟨_, by rw [h]⟩

end Loops

/-! ### Growing -/

/-- `b'` is `b` with nodes added behind the last one, so that `n` more bytes fit
behind the cursor. -/
structure Grown (b b' : Buffer) (n : ℕ) : Prop where
  wf : b'.Wf
  position_eq : b'.position = b.position
  size_eq : b'.size = b.size
  baseSize_eq : b'.baseSize = b.baseSize
  fits : b.position + n ≤ b'.capacity
  content_eq : b'.content = b.content

theorem size_of_mem_allocNodes {k count : ℕ} {fresh : ℕ → UInt8} {n : Node}
    (hn : n ∈ allocNodes k count fresh) : n.size = k := by
  obtain ⟨j, -, rfl⟩ := List.mem_map.mp hn
  rfl

@[simp] theorem length_allocNodes (k count : ℕ) (fresh : ℕ → UInt8) :
    (allocNodes k count fresh).length = count := by simp [allocNodes]

theorem bytes_extend (count : ℕ) (fresh : ℕ → UInt8) :
    (b.extend count fresh).bytes =
      b.bytes ++ ((allocNodes b.baseSize count fresh).map Node.ptr).flatten := by
  simp [extend, bytes]

theorem Wf.extend (h : b.Wf) {count n : ℕ} (fresh : ℕ → UInt8) (hcount : 0 < count)
    (hfit : b.position + n ≤ b.capacity + count * b.baseSize) :
    b.Grown (b.extend count fresh) n := by
  have hbase := h.base_pos
  have hgrow : 0 < count * b.baseSize := Nat.mul_pos hcount hbase
  have hps := h.position_le
  have hsc := h.size_le
  constructor
  · constructor
    · exact hbase
    · exact hps
    · change b.size ≤ b.capacity + count * b.baseSize
      omega
    · exact List.append_ne_nil_of_left_ne_nil h.chain_ne _
    · intro m hm
      rcases List.mem_append.mp hm with hm | hm
      · exact h.node_size m hm
      · exact size_of_mem_allocNodes hm
    · change b.capacity + count * b.baseSize = b.baseSize * (b.chain ++ _).length
      rw [List.length_append, length_allocNodes, Nat.mul_add, h.capacity_eq,
        Nat.mul_comm count]
    · -- the cursor was null exactly when no byte was left behind it
      change (if b.getCapacity = 0 then if count = 0 then none else some b.chain.length
          else b.cur) =
        if b.position = b.capacity + count * b.baseSize then none
        else some (b.position / b.baseSize)
      rw [if_neg hcount.ne', if_neg (show b.position ≠ b.capacity + count * b.baseSize by omega),
        getCapacity, h.cur_eq]
      by_cases hfull : b.position = b.capacity
      · rw [if_pos (by omega), hfull, h.capacity_eq, Nat.mul_div_cancel_left _ hbase]
      · rw [if_neg (by omega), if_neg hfull]
  · rfl
  · rfl
  · rfl
  · exact hfit
  · rw [content, bytes_extend, content]
    exact List.take_append_of_le_length (by rw [h.length_bytes]; exact h.size_le)

theorem addCapacity_eq (h : b.Wf) {n : ℕ} (fresh : ℕ → UInt8) (hn : 0 < n) :
    ∃ b', addCapacity n fresh b = .ok () b' ∧ b.Grown b' n := by
  have hbase := h.base_pos
  have hps := h.position_le
  have hsc := h.size_le
  simp only [addCapacity, if_neg hn.ne', if_neg hbase.ne']
  by_cases hfit : n ≤ b.getCapacity
  · refine ⟨b, by rw [if_pos hfit], h, rfl, rfl, rfl, ?_, rfl⟩
    simp only [getCapacity] at hfit
    omega
  · rw [if_neg hfit]
    refine ⟨_, rfl, h.extend fresh ?_ ?_⟩
    · exact Nat.div_pos (by omega) hbase
    · -- the count of new nodes is the ceiling of what is missing over their size
      have hceil : n - b.getCapacity ≤
          (n - b.getCapacity + b.baseSize - 1) / b.baseSize * b.baseSize := by
        have := Nat.div_add_mod (n - b.getCapacity + b.baseSize - 1) b.baseSize
        have := Nat.mod_lt (n - b.getCapacity + b.baseSize - 1) hbase
        rw [Nat.mul_comm]
        omega
      simp only [getCapacity] at hfit hceil ⊢
      omega

/-! ### The member functions -/

@[simp] theorem remainder_apply (h : b.Wf) (a : ℕ) :
    remainder a b.baseSize b = .ok (a % b.baseSize) b := by
  rw [remainder, if_neg h.base_pos.ne']

theorem deref_apply {i : ℕ} {n : Node} (h : b.chain[i]? = some n) :
    deref (some i) b = .ok (i, n) b := by
  rw [deref, h]

theorem read_throws {n : ℕ} (h : b.readSize < n) : read n b = .error .outOfRange b := by
  simp [read, h]

/-- A read of readable bytes hands them out and moves the cursor, and that is
all it changes. -/
theorem read_eq (h : b.Wf) {n : ℕ} (hn : 0 < n) (hle : n ≤ b.readSize) :
    read n b = .ok ((b.content.drop b.position).take n) (b.moveTo (b.position + n)) := by
  have hbase := h.base_pos
  have hsc := h.size_le
  simp only [readSize] at hle
  obtain ⟨node, hcur, hnode, hsize⟩ := h.node_at (by omega)
  have hsplit : b.baseSize * (b.position / b.baseSize) + b.position % b.baseSize = b.position :=
    Nat.div_add_mod b.position b.baseSize
  have hmod := Nat.mod_lt b.position hbase
  have htail : ((b.chain.drop (b.position / b.baseSize)).map Node.ptr).flatten.drop
      (b.position % b.baseSize) = b.bytes.drop b.position := by
    rw [List.map_drop, flatten_drop_chunks h.chain_length, List.drop_drop, hsplit, bytes]
  have hdone : b.position % b.baseSize + n =
      b.baseSize * (b.chain.drop (b.position / b.baseSize)).length ↔
        b.position + n = b.capacity := by
    rw [List.length_drop, Nat.mul_sub, ← h.capacity_eq]
    omega
  have hloop := readLoop_eq hbase (h.node_size_drop (b.position / b.baseSize))
    (b.position / b.baseSize) (b.position % b.baseSize) n hmod hn (by
      rw [List.length_drop, Nat.mul_sub, ← h.capacity_eq]
      omega)
  have hcur' : b.position / b.baseSize + (b.position % b.baseSize + n) / b.baseSize =
      (b.position + n) / b.baseSize := by
    rw [← Nat.mul_add_div hbase, ← Nat.add_assoc, hsplit]
  have hout : (b.bytes.drop b.position).take n = (b.content.drop b.position).take n := by
    rw [content, List.drop_take, List.take_take, Nat.min_eq_left (by omega)]
  simp only [hdone, hcur', htail, hout] at hloop
  simp [read, readSize, h, hcur, deref_apply hnode, hloop, liftLoop, hn.ne', curAt, moveTo,
    show ¬ b.size - b.position < n by omega, show b.position + n ≤ b.size by omega]

theorem setPosition_throws {v : ℕ} (h : b.capacity < v) :
    setPosition v b = .error .outOfRange b := by
  simp [setPosition, h]

theorem setPosition_eq (h : b.Wf) {v : ℕ} (hv : v ≤ b.capacity) :
    setPosition v b = .ok () (b.moveTo v) := by
  have hloop := seekLoop_eq h.base_pos h.node_size h.chain_ne 0 (v := v) (by rwa [← h.capacity_eq])
  rw [Nat.zero_add, ← h.capacity_eq] at hloop
  have hmax : max b.size v = if b.size < v then v else b.size := by
    split <;> omega
  by_cases hlt : b.size < v <;>
    simp [setPosition, liftLoop, hloop, Buffer.moveTo, curAt, hmax, hlt,
      show ¬ b.capacity < v by omega]

/-- Replacing a node by one of the same size keeps the invariant. -/
theorem Wf.setNode (h : b.Wf) {n : Node} (i : ℕ) (hn : n.size = b.baseSize) :
    (b.setNode i n).Wf where
  base_pos := h.base_pos
  position_le := h.position_le
  size_le := h.size_le
  chain_ne := by simpa [Buffer.setNode] using h.chain_ne
  node_size := by
    intro m hm
    rcases List.mem_or_eq_of_mem_set hm with hm | rfl
    · exact h.node_size m hm
    · exact hn
  capacity_eq := by simpa [Buffer.setNode] using h.capacity_eq
  cur_eq := h.cur_eq

theorem memcpy_apply {i off : ℕ} {bs : List UInt8} {n : Node} (hn : b.chain[i]? = some n)
    (hfit : off + bs.length ≤ n.size) :
    memcpy i off bs b = .ok () (b.setNode i (n.store off bs hfit)) := by
  simp only [memcpy, hn, dif_pos hfit]

/-- Storing in the cursor's node, and moving the cursor behind what was stored,
writes the flat array. -/
theorem flat_store (h : b.Wf) {n : Node} {bs : List UInt8}
    (hn : b.chain[b.position / b.baseSize]? = some n)
    (hfit : b.position % b.baseSize + bs.length ≤ n.size) :
    ((b.setNode (b.position / b.baseSize) (n.store (b.position % b.baseSize) bs hfit)).moveTo
      (b.position + bs.length)).flat = b.flat.write bs := by
  have hsize : n.size = b.baseSize := h.node_size n (List.mem_of_getElem? hn)
  have hbytes : ((b.chain.set (b.position / b.baseSize)
      (n.store (b.position % b.baseSize) bs hfit)).map Node.ptr).flatten =
        overwrite b.bytes b.position bs := by
    rw [List.map_set, Node.store, flatten_set_overwrite h.chain_length
      (by rw [List.getElem?_map, hn, Option.map_some]) (by omega), Nat.div_add_mod, bytes]
  have hcontent := take_overwrite bs h.position_le (by rw [h.length_bytes]; exact h.size_le)
  rw [Flat.write, flat, flat, content, bytes]
  simp only [setNode, moveTo, hbytes]
  exact congrArg (Flat.mk · _) hcontent

/-- The run of `write` on a buffer with room for all of its argument: it stores
in the cursor's node and moves behind what it stored. -/
theorem write_apply {buf bs : List UInt8} {fresh : ℕ → UInt8} {b' : Buffer} {n : Node}
    (hne : buf ≠ []) (hgrow : addCapacity buf.length fresh b = .ok () b') (h' : b'.Wf)
    (hfits : b'.position + buf.length ≤ b'.capacity) (hbs : bs = buf.take b'.room)
    (hn : b'.chain[b'.position / b'.baseSize]? = some n)
    (hfit : b'.position % b'.baseSize + bs.length ≤ n.size) :
    write buf fresh b = .ok ()
      ((b'.setNode (b'.position / b'.baseSize)
        (n.store (b'.position % b'.baseSize) bs hfit)).moveTo (b'.position + bs.length)) := by
  have hlen : 0 < buf.length := List.length_pos_iff.mpr hne
  obtain ⟨n', hcur, hn', hsize⟩ := h'.node_at (by omega)
  obtain rfl : n' = n := Option.some.inj (hn'.symm.trans hn)
  have hmod := Nat.mod_lt b'.position h'.base_pos
  have hmax : ∀ v, max b'.size v = if b'.size < v then v else b'.size := by
    intro v
    split <;> omega
  have hcurAt := curAt_add h' (n := bs.length) (by omega) (by simp [hbs])
  have hmem := memcpy_apply hn hfit
  by_cases hroom : buf.length ≤ b'.room
  · rw [List.take_of_length_le hroom] at hbs
    subst hbs
    rw [room] at hroom
    by_cases hend : b'.baseSize = b'.position % b'.baseSize + bs.length
    · rw [if_pos hend, curAt, next] at hcurAt
      by_cases hbig : b'.size < b'.position + bs.length <;>
        simp [write, hlen.ne', hgrow, h', hcur, deref_apply hn, hsize, hroom, hmem, ← hend,
          moveTo, hmax, hbig, setNode, curAt, next, hcurAt]
    · rw [if_neg hend, curAt] at hcurAt
      by_cases hbig : b'.size < b'.position + bs.length <;>
        simp [write, hlen.ne', hgrow, h', hcur, deref_apply hn, hsize, hroom, hmem, hend,
          moveTo, hmax, hbig, setNode, curAt, hcurAt]
  · -- the part that does not fit is dropped: `cur_` moves on, and nothing reads `bpos` again
    have hbsl : bs.length = b'.room := by rw [hbs, List.length_take]; omega
    have hidx := h'.index_lt (v := b'.position) (by omega)
    have hsplit := Nat.div_add_mod b'.position b'.baseSize
    rw [room] at hroom hbsl hbs
    have hend : b'.baseSize = b'.position % b'.baseSize + bs.length := by omega
    have hnext : b'.position / b'.baseSize + 1 < b'.chain.length := by
      have := h'.capacity_eq
      by_contra hlast
      have hlast' : b'.chain.length = b'.position / b'.baseSize + 1 := by omega
      rw [this, hlast', Nat.mul_succ] at hfits
      omega
    rw [if_pos hend, curAt, next, if_pos hnext] at hcurAt
    obtain ⟨m, hm⟩ : ∃ m, b'.chain[b'.position / b'.baseSize + 1]? = some m :=
      ⟨_, List.getElem?_eq_getElem hnext⟩
    have hset : ∀ x, (b'.chain.set (b'.position / b'.baseSize) x)[b'.position / b'.baseSize + 1]? =
        some m := by
      intro x
      rw [List.getElem?_set_ne (by omega), hm]
    have hderef : ∀ s p c z e x cur,
        deref (some (b'.position / b'.baseSize + 1))
          ⟨s, p, c, z, e, b'.chain.set (b'.position / b'.baseSize) x, cur⟩ =
            .ok (b'.position / b'.baseSize + 1, m) _ := fun _ _ _ _ _ x _ => deref_apply (hset x)
    subst hbs
    rw [hbsl] at hcurAt
    by_cases hbig : b'.size < b'.position + (b'.baseSize - b'.position % b'.baseSize) <;>
      simp [write, hlen.ne', hgrow, h', hcur, deref_apply hn, hderef, hsize, hroom, hmem,
        moveTo, hbsl, hmax, hbig, setNode, curAt, next, hnext, hcurAt]

/-- **What `write` does.** It stores as much of its argument as the cursor's
node has room for, and nothing of the rest. -/
theorem write_eq (h : b.Wf) (buf : List UInt8) (fresh : ℕ → UInt8) :
    ∃ b', write buf fresh b = .ok () b' ∧ b'.Wf ∧ b'.baseSize = b.baseSize ∧
      b'.flat = b.flat.write (buf.take b.room) := by
  by_cases hnil : buf = []
  · subst hnil
    exact ⟨b, by simp [write], h, rfl, by simp [Flat.write, flat]⟩
  have hlen : 0 < buf.length := List.length_pos_iff.mpr hnil
  obtain ⟨b₁, hgrow, g⟩ := addCapacity_eq h fresh hlen
  have hfits := g.fits
  rw [← g.position_eq] at hfits
  obtain ⟨n, -, hn, hsize⟩ := g.wf.node_at (by omega)
  have hroom : b₁.room = b.room := by
    rw [room, room, g.baseSize_eq, g.position_eq]
  have hmod := Nat.mod_lt b₁.position g.wf.base_pos
  have hfit : b₁.position % b₁.baseSize + (buf.take b₁.room).length ≤ n.size := by
    rw [List.length_take, room]
    omega
  refine ⟨_, write_apply hnil hgrow g.wf hfits rfl hn hfit, ?_, g.baseSize_eq, ?_⟩
  · refine (g.wf.setNode (n := n.store _ _ hfit) _ hsize).moveTo ?_
    change b₁.position + (buf.take b₁.room).length ≤ b₁.capacity
    rw [List.length_take]
    omega
  · rw [flat_store g.wf hn hfit, hroom, flat, g.content_eq, g.position_eq, flat]

theorem getWriteBuffers_eq (h : b.Wf) (len : ℕ) (fresh : ℕ → UInt8) :
    ∃ r b', getWriteBuffers len fresh b = .ok r b' ∧ b.Grown b' len := by
  by_cases hlen : len = 0
  · subst hlen
    exact ⟨_, b, rfl, h, rfl, rfl, rfl, h.position_le.trans h.size_le, rfl⟩
  obtain ⟨b', hgrow, g⟩ := addCapacity_eq h fresh (Nat.pos_of_ne_zero hlen)
  have hfits := g.fits
  rw [← g.position_eq] at hfits
  obtain ⟨n, hcur, hn, hsize⟩ := g.wf.node_at (by omega)
  obtain ⟨iovs, hiovs⟩ := iovecLoop_isOk g.wf.base_pos
    (g.wf.node_size_drop (b'.position / b'.baseSize)) (b'.position / b'.baseSize)
    (b'.position % b'.baseSize) len
    (Nat.mod_lt b'.position g.wf.base_pos) (Nat.pos_of_ne_zero hlen) (by
      have := Nat.div_add_mod b'.position b'.baseSize
      rw [List.length_drop, Nat.mul_sub, ← g.wf.capacity_eq]
      omega)
  exact ⟨(iovs, len), b', by
    simp [getWriteBuffers, hlen, hgrow, g.wf, hcur, deref_apply hn, hiovs, liftLoop], g⟩

theorem clear_eq (h : b.Wf) : ∃ b', clear b = .ok () b' ∧ b'.Wf := by
  obtain ⟨root, rest, hchain⟩ := List.exists_cons_of_ne_nil h.chain_ne
  have hroot : root.size = b.baseSize := h.node_size root (by simp [hchain])
  have hbase := h.base_pos
  refine ⟨_, by simp [clear, hchain, deref]; rfl, ?_⟩
  constructor
  · exact hbase
  · exact le_rfl
  · exact Nat.zero_le _
  · simp
  · simpa using hroot
  · simp
  · simp [hbase.ne]

end Buffer

end Easy.Net
