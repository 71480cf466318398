import Easy.Lib.Flat

/-!
`Buffer`, the chunked byte buffer of `easy/net/Buffer.cc`.

The chain that starts at `root_` is the list of its nodes, and a `Node*` into
it is an index, `none` being null. Following a null pointer, storing outside a
node and dividing by a zero `baseSize_` are faults; so is the `out_of_range` the
code throws. A call keeps the buffer as it is at the fault, so what a throwing
call leaves behind is part of the model. Sizes are natural numbers: a chain is
held in memory, which keeps every sum of them below `2 ^ 64`. Allocation
succeeds, and what `new char[n]` hands out is an argument of the calls that
allocate.
-/

namespace Easy.Net

open Lib

/-- Why a call does not return: the exception of the code, or undefined
behaviour. -/
inductive Fault
  | outOfRange
  | nullNode
  | overrun
  | divByZero
  deriving DecidableEq, Repr

/-- `Buffer::Node`: `ptr_` points to `size_` bytes. -/
structure Node where
  ptr : List UInt8
  size : ℕ
  length_ptr : ptr.length = size
  deriving DecidableEq

namespace Node

/-- `Node(size_t s)`; the bytes are those the allocator hands out. -/
def alloc (s : ℕ) (fresh : ℕ → UInt8) : Node :=
  ⟨(List.range s).map fresh, s, by simp⟩

/-- The node around memory that already exists. -/
def wrap (data : List UInt8) : Node := ⟨data, data.length, rfl⟩

/-- `memcpy(ptr_ + off, bs, |bs|)` inside the node. -/
def store (n : Node) (off : ℕ) (bs : List UInt8) (h : off + bs.length ≤ n.size) : Node :=
  ⟨overwrite n.ptr off bs, n.size, by
    rw [length_overwrite_of_le (by rw [n.length_ptr]; exact h), n.length_ptr]⟩

end Node

/-- `endian_`, one of the two constants of `Endian.h`. -/
inductive Endian
  | little
  | big
  deriving DecidableEq, Repr

structure Buffer where
  baseSize : ℕ
  position : ℕ
  capacity : ℕ
  size : ℕ
  endian : Endian
  chain : List Node
  cur : Option ℕ
  deriving DecidableEq

/-- An `iovec` into the chain: `len` bytes at offset `off` of a node. -/
structure Iovec where
  node : ℕ
  off : ℕ
  len : ℕ
  deriving DecidableEq, Repr

/-- A member function: it returns, or stops at a fault, and either way leaves
a buffer. -/
abbrev Call := EStateM Fault Buffer

namespace Buffer

/-- `Buffer(size_t base_size)` -/
def new (baseSize : ℕ) (fresh : ℕ → UInt8) : Buffer where
  baseSize := baseSize
  position := 0
  capacity := baseSize
  size := 0
  endian := .big
  chain := [Node.alloc baseSize fresh]
  cur := some 0

/-- `Buffer(void* data, size_t size, bool owner)` -/
def ofData (data : List UInt8) : Buffer where
  baseSize := data.length
  position := 0
  capacity := data.length
  size := data.length
  endian := .big
  chain := [Node.wrap data]
  cur := some 0

def readSize (b : Buffer) : ℕ := b.size - b.position

def getCapacity (b : Buffer) : ℕ := b.capacity - b.position

/-- `next_` of node `i`. -/
def next (b : Buffer) (i : ℕ) : Option ℕ := if i + 1 < b.chain.length then some (i + 1) else none

/-! ### Memory -/

/-- Following a `Node*`. -/
def deref (p : Option ℕ) : Call (ℕ × Node) := fun b =>
  match p with
  | none => .error .nullNode b
  | some i =>
    match b.chain[i]? with
    | none => .error .nullNode b
    | some n => .ok (i, n) b

/-- `a % m` -/
def remainder (a m : ℕ) : Call ℕ := fun b =>
  if m = 0 then .error .divByZero b else .ok (a % m) b

def setNode (b : Buffer) (i : ℕ) (n : Node) : Buffer := { b with chain := b.chain.set i n }

/-- `memcpy` into node `i` of the chain. -/
def memcpy (i : ℕ) (off : ℕ) (bs : List UInt8) : Call Unit := fun b =>
  match b.chain[i]? with
  | none => .error .nullNode b
  | some n =>
    if h : off + bs.length ≤ n.size then .ok () (b.setNode i (n.store off bs h))
    else .error .overrun b

/-! ### Capacity -/

/-- `count` new nodes; `fresh` is the memory handed out for all of them. -/
def allocNodes (baseSize count : ℕ) (fresh : ℕ → UInt8) : List Node :=
  (List.range count).map fun j => Node.alloc baseSize fun t => fresh (j * baseSize + t)

/-- The second half of `addCapacity`: the new nodes go behind the last one,
and the cursor moves to the first of them if it was null. -/
def extend (b : Buffer) (count : ℕ) (fresh : ℕ → UInt8) : Buffer :=
  { b with
    chain := b.chain ++ allocNodes b.baseSize count fresh
    capacity := b.capacity + count * b.baseSize
    cur := if b.getCapacity = 0 then
        (if count = 0 then none else some b.chain.length)
      else b.cur }

/-- `Buffer::addCapacity`; the division is the exact one. -/
def addCapacity (size : ℕ) (fresh : ℕ → UInt8) : Call Unit := fun b =>
  if size = 0 then .ok () b
  else if size ≤ b.getCapacity then .ok () b
  else if b.baseSize = 0 then .error .divByZero b
  else .ok () (b.extend ((size - b.getCapacity + b.baseSize - 1) / b.baseSize) fresh)

/-! ### Loops over the chain -/

/-- The loop of `Buffer::read`, from node `cur` on, which is the first of the
list: the bytes copied out and the cursor behind them. -/
def readLoop : List Node → ℕ → ℕ → ℕ → Except Fault (List UInt8 × Option ℕ)
  | [], _, _, _ => .error .nullNode
  | n :: rest, cur, npos, size =>
    if size ≤ n.size - npos then
      .ok ((n.ptr.drop npos).take size,
        if n.size = npos + size then (if rest = [] then none else some (cur + 1)) else some cur)
    else
      match readLoop rest (cur + 1) 0 (size - (n.size - npos)) with
      | .error e => .error e
      | .ok (out, cur') => .ok (n.ptr.drop npos ++ out, cur')

/-- The loop of `Buffer::setPosition`, from node `cur` on. -/
def seekLoop : List Node → ℕ → ℕ → Except Fault (Option ℕ)
  | [], _, _ => .error .nullNode
  | n :: rest, cur, v =>
    if n.size < v then seekLoop rest (cur + 1) (v - n.size)
    else if v = n.size then .ok (if rest = [] then none else some (cur + 1))
    else .ok (some cur)

/-- The loop that `getWriteBuffers` and `getReadBuffers` share, from node
`cur` on. -/
def iovecLoop : List Node → ℕ → ℕ → ℕ → Except Fault (List Iovec)
  | [], _, _, _ => .error .nullNode
  | n :: rest, cur, npos, len =>
    if len ≤ n.size - npos then .ok [⟨cur, npos, len⟩]
    else
      match iovecLoop rest (cur + 1) 0 (len - (n.size - npos)) with
      | .error e => .error e
      | .ok iovs => .ok (⟨cur, npos, n.size - npos⟩ :: iovs)

/-- A loop over the chain as part of a call. -/
def liftLoop {α : Type} (r : Except Fault α) : Call α := fun b =>
  match r with
  | .ok a => .ok a b
  | .error e => .error e b

/-! ### The member functions -/

/-- `Buffer::clear` -/
def clear : Call Unit := do
  modify fun b => { b with position := 0, size := 0, capacity := b.baseSize }
  let b ← get
  let (root, _) ← deref (if b.chain = [] then none else some 0)
  modify fun b => { b with cur := some root, chain := b.chain.take 1 }

/-- `Buffer::write`. The line that should open its loop stands at the end of
a comment, so the two branches run once. -/
def write (buf : List UInt8) (fresh : ℕ → UInt8) : Call Unit := do
  if buf.length = 0 then
    return
  addCapacity buf.length fresh
  let b ← get
  let npos ← remainder b.position b.baseSize
  let (i, node) ← deref b.cur
  let ncap := node.size - npos
  if buf.length ≤ ncap then
    memcpy i npos buf
    if node.size = npos + buf.length then
      modify fun b => { b with cur := b.next i }
    modify fun b => { b with position := b.position + buf.length }
  else
    memcpy i npos (buf.take ncap)
    modify fun b => { b with position := b.position + ncap, cur := b.next i }
    -- `ncap = cur_->size_`
    let b ← get
    let _ ← deref b.cur
  modify fun b => if b.size < b.position then { b with size := b.position } else b

/-- `Buffer::read(void*, size_t)` -/
def read (size : ℕ) : Call (List UInt8) := do
  let b ← get
  if b.readSize < size then
    throw .outOfRange
  let npos ← remainder b.position b.baseSize
  let (i, _) ← deref b.cur
  if size = 0 then
    return []
  let (out, cur) ← liftLoop (readLoop (b.chain.drop i) i npos size)
  modify fun b => { b with position := b.position + size, cur := cur }
  return out

/-- `Buffer::setPosition` -/
def setPosition (v : ℕ) : Call Unit := do
  let b ← get
  if b.capacity < v then
    throw .outOfRange
  modify fun b => { b with position := v }
  modify fun b => if b.size < b.position then { b with size := b.position } else b
  let cur ← liftLoop (seekLoop b.chain 0 v)
  modify fun b => { b with cur := cur }

/-- `Buffer::getWriteBuffers`: what it appends to `buffers`, and its result. -/
def getWriteBuffers (len : ℕ) (fresh : ℕ → UInt8) : Call (List Iovec × ℕ) := do
  if len = 0 then
    return ([], 0)
  addCapacity len fresh
  let b ← get
  let npos ← remainder b.position b.baseSize
  let (i, _) ← deref b.cur
  let iovs ← liftLoop (iovecLoop (b.chain.drop i) i npos len)
  return (iovs, len)

/-! ### What the chain holds -/

/-- All bytes of the nodes, in order. -/
def bytes (b : Buffer) : List UInt8 := (b.chain.map Node.ptr).flatten

/-- The logical content: the bytes of the nodes from `root_`, up to `size_`. -/
def content (b : Buffer) : List UInt8 := b.bytes.take b.size

/-- The buffer as a flat array with a cursor. -/
def flat (b : Buffer) : Flat UInt8 := ⟨b.content, b.position⟩

/-- The calls that move the cursor or change the chain. `fresh` is the memory
the allocator hands out during the call. -/
inductive Op
  | write (buf : List UInt8) (fresh : ℕ → UInt8)
  | read (size : ℕ)
  | setPosition (v : ℕ)
  | getWriteBuffers (len : ℕ) (fresh : ℕ → UInt8)
  | clear

/-- A call, with the bytes it returns. -/
def Op.exec : Op → Call (List UInt8)
  | .write buf fresh => do Buffer.write buf fresh; return []
  | .read size => Buffer.read size
  | .setPosition v => do Buffer.setPosition v; return []
  | .getWriteBuffers len fresh => do let _ ← Buffer.getWriteBuffers len fresh; return []
  | .clear => do Buffer.clear; return []

end Buffer

end Easy.Net
