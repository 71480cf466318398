import Easy.Lib.PtrTable
import Mathlib.Data.Int.Notation

/-!
`FdCtx` and `FdManager` of `easy/base/FdManager.h` and `FdManager.cc`, and what they
use of the kernel's open files.

A context is an object that the manager and its users hold pointers to; contexts
live in `objs`, and a pointer to one is its index. `getFdCtx` has two lock sections,
which are two functions here.
-/

namespace Easy.Base

open Lib

/-- The `O_NONBLOCK` of `fcntl.h`. -/
def O_NONBLOCK : BitVec 32 := 0o4000

/-- The flags that `F_SETFL` can change: `O_APPEND`, `O_ASYNC`, `O_DIRECT`, `O_NOATIME`
and `O_NONBLOCK`. -/
def SETFL_MASK : BitVec 32 := 0o2000 ||| 0o20000 ||| 0o40000 ||| 0o1000000 ||| O_NONBLOCK

def SO_RCVTIMEO : ℤ := 20

def SO_SNDTIMEO : ℤ := 21

/-- An open file of the kernel: what `fstat` and `fcntl` tell about it. -/
structure File where
  isSocket : Bool
  flags : BitVec 32
  deriving DecidableEq, Repr

/-- `fcntl(fd, F_SETFL, arg)` of the kernel. -/
def File.setfl (f : File) (arg : BitVec 32) : File :=
  { f with flags := f.flags &&& ~~~SETFL_MASK ||| arg &&& SETFL_MASK }

/-- The kernel does not block in calls on the file. -/
def File.Nonblock (f : File) : Prop := f.flags &&& O_NONBLOCK ≠ 0

instance (f : File) : Decidable f.Nonblock := inferInstanceAs (Decidable (_ ≠ _))

theorem nonblock_setfl (f : File) (arg : BitVec 32) :
    (f.setfl arg).Nonblock ↔ arg &&& O_NONBLOCK ≠ 0 := by
  have hbit : (f.setfl arg).flags &&& O_NONBLOCK = arg &&& O_NONBLOCK := by
    have hkeep : ~~~SETFL_MASK &&& O_NONBLOCK = 0 := by decide
    have hset : SETFL_MASK &&& O_NONBLOCK = O_NONBLOCK := by decide
    rw [File.setfl, BitVec.and_or_distrib_right, BitVec.and_assoc, BitVec.and_assoc, hkeep, hset]
    simp
  rw [File.Nonblock, hbit]

theorem or_nonblock (w : BitVec 32) : (w ||| O_NONBLOCK) &&& O_NONBLOCK = O_NONBLOCK := by
  rw [BitVec.and_or_distrib_right, BitVec.and_self]
  apply BitVec.eq_of_getElem_eq
  intro i hi
  simp only [BitVec.getElem_or, BitVec.getElem_and]
  cases w[i] <;> simp

theorem clear_nonblock (w : BitVec 32) : w &&& ~~~O_NONBLOCK &&& O_NONBLOCK = 0 := by
  have hzero : ~~~O_NONBLOCK &&& O_NONBLOCK = 0 := by decide
  rw [BitVec.and_assoc, hzero]
  exact BitVec.and_zero

/-- `FdCtx` -/
structure FdCtx where
  isInit : Bool
  isSocket : Bool
  sysNonblock : Bool
  userNonblock : Bool
  isClosed : Bool
  fd : ℕ
  recvTimeout : BitVec 64
  sendTimeout : BitVec 64
  deriving DecidableEq, Repr

namespace FdCtx

/-- The constructor, which calls `init`: the context, and the file of its descriptor
afterwards. `fstat` fails where there is no file. -/
def init (fd : ℕ) : Option File → FdCtx × Option File
  | none => (⟨false, false, false, false, false, fd, -1, -1⟩, none)
  | some f =>
    if f.isSocket then
      (⟨true, true, true, false, false, fd, -1, -1⟩,
        some (if f.Nonblock then f else f.setfl (f.flags ||| O_NONBLOCK)))
    else (⟨true, false, false, false, false, fd, -1, -1⟩, some f)

def setTimeout (ctx : FdCtx) (type : ℤ) (ms : BitVec 64) : FdCtx :=
  if type = SO_RCVTIMEO then { ctx with recvTimeout := ms } else { ctx with sendTimeout := ms }

def getTimeout (ctx : FdCtx) (type : ℤ) : BitVec 64 :=
  if type = SO_RCVTIMEO then ctx.recvTimeout else ctx.sendTimeout

def setUserNonblock (ctx : FdCtx) (flag : Bool) : FdCtx := { ctx with userNonblock := flag }

@[simp] theorem getTimeout_setTimeout (ctx : FdCtx) (type : ℤ) (ms : BitVec 64) :
    (ctx.setTimeout type ms).getTimeout type = ms := by
  simp only [getTimeout, setTimeout]
  split <;> rfl

end FdCtx

/-- `FdManager`, and the contexts that have been made. -/
structure FdManager where
  datas : List (Option ℕ)
  objs : List FdCtx
  le_size : 64 ≤ datas.length
  deriving DecidableEq

namespace FdManager

/-- The constructor. -/
def make : FdManager := ⟨PtrTable.resize [] 64, [], by simp⟩

/-- `datas_[fd]`, and null where there is no such entry. -/
def at_ (m : FdManager) (fd : ℕ) : Option ℕ := m.datas[fd]?.join

/-- The read lock section of `getFdCtx`, which returns or goes on to the other one. -/
def find (m : FdManager) (fd : ℕ) (autoCreate : Bool) : Option (Option ℕ) :=
  if m.datas.length ≤ fd then
    if !autoCreate then some none else none
  else if (m.at_ fd).isSome || !autoCreate then some (m.at_ fd) else none

/-- The write lock section of `getFdCtx`, with the context made there. -/
def create (m : FdManager) (fd : ℕ) (ctx : FdCtx) : ℕ × FdManager :=
  let datas := if m.datas.length ≤ fd then PtrTable.resize m.datas (fd <<< 1) else m.datas
  (m.objs.length, ⟨datas.set fd (some m.objs.length), m.objs ++ [ctx], by
    have := m.le_size
    simp only [datas, List.length_set, Nat.shiftLeft_eq]
    split <;> simp <;> omega⟩)

/-- `removeFdCtx` -/
def removeFdCtx (m : FdManager) (fd : ℕ) : FdManager :=
  { m with datas := m.datas.set fd none, le_size := by simpa using m.le_size }

/-- A member function called through a pointer. -/
def modify (m : FdManager) (c : ℕ) (f : FdCtx → FdCtx) : FdManager :=
  { m with objs := m.objs.modify c f }

/-! ### What the sections do to the entries -/

variable {m : FdManager} {fd k : ℕ}

@[simp] theorem at_make (fd : ℕ) : make.at_ fd = none :=
  PtrTable.join_getElem?_resize (Nat.zero_le 64) fd

theorem at_create (m : FdManager) (fd : ℕ) (ctx : FdCtx) (k : ℕ) :
    (m.create fd ctx).2.at_ k = if k = fd then some (m.create fd ctx).1 else m.at_ k := by
  have hle := m.le_size
  simp only [create, at_]
  by_cases hk : k = fd
  · subst hk
    rw [if_pos rfl, List.getElem?_set_self]
    · rfl
    · split
      · rw [PtrTable.length_resize, Nat.shiftLeft_eq]
        omega
      · omega
  · rw [if_neg hk, List.getElem?_set_ne (Ne.symm hk)]
    split
    · exact PtrTable.join_getElem?_resize (by rw [Nat.shiftLeft_eq]; omega) k
    · rfl

theorem at_removeFdCtx (m : FdManager) (fd k : ℕ) :
    (m.removeFdCtx fd).at_ k = if k = fd then none else m.at_ k := by
  simp only [removeFdCtx, at_, List.getElem?_set, eq_comm (a := fd)]
  split_ifs <;> rfl

@[simp] theorem at_modify (m : FdManager) (c : ℕ) (f : FdCtx → FdCtx) (k : ℕ) :
    (m.modify c f).at_ k = m.at_ k := rfl

@[simp] theorem objs_create (m : FdManager) (fd : ℕ) (ctx : FdCtx) :
    (m.create fd ctx).2.objs = m.objs ++ [ctx] := rfl

/-- The lookup returns the entry, except where a context is to be made. -/
theorem find_eq (m : FdManager) (fd : ℕ) (autoCreate : Bool) : m.find fd autoCreate =
    if (m.at_ fd).isSome || !autoCreate then some (m.at_ fd) else none := by
  simp only [find]
  by_cases hlen : m.datas.length ≤ fd
  · have hnone : m.at_ fd = none := by
      rw [at_, List.getElem?_eq_none hlen]
      rfl
    simp [hlen, hnone]
  · simp [hlen]

end FdManager

end Easy.Base
