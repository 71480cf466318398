import Easy.Base.FdManager
import Mathlib.Logic.Function.Basic

/-!
The hooked calls of `easy/base/hook.cc` that make, change and close descriptors, over
the kernel's table of open files.

A call runs to its end before the next one starts; what `accept` waits for, and the
events a `close` cancels, are not part of the state. The kernel gives a new
descriptor any number that is not in use. `hook` is the caller's `t_hook_enable`.
-/

namespace Easy.Base

/-- `FIONBIO` of `ioctl`. -/
def FIONBIO : ℕ := 0x5421

def SOL_SOCKET : ℤ := 1

/-- `FdMgr`'s instance, and the open files by their descriptors. -/
structure Descriptors where
  manager : FdManager
  files : ℕ → Option File

/-- `struct timeval` -/
structure Timeval where
  sec : ℤ
  usec : ℤ

/-- `static_cast<uint64_t>(v->tv_sec * 1000 + v->tv_usec / 1000)` -/
def Timeval.millis (v : Timeval) : BitVec 64 := BitVec.ofInt 64 (v.sec * 1000 + v.usec.tdiv 1000)

namespace Descriptors

variable (s : Descriptors)

def setFile (fd : ℕ) (f : Option File) : Descriptors :=
  { s with files := Function.update s.files fd f }

/-- `getFdCtx(fd)` -/
def ctx (fd : ℕ) : Option (ℕ × FdCtx) :=
  (s.manager.at_ fd).bind fun c => s.manager.objs[c]?.map fun o => (c, o)

/-- `getFdCtx(fd, true)`; a context made there sets the file to non-blocking. -/
def autoCreate (fd : ℕ) : Descriptors :=
  match s.manager.find fd true with
  | some _ => s
  | none =>
    let (ctx, file) := FdCtx.init fd (s.files fd)
    (⟨(s.manager.create fd ctx).2, s.files⟩ : Descriptors).setFile fd file

/-- `socket_f` and `accept_f`, which return the number `fd` for a new socket. -/
def opened (fd : ℕ) (flags : BitVec 32) : Descriptors := s.setFile fd (some ⟨true, flags⟩)

def socket (hook : Bool) (fd : ℕ) (flags : BitVec 32) : Descriptors :=
  if !hook then s.opened fd flags else (s.opened fd flags).autoCreate fd

def accept (fd : ℕ) (flags : BitVec 32) : Descriptors := (s.opened fd flags).autoCreate fd

def close (hook : Bool) (fd : ℕ) : Descriptors :=
  if !hook then s.setFile fd none
  else
    match s.ctx fd with
    | some _ => (⟨s.manager.removeFdCtx fd, s.files⟩ : Descriptors).setFile fd none
    | none => s.setFile fd none

/-- `fcntl_f(fd, F_SETFL, arg)` -/
def fcntlF (fd : ℕ) (arg : BitVec 32) : Descriptors :=
  s.setFile fd ((s.files fd).map (·.setfl arg))

/-- `fcntl(fd, F_SETFL, arg)` -/
def setfl (fd : ℕ) (arg : BitVec 32) : Descriptors :=
  match s.ctx fd with
  | none => s.fcntlF fd arg
  | some (c, ctx) =>
    if ctx.isClosed || !ctx.isSocket then s.fcntlF fd arg
    else
      let s : Descriptors :=
        ⟨s.manager.modify c (·.setUserNonblock (arg &&& O_NONBLOCK ≠ 0)), s.files⟩
      s.fcntlF fd (if ctx.sysNonblock then arg ||| O_NONBLOCK else arg &&& ~~~O_NONBLOCK)

/-- `fcntl(fd, F_GETFL)` for an open descriptor. -/
def getfl (fd : ℕ) : Option (BitVec 32) :=
  (s.files fd).map fun f =>
    match s.ctx fd with
    | none => f.flags
    | some (_, ctx) =>
      if ctx.isClosed || !ctx.isSocket then f.flags
      else if ctx.userNonblock then f.flags ||| O_NONBLOCK
      else f.flags &&& ~~~O_NONBLOCK

/-- `ioctl_f(d, request, &v)`, which the kernel handles here for `FIONBIO` only. -/
def ioctlF (d request : ℕ) (v : BitVec 32) : Descriptors :=
  if request = FIONBIO then
    s.setFile d ((s.files d).map fun f =>
      { f with flags := if v ≠ 0 then f.flags ||| O_NONBLOCK else f.flags &&& ~~~O_NONBLOCK })
  else s

def ioctl (d request : ℕ) (v : BitVec 32) : Descriptors :=
  if FIONBIO = request then
    match s.ctx d with
    | none => s.ioctlF d request v
    | some (c, ctx) =>
      if ctx.isClosed || !ctx.isSocket then s.ioctlF d request v
      else
        let s : Descriptors := ⟨s.manager.modify c (·.setUserNonblock (v ≠ 0)), s.files⟩
        s.ioctlF d request v
  else s.ioctlF d request v

/-- `setsockopt`, whose own timeouts the kernel keeps elsewhere. -/
def setsockopt (hook : Bool) (sockfd : ℕ) (level optname : ℤ) (v : Timeval) : Descriptors :=
  if !hook then s
  else if level = SOL_SOCKET ∧ (optname = SO_RCVTIMEO ∨ optname = SO_SNDTIMEO) then
    match s.ctx sockfd with
    | some (c, _) => ⟨s.manager.modify c (·.setTimeout optname v.millis), s.files⟩
    | none => s
  else s

/-! ### Contexts -/

@[simp] theorem manager_setFile (fd : ℕ) (f : Option File) : (s.setFile fd f).manager = s.manager :=
  rfl

variable {s}

theorem ctx_eq_some {fd c : ℕ} {o : FdCtx} :
    s.ctx fd = some (c, o) ↔ s.manager.at_ fd = some c ∧ s.manager.objs[c]? = some o := by
  simp only [ctx, Option.bind_eq_some_iff, Option.map_eq_some_iff]
  constructor
  · rintro ⟨c', hc, o', ho, heq⟩
    cases heq
    exact ⟨hc, ho⟩
  · rintro ⟨hc, ho⟩
    exact ⟨c, hc, o, ho, rfl⟩

/-- A number with a context keeps it. -/
theorem autoCreate_some {fd c : ℕ} (h : s.manager.at_ fd = some c) : s.autoCreate fd = s := by
  simp [autoCreate, FdManager.find_eq, h]

/-- A new socket without one gets one, and does not block any more. -/
theorem autoCreate_opened {fd : ℕ} {flags : BitVec 32} (h : s.manager.at_ fd = none)
    (hflags : flags &&& O_NONBLOCK = 0) : (s.opened fd flags).autoCreate fd =
      ⟨(s.manager.create fd ⟨true, true, true, false, false, fd, -1, -1⟩).2,
        Function.update s.files fd (some (File.setfl ⟨true, flags⟩ (flags ||| O_NONBLOCK)))⟩ := by
  have hblock : ¬ File.Nonblock ⟨true, flags⟩ := not_not.mpr hflags
  simp [autoCreate, opened, setFile, FdManager.find_eq, h, FdCtx.init, hblock]

end Descriptors

end Easy.Base
