import Easy.Base.Hook
import Easy.Lib.Lts

/-!
The two copies of `O_NONBLOCK` of a hooked socket: the kernel's, which `do_io` relies on,
and the one that the user has asked for.

`fcntl` translates between them, and `ioctl` passes what the user asks on to the kernel.
-/

namespace Easy.Base

open Lib

/-- The descriptors, and whether the user has asked for non-block on the socket last. -/
structure FlagRun where
  fds : Descriptors
  requested : Bool

/-- The calls on the socket: `fcntl(fd, F_SETFL, arg)`, `ioctl(fd, FIONBIO, &v)` and
`fcntl(fd, F_GETFL)`. -/
inductive FlagOp
  | setfl (arg : BitVec 32)
  | fionbio (v : BitVec 32)
  | getfl
  deriving DecidableEq

namespace FlagRun

def step (fd : ℕ) (s : FlagRun) : FlagOp → Option FlagRun
  | .setfl arg => some ⟨s.fds.setfl fd arg, arg &&& O_NONBLOCK ≠ 0⟩
  | .fionbio v => some ⟨s.fds.ioctl fd FIONBIO v, v ≠ 0⟩
  | .getfl => some s

/-- The hooked `socket()` has returned `fd`. -/
def opened (fds : Descriptors) (fd : ℕ) (flags : BitVec 32) : FlagRun :=
  ⟨fds.socket true fd flags, false⟩

/-- The calls on a new socket that blocks, whose context `socket()` makes. -/
def calls (fd : ℕ) : Lts FlagRun FlagOp where
  init s := ∃ fds flags, fds.manager.at_ fd = none ∧ flags &&& O_NONBLOCK = 0 ∧
    s = opened fds fd flags
  step := step fd

/-- The kernel does not block, and `F_GETFL` reports what the user has asked for. -/
structure Honest (fd : ℕ) (s : FlagRun) : Prop where
  nonblock : ∃ f ∈ s.fds.files fd, f.Nonblock
  reported : ∃ w ∈ s.fds.getfl fd, (w &&& O_NONBLOCK ≠ 0 ↔ s.requested)

/-- The call is not an `ioctl` that asks for blocking calls. -/
def Translated (_ : FlagRun) (op : FlagOp) : Prop := op ≠ .fionbio 0

instance (s : FlagRun) (op : FlagOp) : Decidable (Translated s op) :=
  inferInstanceAs (Decidable (_ ≠ _))

/-- The context of the socket has the user's copy, and the kernel's is set. -/
def Tracked (fd : ℕ) (s : FlagRun) : Prop :=
  ∃ c o f, s.fds.ctx fd = some (c, o) ∧ o.isSocket ∧ o.isClosed = false ∧ o.sysNonblock ∧
    o.userNonblock = s.requested ∧ s.fds.files fd = some f ∧ f.Nonblock

/-! ### What the calls do -/

variable {fd : ℕ} {s s' : FlagRun} {op : FlagOp}

theorem Tracked.honest (h : s.Tracked fd) : s.Honest fd := by
  obtain ⟨c, o, f, hctx, hsock, hopen, -, huser, hfile, hblock⟩ := h
  refine ⟨⟨f, hfile, hblock⟩, ?_⟩
  cases hreq : s.requested with
  | false =>
      refine ⟨f.flags &&& ~~~O_NONBLOCK, ?_, ?_⟩
      · simp [Descriptors.getfl, hfile, hctx, hsock, hopen, huser, hreq]
      · simp [clear_nonblock]
  | true =>
      refine ⟨f.flags ||| O_NONBLOCK, ?_, ?_⟩
      · simp [Descriptors.getfl, hfile, hctx, hsock, hopen, huser, hreq]
      · rw [or_nonblock]
        decide

/-- The user's copy is changed, and the kernel's stays set. -/
theorem Tracked.asked {c : ℕ} {o : FdCtx} (hctx : s.fds.ctx fd = some (c, o)) (hsock : o.isSocket)
    (hopen : o.isClosed = false) (hsys : o.sysNonblock) (flag : Bool) {f : File}
    (hblock : f.Nonblock) :
    Tracked fd ⟨(⟨s.fds.manager.modify c (·.setUserNonblock flag), s.fds.files⟩ :
      Descriptors).setFile fd (some f), flag⟩ := by
  obtain ⟨hat, hobj⟩ := Descriptors.ctx_eq_some.mp hctx
  refine ⟨c, o.setUserNonblock flag, f, ?_, hsock, hopen, hsys, rfl, ?_, hblock⟩
  · rw [Descriptors.ctx_eq_some]
    exact ⟨hat, by simp [FdManager.modify, hobj]⟩
  · simp [Descriptors.setFile]

theorem Tracked.setfl (h : s.Tracked fd) (arg : BitVec 32) :
    Tracked fd ⟨s.fds.setfl fd arg, arg &&& O_NONBLOCK ≠ 0⟩ := by
  obtain ⟨c, o, f, hctx, hsock, hopen, hsys, -, hfile, -⟩ := h
  have hset : s.fds.setfl fd arg =
      (⟨s.fds.manager.modify c (·.setUserNonblock (arg &&& O_NONBLOCK ≠ 0)), s.fds.files⟩ :
        Descriptors).setFile fd (some (f.setfl (arg ||| O_NONBLOCK))) := by
    simp [Descriptors.setfl, Descriptors.fcntlF, hctx, hsock, hopen, hsys, hfile]
  rw [hset]
  apply Tracked.asked hctx hsock hopen hsys
  rw [nonblock_setfl, or_nonblock]
  decide

/-- The kernel is told what the user asks for. -/
theorem ioctl_tracked {c : ℕ} {o : FdCtx} {f : File} (hctx : s.fds.ctx fd = some (c, o))
    (hsock : o.isSocket) (hopen : o.isClosed = false) (hfile : s.fds.files fd = some f)
    (v : BitVec 32) : s.fds.ioctl fd FIONBIO v =
      (⟨s.fds.manager.modify c (·.setUserNonblock (v ≠ 0)), s.fds.files⟩ :
        Descriptors).setFile fd (some { f with
          flags := if v ≠ 0 then f.flags ||| O_NONBLOCK else f.flags &&& ~~~O_NONBLOCK }) := by
  simp [Descriptors.ioctl, Descriptors.ioctlF, hctx, hsock, hopen, hfile]

theorem step_tracked (hstep : (calls fd).step s op = some s') (h : s.Tracked fd)
    (hop : Translated s op) : s'.Tracked fd := by
  cases op with
  | setfl arg =>
      obtain rfl := Option.some.inj hstep
      exact h.setfl arg
  | fionbio v =>
      obtain rfl := Option.some.inj hstep
      obtain ⟨c, o, f, hctx, hsock, hopen, hsys, -, hfile, -⟩ := h
      have hv : v ≠ 0 := fun h0 => hop (congrArg FlagOp.fionbio h0)
      rw [ioctl_tracked hctx hsock hopen hfile]
      apply Tracked.asked hctx hsock hopen hsys
      rw [if_pos hv, File.Nonblock, or_nonblock]
      decide
  | getfl =>
      obtain rfl := Option.some.inj hstep
      exact h

/-- Asking for blocking calls with `ioctl` makes the kernel block. -/
theorem step_not_honest (hstep : (calls fd).step s op = some s') (h : s.Tracked fd)
    (hop : ¬ Translated s op) : ¬ s'.Honest fd := by
  obtain rfl := not_not.mp hop
  obtain rfl := Option.some.inj hstep
  obtain ⟨c, o, f, hctx, hsock, hopen, -, -, hfile, -⟩ := h
  rintro ⟨⟨f', hf', hblock⟩, -⟩
  rw [ioctl_tracked hctx hsock hopen hfile] at hf'
  simp only [Descriptors.setFile, Function.update_self] at hf'
  obtain rfl := Option.some.inj hf'
  exact hblock (clear_nonblock f.flags)

theorem tracked_opened {fds : Descriptors} {flags : BitVec 32}
    (hat : fds.manager.at_ fd = none) (hflags : flags &&& O_NONBLOCK = 0) :
    (opened fds fd flags).Tracked fd := by
  have hsocket : fds.socket true fd flags = (fds.opened fd flags).autoCreate fd := rfl
  refine ⟨fds.manager.objs.length, ⟨true, true, true, false, false, fd, -1, -1⟩,
    File.setfl ⟨true, flags⟩ (flags ||| O_NONBLOCK), ?_, rfl, rfl, rfl, rfl, ?_, ?_⟩
  · rw [opened, hsocket, Descriptors.ctx_eq_some, Descriptors.autoCreate_opened hat hflags,
      FdManager.at_create]
    simp [FdManager.create]
  · simp [opened, hsocket, Descriptors.autoCreate_opened hat hflags]
  · rw [nonblock_setfl, or_nonblock]
    decide

/-! ### Runs -/

/-- **Non-blocking underneath and honest on top**: after every call of a run the kernel's
flag is set and `F_GETFL` reports what the user has asked for last, if and only if no call
is an `ioctl` that asks for blocking calls. -/
theorem honest_along_iff (hs : (calls fd).init s) (ops : List FlagOp) :
    (calls fd).Along (Honest fd) s ops ↔ (calls fd).Meets Translated s ops := by
  obtain ⟨fds, flags, hat, hflags, rfl⟩ := hs
  refine Lts.along_iff_meets_of (J := Tracked fd) (fun _ => Tracked.honest) ?_ ?_
    (tracked_opened hat hflags) ops
  · exact fun _ _ _ => step_tracked
  · exact fun _ _ _ => step_not_honest

theorem honest_along_mixed : (calls 3).Along (Honest 3) (opened ⟨.make, fun _ => none⟩ 3 2)
    [.setfl 0, .fionbio 1, .getfl, .setfl O_NONBLOCK] :=
  (honest_along_iff ⟨⟨.make, fun _ => none⟩, 2, by decide, by decide, rfl⟩ _).mpr (by decide)

/-- `ioctl` turns the kernel's flag off. -/
theorem honest_false : ∃ s, (calls 3).Reachable s ∧ ¬ s.Honest 3 := by
  have hrun : ((calls 3).run (opened ⟨.make, fun _ => none⟩ 3 2) [.fionbio 0]).map
      (fun s => s.fds.files 3) = some (some ⟨true, 2⟩) := by decide
  have hinit : (calls 3).init (opened ⟨.make, fun _ => none⟩ 3 2) :=
    ⟨⟨.make, fun _ => none⟩, 2, by decide, by decide, rfl⟩
  obtain ⟨s, hr, hfile⟩ := Lts.Reachable.of_map_run hrun (.init hinit)
  refine ⟨s, hr, ?_⟩
  rintro ⟨⟨f, hf, hblock⟩, -⟩
  obtain rfl := Option.some.inj (hf.symm.trans hfile)
  exact absurd hblock (by decide)

end FlagRun

end Easy.Base
