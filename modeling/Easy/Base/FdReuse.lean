import Easy.Base.Hook
import Easy.Lib.Lts

/-!
Whether the context of a descriptor belongs to the socket that has its number now.

`socket` and `accept` leave a context that is there already as it is. A `close` with
the hook disabled closes the descriptor and keeps its context, for whoever gets the
number next.
-/

namespace Easy.Base

open Lib

/-- The descriptors, and the number for which the last call has asked `getFdCtx` for a
new socket's context. -/
structure HookRun where
  fds : Descriptors
  last : Option ℕ

/-- The hooked calls. The number of a new socket is the kernel's choice. -/
inductive HookOp
  | socket (hook : Bool) (fd : ℕ) (flags : BitVec 32)
  | accept (fd : ℕ) (flags : BitVec 32)
  | close (hook : Bool) (fd : ℕ)
  | setsockopt (hook : Bool) (fd : ℕ) (level optname : ℤ) (v : Timeval)
  | setfl (fd : ℕ) (arg : BitVec 32)

namespace HookRun

/-- The kernel returns unused numbers for new sockets, which block. -/
def Fresh (s : HookRun) (fd : ℕ) (flags : BitVec 32) : Prop :=
  s.fds.files fd = none ∧ flags &&& O_NONBLOCK = 0

instance (s : HookRun) (fd : ℕ) (flags : BitVec 32) : Decidable (s.Fresh fd flags) :=
  inferInstanceAs (Decidable (_ ∧ _))

def step (s : HookRun) : HookOp → Option HookRun
  | .socket hook fd flags =>
    if s.Fresh fd flags then some ⟨s.fds.socket hook fd flags, if hook then some fd else none⟩
    else none
  | .accept fd flags => if s.Fresh fd flags then some ⟨s.fds.accept fd flags, some fd⟩ else none
  | .close hook fd => some ⟨s.fds.close hook fd, none⟩
  | .setsockopt hook fd level optname v => some ⟨s.fds.setsockopt hook fd level optname v, none⟩
  | .setfl fd arg => some ⟨s.fds.setfl fd arg, none⟩

def start : HookRun := ⟨⟨.make, fun _ => none⟩, none⟩

def machine : Lts HookRun HookOp where
  init s := s = start
  step := step

/-- The context of the new socket describes it: a socket with user non-block off and
infinite timeouts, which the kernel does not block on if the context says so. -/
def Describes (s : HookRun) : Prop :=
  ∀ fd ∈ s.last, ∃ c ctx, s.fds.ctx fd = some (c, ctx) ∧ ctx.fd = fd ∧ ctx.isSocket ∧
    ctx.userNonblock = false ∧ ctx.recvTimeout = -1 ∧ ctx.sendTimeout = -1 ∧
    (ctx.sysNonblock → ∃ f ∈ s.fds.files fd, f.Nonblock)

/-- A number that a new socket's context is asked for has none. -/
def Vacant (s : HookRun) : HookOp → Prop
  | .socket hook fd _ => hook → s.fds.manager.at_ fd = none
  | .accept fd _ => s.fds.manager.at_ fd = none
  | _ => True

/-- All contexts are of sockets that were set to non-blocking. -/
def Sockets (m : FdManager) : Prop :=
  ∀ fd c, m.at_ fd = some c → ∃ o, m.objs[c]? = some o ∧ o.isSocket ∧ o.sysNonblock

/-! ### What the calls do to the contexts -/

section Calls

variable {m : FdManager} {s : Descriptors} {fd : ℕ} {flags : BitVec 32}

theorem Sockets.remove (h : Sockets m) (fd : ℕ) : Sockets (m.removeFdCtx fd) := by
  intro k c hc
  rw [FdManager.at_removeFdCtx] at hc
  split at hc
  · cases hc
  · exact h k c hc

theorem Sockets.modify (h : Sockets m) (c : ℕ) {f : FdCtx → FdCtx}
    (hf : ∀ o, (f o).isSocket = o.isSocket ∧ (f o).sysNonblock = o.sysNonblock) :
    Sockets (m.modify c f) := by
  intro k d hd
  obtain ⟨o, ho, hsock, hsys⟩ := h k d hd
  by_cases hcd : c = d
  · refine ⟨f o, by simp [FdManager.modify, hcd, ho], ?_, ?_⟩
    · rw [(hf o).1, hsock]
    · rw [(hf o).2, hsys]
  · exact ⟨o, by simp [FdManager.modify, hcd, ho], hsock, hsys⟩

theorem Sockets.create (h : Sockets m) (fd : ℕ) {ctx : FdCtx} (hsock : ctx.isSocket)
    (hsys : ctx.sysNonblock) : Sockets (m.create fd ctx).2 := by
  intro k c hc
  rw [FdManager.at_create] at hc
  split at hc
  · obtain rfl := Option.some.inj hc
    exact ⟨ctx, by simp [FdManager.create], hsock, hsys⟩
  · obtain ⟨o, ho, hoo⟩ := h k c hc
    refine ⟨o, ?_, hoo⟩
    rw [FdManager.objs_create, List.getElem?_append_left (List.getElem?_eq_some_iff.mp ho).1, ho]

theorem Sockets.opened (h : Sockets s.manager) (hflags : flags &&& O_NONBLOCK = 0) :
    Sockets ((s.opened fd flags).autoCreate fd).manager := by
  cases hat : s.manager.at_ fd with
  | none =>
      rw [Descriptors.autoCreate_opened hat hflags]
      exact h.create fd rfl rfl
  | some c =>
      have hsome : (s.opened fd flags).manager.at_ fd = some c := hat
      rw [Descriptors.autoCreate_some hsome]
      exact h

theorem Sockets.close (h : Sockets s.manager) (hook : Bool) (fd : ℕ) :
    Sockets (s.close hook fd).manager := by
  simp only [Descriptors.close]
  split
  · exact h
  · split
    · exact h.remove fd
    · exact h

theorem Sockets.setfl (h : Sockets s.manager) (fd : ℕ) (arg : BitVec 32) :
    Sockets (s.setfl fd arg).manager := by
  simp only [Descriptors.setfl]
  split
  · exact h
  · split
    · exact h
    · exact h.modify _ fun o => ⟨rfl, rfl⟩

theorem Sockets.setsockopt (h : Sockets s.manager) (hook : Bool) (fd : ℕ) (level optname : ℤ)
    (v : Timeval) : Sockets (s.setsockopt hook fd level optname v).manager := by
  simp only [Descriptors.setsockopt]
  split
  · exact h
  · split
    · split
      · refine h.modify _ fun o => ?_
        simp only [FdCtx.setTimeout]
        split <;> exact ⟨rfl, rfl⟩
      · exact h
    · exact h

/-- The context of a new socket describes it just where it is made for it: one that was
there says that the kernel does not block. -/
theorem describes_opened (h : Sockets s.manager) (hflags : flags &&& O_NONBLOCK = 0) :
    Describes ⟨(s.opened fd flags).autoCreate fd, some fd⟩ ↔ s.manager.at_ fd = none := by
  constructor
  · intro hdesc
    obtain ⟨c, ctx, hctx, -, -, -, -, -, hnon⟩ := hdesc fd rfl
    refine Option.eq_none_iff_forall_ne_some.mpr fun d hd => ?_
    have hsome : (s.opened fd flags).manager.at_ fd = some d := hd
    simp only [Descriptors.autoCreate_some hsome] at hctx hnon
    obtain ⟨hc, hobj⟩ := Descriptors.ctx_eq_some.mp hctx
    obtain ⟨o, ho, -, hsys⟩ := h fd c hc
    obtain rfl := Option.some.inj (ho.symm.trans hobj)
    obtain ⟨f, hf, hblock⟩ := hnon hsys
    have hfile : f = ⟨true, flags⟩ := by
      simpa [Descriptors.opened, Descriptors.setFile, eq_comm] using hf
    rw [hfile] at hblock
    exact hblock hflags
  · intro hat k hk
    obtain rfl := Option.some.inj hk
    refine ⟨s.manager.objs.length, ⟨true, true, true, false, false, fd, -1, -1⟩, ?_, rfl, rfl,
      rfl, rfl, rfl, fun _ => ?_⟩
    · rw [Descriptors.ctx_eq_some, Descriptors.autoCreate_opened hat hflags, FdManager.at_create]
      simp [FdManager.create]
    · refine ⟨File.setfl ⟨true, flags⟩ (flags ||| O_NONBLOCK), ?_, ?_⟩
      · simp [Descriptors.autoCreate_opened hat hflags]
      · rw [nonblock_setfl, or_nonblock]
        decide

end Calls

/-! ### Runs -/

variable {s s' : HookRun} {op : HookOp}

/-- What one call can do: ask for the context of a new socket, or keep what is said of
the contexts and ask for none. -/
theorem step_cases (hstep : machine.step s op = some s') :
    (∃ fd flags, flags &&& O_NONBLOCK = 0 ∧
      s' = ⟨(s.fds.opened fd flags).autoCreate fd, some fd⟩ ∧
      (Vacant s op ↔ s.fds.manager.at_ fd = none)) ∨
    s'.last = none ∧ Vacant s op ∧ (Sockets s.fds.manager → Sockets s'.fds.manager) := by
  cases op with
  | socket hook fd flags =>
      obtain ⟨hfresh, heq⟩ := Option.ite_none_right_eq_some.mp hstep
      obtain rfl := Option.some.inj heq
      cases hook with
      | false => exact .inr ⟨rfl, by simp [Vacant], id⟩
      | true => exact .inl ⟨fd, flags, hfresh.2, rfl, by simp [Vacant]⟩
  | accept fd flags =>
      obtain ⟨hfresh, heq⟩ := Option.ite_none_right_eq_some.mp hstep
      obtain rfl := Option.some.inj heq
      exact .inl ⟨fd, flags, hfresh.2, rfl, .rfl⟩
  | close hook fd =>
      obtain rfl := Option.some.inj hstep
      exact .inr ⟨rfl, trivial, fun h => h.close hook fd⟩
  | setsockopt hook fd level optname v =>
      obtain rfl := Option.some.inj hstep
      exact .inr ⟨rfl, trivial, fun h => h.setsockopt hook fd level optname v⟩
  | setfl fd arg =>
      obtain rfl := Option.some.inj hstep
      exact .inr ⟨rfl, trivial, fun h => h.setfl fd arg⟩

theorem step_sockets (hstep : machine.step s op = some s') (h : Sockets s.fds.manager) :
    Sockets s'.fds.manager := by
  rcases step_cases hstep with ⟨fd, flags, hflags, rfl, -⟩ | ⟨-, -, hkeep⟩
  · exact h.opened hflags
  · exact hkeep h

/-- Nothing is asked of a call that makes no socket's context. -/
theorem describes_none (h : s.last = none) : s.Describes := by
  intro fd hfd
  rw [h] at hfd
  cases hfd

theorem step_describes (hstep : machine.step s op = some s') (h : Sockets s.fds.manager) :
    s'.Describes ↔ Vacant s op := by
  rcases step_cases hstep with ⟨fd, flags, hflags, rfl, hvacant⟩ | ⟨hlast, hvacant, -⟩
  · exact (describes_opened h hflags).trans hvacant.symm
  · exact iff_of_true (describes_none hlast) hvacant

theorem sockets_start : Sockets start.fds.manager := by
  simp [Sockets, start]

/-- **Contexts belong to the open descriptors**: along a run the context of every new
socket describes it if and only if none of the numbers that a context is asked for, for
a new socket, has one already. -/
theorem describes_along_iff (ops : List HookOp) :
    machine.Along Describes start ops ↔ machine.Meets Vacant start ops :=
  Lts.along_iff_meets (I := fun s => Sockets s.fds.manager)
    (fun _ _ _ hstep h _ => step_sockets hstep h) (fun _ _ _ hstep h _ => step_describes hstep h)
    sockets_start (describes_none rfl) ops

/-- `accept` makes a context without the hook, `close` does not drop it, and the number is
used again: the context says that the kernel does not block, which it does. -/
theorem describes_false : ∃ s, machine.Reachable s ∧ ¬ s.Describes := by
  have hrun : (machine.run start [.accept 3 2, .close false 3, .accept 3 2]).map
      (fun s => (s.last, (s.fds.ctx 3).map (·.2.sysNonblock), s.fds.files 3)) =
        some (some 3, some true, some ⟨true, 2⟩) := by decide +kernel
  obtain ⟨s, hr, heq⟩ := Lts.Reachable.of_map_run hrun (.init rfl)
  simp only [Prod.mk.injEq] at heq
  obtain ⟨hlast, hsys, hfile⟩ := heq
  refine ⟨s, hr, fun h => ?_⟩
  obtain ⟨c, ctx, hctx, -, -, -, -, -, hnon⟩ := h 3 hlast
  obtain ⟨f, hf, hblock⟩ := hnon (by simpa [hctx] using hsys)
  obtain rfl := Option.some.inj (hf.symm.trans hfile)
  exact absurd hblock (by decide)

end HookRun

end Easy.Base
