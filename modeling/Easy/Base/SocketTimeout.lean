import Easy.Base.DoIo
import Easy.Base.FdReuse
import Easy.Base.Sleep

/-!
What `SO_RCVTIMEO` and `SO_SNDTIMEO` come to in a hooked socket.

`setsockopt` rounds the `timeval` down to milliseconds and stores them in the context of the
descriptor, where `-1UL` stands for no timeout. `do_io` sets a timer of that many
milliseconds unless it finds `-1UL`; so a `timeval` of zero, which stands for no timeout in
the interface, is one that is over at once.
-/

namespace Easy.Base

open Lib

/-! ### Contexts that a later call finds -/

theorem FdCtx.getTimeout_setTimeout_ne (ctx : FdCtx) {type opt : ℤ} (hne : opt ≠ type)
    (htype : type = SO_RCVTIMEO ∨ type = SO_SNDTIMEO) (hopt : opt = SO_RCVTIMEO ∨ opt = SO_SNDTIMEO)
    (ms : BitVec 64) : (ctx.setTimeout opt ms).getTimeout type = ctx.getTimeout type := by
  have hdiff : SO_SNDTIMEO ≠ SO_RCVTIMEO := by decide
  rcases htype with rfl | rfl <;> rcases hopt with rfl | rfl
  · exact absurd rfl hne
  · simp [setTimeout, getTimeout, hdiff]
  · simp [setTimeout, getTimeout, hdiff]
  · exact absurd rfl hne

/-- No context is that of two numbers, and all contexts there are exist. -/
structure Separate (m : FdManager) : Prop where
  distinct : ∀ k k' c, m.at_ k = some c → m.at_ k' = some c → k = k'
  exist : ∀ k c, m.at_ k = some c → c < m.objs.length

section

variable {m : FdManager}

theorem Separate.create (h : Separate m) (fd : ℕ) (ctx : FdCtx) :
    Separate (m.create fd ctx).2 := by
  have hnew : ∀ k c, (m.create fd ctx).2.at_ k = some c →
      k = fd ∧ c = m.objs.length ∨ m.at_ k = some c := by
    intro k c hc
    rw [FdManager.at_create] at hc
    split at hc
    case isTrue hk => exact .inl ⟨hk, (Option.some.inj hc).symm⟩
    case isFalse => exact .inr hc
  constructor
  · intro k k' c hc hc'
    rcases hnew k c hc with ⟨hk, hlen⟩ | hold <;> rcases hnew k' c hc' with ⟨hk', hlen'⟩ | hold'
    · rw [hk, hk']
    · exact absurd hlen (h.exist k' c hold').ne
    · exact absurd hlen' (h.exist k c hold).ne
    · exact h.distinct k k' c hold hold'
  · intro k c hc
    rw [FdManager.objs_create, List.length_append, List.length_singleton]
    rcases hnew k c hc with ⟨-, rfl⟩ | hold
    · exact Nat.lt_succ_self _
    · exact (h.exist k c hold).trans (Nat.lt_succ_self _)

theorem Separate.remove (h : Separate m) (fd : ℕ) : Separate (m.removeFdCtx fd) := by
  have hold : ∀ k c, (m.removeFdCtx fd).at_ k = some c → m.at_ k = some c := by
    intro k c hc
    rw [FdManager.at_removeFdCtx] at hc
    split at hc
    · cases hc
    · exact hc
  exact ⟨fun k k' c hc hc' => h.distinct k k' c (hold k c hc) (hold k' c hc'),
    fun k c hc => h.exist k c (hold k c hc)⟩

theorem Separate.modify (h : Separate m) (c : ℕ) (f : FdCtx → FdCtx) :
    Separate (m.modify c f) := by
  refine ⟨h.distinct, fun k d hd => ?_⟩
  rw [FdManager.modify, List.length_modify]
  exact h.exist k d hd

variable {d : Descriptors}

theorem Separate.opened (h : Separate d.manager) (fd : ℕ) (flags : BitVec 32) :
    Separate ((d.opened fd flags).autoCreate fd).manager := by
  rw [Descriptors.autoCreate]
  split
  case h_1 => exact h
  case h_2 => exact h.create fd _

theorem Separate.close (h : Separate d.manager) (hook : Bool) (fd : ℕ) :
    Separate (d.close hook fd).manager := by
  rw [Descriptors.close]
  split
  · exact h
  · split
    · exact h.remove fd
    · exact h

theorem Separate.setsockopt (h : Separate d.manager) (hook : Bool) (fd : ℕ) (level optname : ℤ)
    (v : Timeval) : Separate (d.setsockopt hook fd level optname v).manager := by
  rw [Descriptors.setsockopt]
  split
  · exact h
  · split
    · split
      · exact h.modify _ _
      · exact h
    · exact h

theorem Separate.setfl (h : Separate d.manager) (fd : ℕ) (arg : BitVec 32) :
    Separate (d.setfl fd arg).manager := by
  rw [Descriptors.setfl]
  split
  · exact h
  · split
    · exact h
    · exact h.modify _ _

theorem HookRun.separate {s : HookRun} (h : machine.Reachable s) : Separate s.fds.manager := by
  refine h.invariant (I := fun s => Separate s.fds.manager) (fun s hs => ?_) ?_
  · rw [show s = start from hs]
    exact ⟨by simp [start], by simp [start]⟩
  · intro s op s' hstep hI
    cases op with
    | socket hook fd flags =>
        obtain ⟨-, heq⟩ := Option.ite_none_right_eq_some.mp hstep
        obtain rfl := Option.some.inj heq
        cases hook with
        | false => exact hI
        | true => exact hI.opened fd flags
    | accept fd flags =>
        obtain ⟨-, heq⟩ := Option.ite_none_right_eq_some.mp hstep
        obtain rfl := Option.some.inj heq
        exact hI.opened fd flags
    | close hook fd =>
        obtain rfl := Option.some.inj hstep
        exact hI.close hook fd
    | setsockopt hook fd level optname v =>
        obtain rfl := Option.some.inj hstep
        exact hI.setsockopt hook fd level optname v
    | setfl fd arg =>
        obtain rfl := Option.some.inj hstep
        exact hI.setfl fd arg

end

/-- The number `fd` has the context `c` to itself, with this timeout. -/
structure KeepsTimeout (m : FdManager) (fd c : ℕ) (type : ℤ) (ms : BitVec 64) : Prop where
  at_eq : m.at_ fd = some c
  own : ∀ k, m.at_ k = some c → k = fd
  timeout : ∃ o, m.objs[c]? = some o ∧ o.getTimeout type = ms

section

variable {m : FdManager} {fd c k : ℕ} {type : ℤ} {ms : BitVec 64}

theorem KeepsTimeout.create (h : KeepsTimeout m fd c type ms) (hk : k ≠ fd) (ctx : FdCtx) :
    KeepsTimeout (m.create k ctx).2 fd c type ms := by
  obtain ⟨o, ho, hms⟩ := h.timeout
  obtain ⟨hlt, -⟩ := List.getElem?_eq_some_iff.mp ho
  refine ⟨?_, fun j hj => ?_, o, ?_, hms⟩
  · rw [FdManager.at_create, if_neg (Ne.symm hk)]
    exact h.at_eq
  · rw [FdManager.at_create] at hj
    split at hj
    · have hlen : m.objs.length = c := Option.some.inj hj
      omega
    · exact h.own j hj
  · rw [FdManager.objs_create, List.getElem?_append_left hlt]
    exact ho

theorem KeepsTimeout.remove (h : KeepsTimeout m fd c type ms) (hk : k ≠ fd) :
    KeepsTimeout (m.removeFdCtx k) fd c type ms := by
  refine ⟨?_, fun j hj => ?_, h.timeout⟩
  · rw [FdManager.at_removeFdCtx, if_neg (Ne.symm hk)]
    exact h.at_eq
  · rw [FdManager.at_removeFdCtx] at hj
    split at hj
    · cases hj
    · exact h.own j hj

theorem KeepsTimeout.modify (h : KeepsTimeout m fd c type ms) (d : ℕ) {f : FdCtx → FdCtx}
    (hf : d = c → ∀ o, (f o).getTimeout type = o.getTimeout type) :
    KeepsTimeout (m.modify d f) fd c type ms := by
  obtain ⟨o, ho, hms⟩ := h.timeout
  refine ⟨h.at_eq, h.own, ?_⟩
  by_cases hd : d = c
  · exact ⟨f o, by simp [FdManager.modify, hd, ho], (hf hd o).trans hms⟩
  · exact ⟨o, by simp [FdManager.modify, hd, ho], hms⟩

end

/-- The descriptor is open, and its context keeps the timeout. -/
def Stored (d : Descriptors) (fd c : ℕ) (type : ℤ) (ms : BitVec 64) : Prop :=
  (d.files fd).isSome ∧ KeepsTimeout d.manager fd c type ms

section

variable {d : Descriptors} {fd c k : ℕ} {type : ℤ} {ms : BitVec 64}

theorem Stored.setFile (h : Stored d fd c type ms) {f : Option File} (hf : k = fd → f.isSome) :
    Stored (d.setFile k f) fd c type ms := by
  refine ⟨?_, h.2⟩
  by_cases hk : k = fd
  · simpa [Descriptors.setFile, hk] using hf hk
  · change (Function.update d.files k f fd).isSome
    rw [Function.update_of_ne (Ne.symm hk)]
    exact h.1

theorem Stored.opened (h : Stored d fd c type ms) (hk : k ≠ fd) (flags : BitVec 32) :
    Stored ((d.opened k flags).autoCreate k) fd c type ms := by
  have hopened : Stored (d.opened k flags) fd c type ms := h.setFile fun heq => absurd heq hk
  rw [Descriptors.autoCreate]
  split
  case h_1 => exact hopened
  case h_2 =>
    have hcreated : ∀ ctx,
        Stored ⟨(d.manager.create k ctx).2, (d.opened k flags).files⟩ fd c type ms :=
      fun ctx => ⟨hopened.1, h.2.create hk ctx⟩
    exact (hcreated _).setFile fun heq => absurd heq hk

theorem Stored.close (h : Stored d fd c type ms) (hook : Bool) (hk : k ≠ fd) :
    Stored (d.close hook k) fd c type ms := by
  rw [Descriptors.close]
  split
  · exact h.setFile fun heq => absurd heq hk
  · split
    · have hremoved : Stored ⟨d.manager.removeFdCtx k, d.files⟩ fd c type ms := ⟨h.1, h.2.remove hk⟩
      exact hremoved.setFile fun heq => absurd heq hk
    · exact h.setFile fun heq => absurd heq hk

theorem Stored.setsockopt (h : Stored d fd c type ms)
    (htype : type = SO_RCVTIMEO ∨ type = SO_SNDTIMEO) (hook : Bool) (level : ℤ)
    {optname : ℤ} (hopt : k = fd → optname ≠ type) (v : Timeval) :
    Stored (d.setsockopt hook k level optname v) fd c type ms := by
  rw [Descriptors.setsockopt]
  split
  · exact h
  · split
    case isTrue hoption =>
      split
      case h_1 b o hctx =>
        refine ⟨h.1, h.2.modify b fun hb o => ?_⟩
        -- the context is that of `fd`, so it is the other timeout of it
        have hk : k = fd := h.2.own k (hb ▸ (Descriptors.ctx_eq_some.mp hctx).1)
        exact o.getTimeout_setTimeout_ne (hopt hk) htype hoption.2 v.millis
      case h_2 => exact h
    case isFalse => exact h

theorem Stored.setfl (h : Stored d fd c type ms) (arg : BitVec 32) :
    Stored (d.setfl k arg) fd c type ms := by
  have hraw : ∀ {e : Descriptors}, Stored e fd c type ms →
      ∀ w, Stored (e.fcntlF k w) fd c type ms := by
    intro e he w
    refine he.setFile ?_
    rintro rfl
    rw [Option.isSome_map]
    exact he.1
  rw [Descriptors.setfl]
  split
  case h_1 => exact hraw h arg
  case h_2 b o hctx =>
    split
    · exact hraw h arg
    · have hflag : ∀ flag,
          Stored ⟨d.manager.modify b (·.setUserNonblock flag), d.files⟩ fd c type ms :=
        fun flag => ⟨h.1, h.2.modify b fun _ _ => rfl⟩
      exact hraw (hflag _) _

end

namespace HookRun

variable {s s' : HookRun} {op : HookOp} {fd c : ℕ} {type : ℤ} {ms : BitVec 64}

/-- The call does not close the descriptor or set this timeout of it. -/
def Spares (fd : ℕ) (type : ℤ) : HookOp → Prop
  | .close _ k => k ≠ fd
  | .setsockopt _ k _ optname _ => k = fd → optname ≠ type
  | _ => True

/-- **One call** that spares the timeout. -/
theorem stored_step (h : Stored s.fds fd c type ms)
    (htype : type = SO_RCVTIMEO ∨ type = SO_SNDTIMEO) (hspares : Spares fd type op)
    (hstep : machine.step s op = some s') :
    Stored s'.fds fd c type ms := by
  have hfresh : ∀ {k flags}, s.Fresh k flags → k ≠ fd := by
    rintro k flags ⟨hnone, -⟩ rfl
    have hopen := h.1
    rw [hnone] at hopen
    cases hopen
  cases op with
  | socket hook k flags =>
      obtain ⟨hnew, heq⟩ := Option.ite_none_right_eq_some.mp hstep
      obtain rfl := Option.some.inj heq
      cases hook with
      | false => exact h.setFile fun heq => absurd heq (hfresh hnew)
      | true => exact h.opened (hfresh hnew) flags
  | accept k flags =>
      obtain ⟨hnew, heq⟩ := Option.ite_none_right_eq_some.mp hstep
      obtain rfl := Option.some.inj heq
      exact h.opened (hfresh hnew) flags
  | close hook k =>
      obtain rfl := Option.some.inj hstep
      exact h.close hook hspares
  | setsockopt hook k level optname v =>
      obtain rfl := Option.some.inj hstep
      exact h.setsockopt htype hook level hspares v
  | setfl k arg =>
      obtain rfl := Option.some.inj hstep
      exact h.setfl arg

/-- **Calls** that spare the timeout. -/
theorem stored_run (h : Stored s.fds fd c type ms) (htype : type = SO_RCVTIMEO ∨ type = SO_SNDTIMEO)
    {ops : List HookOp} (hspares : ∀ op ∈ ops, Spares fd type op)
    (hrun : machine.run s ops = some s') : Stored s'.fds fd c type ms := by
  induction ops generalizing s with
  | nil => exact Option.some.inj hrun ▸ h
  | cons op ops ih =>
      obtain ⟨s₁, hstep, hrest⟩ := Option.bind_eq_some_iff.mp hrun
      exact ih (stored_step h htype (hspares op (by simp)) hstep)
        (fun op' hop' => hspares op' (by simp [hop'])) hrest

end HookRun

/-! ### The timers of a call -/

/-- A script in which there is no data: a call is interrupted or would block, at least one
would block, and no wait ends by readiness. -/
structure NeverReady (script : List Attempt) : Prop where
  no_data : ∀ a ∈ script, a.Interrupted ∨ a.WouldBlock
  waits : ∃ a ∈ script, a.WouldBlock
  not_woken : ∀ a ∈ script, ¬ a.Woken

/-- **The first wait** is the last one, and sets the only timer. -/
theorem timers_retry {ms : BitVec 64} (hms : ms ≠ -1) {script : List Attempt}
    (h : NeverReady script) : (retry ms ⟨false⟩ script).timers = [ms] := by
  have harmed : armed ms = [ms] := if_pos hms
  induction script with
  | nil =>
      obtain ⟨a, ha, -⟩ := h.waits
      cases ha
  | cons a rest ih =>
      rw [retry]
      by_cases hint : a.Interrupted
      · rw [if_pos hint]
        refine ih ⟨fun b hb => h.no_data b (by simp [hb]), ?_,
          fun b hb => h.not_woken b (by simp [hb])⟩
        obtain ⟨b, hb, hblock⟩ := h.waits
        rcases List.mem_cons.mp hb with rfl | hb
        · exact absurd hblock hint.not_wouldBlock
        · exact ⟨b, hb, hblock⟩
      · have hblock : a.WouldBlock := (h.no_data a (by simp)).resolve_left hint
        rw [if_neg hint, if_pos hblock]
        cases hw : a.wait with
        | addEventFailed errno => exact harmed
        | ready late => exact absurd ⟨late, hw⟩ (h.not_woken a (by simp))
        | timer =>
            simp only [await_fires hms (w := .timer) rfl, if_true]
            exact harmed

theorem timers_doIo {ctx : FdCtx} (hctx : ctx.Blocking) {type : ℤ} (hms : ctx.getTimeout type ≠ -1)
    {script : List Attempt} (h : NeverReady script) :
    (doIo true (some ctx) type script).timers = [ctx.getTimeout type] := by
  obtain ⟨hclosed, hsocket, huser⟩ := hctx
  simp only [doIo, hclosed, hsocket, huser, Bool.not_true, Bool.false_eq_true, if_false,
    Bool.or_self]
  exact timers_retry hms h

/-! ### The conversion -/

/-- `tv_sec * 1000 + tv_usec / 1000`, with its overflows. -/
def Timeval.millis64 (v : Timeval) : Option ℤ := do
  let ms ← int64 (v.sec * 1000)
  int64 (ms + v.usec.tdiv 1000)

/-- A `timeval` as the interface has them. -/
structure Timeval.Wf (v : Timeval) : Prop where
  sec_nonneg : 0 ≤ v.sec
  sec_lt : v.sec * 1000 < 2 ^ 63
  usec_nonneg : 0 ≤ v.usec
  usec_lt : v.usec < 1000000

variable {v : Timeval}

theorem Timeval.Wf.isSome_millis64 (h : v.Wf) :
    v.millis64.isSome ↔ v.sec * 1000 + v.usec / 1000 < 2 ^ 63 := by
  have hsec := h.sec_nonneg
  have husec := h.usec_nonneg
  have hms : int64 (v.sec * 1000) = some (v.sec * 1000) :=
    int64_eq_some.mpr ⟨⟨by omega, h.sec_lt⟩, rfl⟩
  rw [millis64, hms, Option.bind_eq_bind, Option.bind_some, Int.tdiv_eq_ediv_of_nonneg husec, int64]
  split
  case isTrue hfits => exact iff_of_true rfl hfits.2
  case isFalse hfits => exact iff_of_false (by simp) fun hlt => hfits ⟨by omega, hlt⟩

/-- What is stored. -/
theorem Timeval.Wf.toNat_millis (h : v.Wf) :
    (v.millis.toNat : ℤ) = v.sec * 1000 + v.usec / 1000 := by
  have hsec := h.sec_nonneg
  have hlt := h.sec_lt
  have husec := h.usec_nonneg
  have husec' := h.usec_lt
  rw [millis, Int.tdiv_eq_ediv_of_nonneg husec, BitVec.toNat_ofInt]
  omega

theorem Timeval.Wf.millis_ne (h : v.Wf) : v.millis ≠ -1 := by
  intro heq
  have hnat := h.toNat_millis
  have hlt := h.sec_lt
  have husec := h.usec_lt
  rw [heq] at hnat
  have hmax : (-1 : BitVec 64).toNat = 2 ^ 64 - 1 := rfl
  rw [hmax] at hnat
  omega

/-- The timers of a call that waits are those that the option stands for: none for zero, and
otherwise one that, added when the clock shows `now`, expires after at least the time set and
less than a millisecond more. -/
def MeansTimeout (v : Timeval) (now : ℤ) (r : IoRun) : Prop :=
  v.millis64.isSome ∧
    if v.sec = 0 ∧ v.usec = 0 then r.timers = []
    else ∃ ms expiration, r.timers = [ms] ∧ expires ms now = some expiration ∧
      now + (v.sec * 1000000 + v.usec) ≤ expiration ∧
        expiration < now + (v.sec * 1000000 + v.usec) + 1000

theorem Timeval.Wf.toInt_millis (h : v.Wf) (hfits : v.sec * 1000 + v.usec / 1000 < 2 ^ 63) :
    v.millis.toInt = v.sec * 1000 + v.usec / 1000 := by
  have hnat := h.toNat_millis
  rw [BitVec.toInt_eq_toNat_of_lt (by omega), hnat]

theorem Timeval.Wf.meansTimeout_iff (h : v.Wf) (now : BitVec 64) {r : IoRun}
    (hr : r.timers = [v.millis]) :
    MeansTimeout v now.toInt r ↔ ¬ (v.sec = 0 ∧ v.usec = 0) ∧ v.usec % 1000 = 0 ∧
      v.sec * 1000000 + v.usec < 2 ^ 63 ∧
        now.toInt + (v.sec * 1000000 + v.usec) < 2 ^ 63 := by
  have hnow : -2 ^ 63 ≤ now.toInt := BitVec.le_toInt now
  have hsec := h.sec_nonneg
  have husec := h.usec_nonneg
  rw [MeansTimeout, h.isSome_millis64, hr]
  split
  case isTrue hzero => simp [hzero]
  case isFalse hzero =>
    simp only [hzero, not_false_eq_true, true_and, expires, addTime64_eq_some, List.cons.injEq,
      and_true]
    constructor
    · rintro ⟨hfits, ms, expiration, rfl, ⟨hms, hsum, rfl⟩, hle, hlt⟩
      rw [h.toInt_millis hfits] at hms hsum hle hlt
      omega
    · rintro ⟨hwhole, hms, hsum⟩
      have hfits : v.sec * 1000 + v.usec / 1000 < 2 ^ 63 := by omega
      have hint := h.toInt_millis hfits
      exact ⟨hfits, v.millis, _, rfl, ⟨by omega, by omega, rfl⟩, by omega, by omega⟩

namespace HookRun

variable {s s' : HookRun} {fd c : ℕ} {type : ℤ}

/-- The context has what was set last. -/
theorem stored_setsockopt (hr : machine.Reachable s) {o : FdCtx} (hctx : s.fds.ctx fd = some (c, o))
    (hopen : (s.fds.files fd).isSome) (htype : type = SO_RCVTIMEO ∨ type = SO_SNDTIMEO) :
    Stored (s.fds.setsockopt true fd SOL_SOCKET type v) fd c type v.millis := by
  obtain ⟨hat, hobj⟩ := Descriptors.ctx_eq_some.mp hctx
  have hset : s.fds.setsockopt true fd SOL_SOCKET type v =
      ⟨s.fds.manager.modify c (·.setTimeout type v.millis), s.fds.files⟩ := by
    simp [Descriptors.setsockopt, htype, hctx]
  rw [hset]
  refine ⟨hopen, hat, fun k hk => (separate hr).distinct k fd c hk hat,
    o.setTimeout type v.millis, by simp [FdManager.modify, hobj], o.getTimeout_setTimeout ..⟩

theorem getTimeout_of_stored {d : Descriptors} {ms : BitVec 64} (h : Stored d fd c type ms) {c' : ℕ}
    {o : FdCtx} (hctx : d.ctx fd = some (c', o)) : o.getTimeout type = ms := by
  obtain ⟨hat, hobj⟩ := Descriptors.ctx_eq_some.mp hctx
  obtain rfl := Option.some.inj (h.2.at_eq.symm.trans hat)
  obtain ⟨o', ho', hms⟩ := h.2.timeout
  obtain rfl := Option.some.inj (ho'.symm.trans hobj)
  exact hms

/-- **Socket timeouts.** A call that waits on the socket after the option was set, and after
any calls that have not set it again, means the timeout exactly where it is not zero, in
whole milliseconds, and does not overflow, by itself or from now on. The timeout of the other
direction stays. -/
theorem socket_timeout_iff (hr : machine.Reachable s) {o : FdCtx}
    (hctx : s.fds.ctx fd = some (c, o)) (hopen : (s.fds.files fd).isSome)
    (htype : type = SO_RCVTIMEO ∨ type = SO_SNDTIMEO) (hv : v.Wf) {ops : List HookOp}
    (hspares : ∀ op ∈ ops, Spares fd type op)
    (hrun : machine.run s (.setsockopt true fd SOL_SOCKET type v :: ops) = some s') {c' : ℕ}
    {later : FdCtx} (hlater : s'.fds.ctx fd = some (c', later)) (hblocking : later.Blocking)
    {script : List Attempt} (hscript : NeverReady script) (now : BitVec 64) :
    (MeansTimeout v now.toInt (doIo true (some later) type script) ↔
      ¬ (v.sec = 0 ∧ v.usec = 0) ∧ v.usec % 1000 = 0 ∧ v.sec * 1000000 + v.usec < 2 ^ 63 ∧
        now.toInt + (v.sec * 1000000 + v.usec) < 2 ^ 63) ∧
    ∀ other, other ≠ type → (other = SO_RCVTIMEO ∨ other = SO_SNDTIMEO) →
      (∀ op ∈ ops, Spares fd other op) → later.getTimeout other = o.getTimeout other := by
  constructor
  · obtain ⟨s₁, hstep, hrest⟩ := Option.bind_eq_some_iff.mp hrun
    obtain rfl := Option.some.inj hstep
    have hstored := stored_run (stored_setsockopt hr hctx hopen htype) htype hspares hrest
    have hms := getTimeout_of_stored hstored hlater
    have htimers := timers_doIo hblocking (hms ▸ hv.millis_ne) hscript
    rw [hms] at htimers
    exact hv.meansTimeout_iff now htimers
  · intro other hne hother hspares'
    obtain ⟨hat, hobj⟩ := Descriptors.ctx_eq_some.mp hctx
    have hstored : Stored s.fds fd c other (o.getTimeout other) :=
      ⟨hopen, hat, fun k hk => (separate hr).distinct k fd c hk hat, o, hobj, rfl⟩
    refine getTimeout_of_stored (stored_run hstored hother (fun op hop => ?_) hrun) hlater
    rcases List.mem_cons.mp hop with rfl | hop
    · exact fun _ => hne.symm
    · exact hspares' op hop

/-- The context of the socket `3` when it is new. -/
def newSocket : FdCtx := ⟨true, true, true, false, false, 3, -1, -1⟩

/-- A new socket, and its context after some calls. -/
theorem exists_socket (ops : List HookOp) (ctx : FdCtx)
    (h : (machine.run start (.socket true 3 2 :: ops)).map (fun s => s.fds.ctx 3) =
      some (some (0, ctx))) :
    ∃ s s', machine.Reachable s ∧ s.fds.ctx 3 = some (0, newSocket) ∧ (s.fds.files 3).isSome ∧
      machine.run s ops = some s' ∧ s'.fds.ctx 3 = some (0, ctx) := by
  have hsocket : (machine.run start [.socket true 3 2]).map
      (fun s => (s.fds.ctx 3, (s.fds.files 3).isSome)) = some (some (0, newSocket), true) := by
    decide +kernel
  obtain ⟨s, hs, heq⟩ := Option.map_eq_some_iff.mp hsocket
  obtain ⟨hctx, hopen⟩ := Prod.mk.inj heq
  obtain ⟨s', hs', hctx'⟩ := Option.map_eq_some_iff.mp h
  obtain ⟨s₁, hstep, hrest⟩ := Option.bind_eq_some_iff.mp hs'
  have hone : machine.run start [.socket true 3 2] = some s₁ := by
    rw [Lts.run, hstep]
    rfl
  obtain rfl := Option.some.inj (hs.symm.trans hone)
  exact ⟨s, s', Lts.Reachable.of_run (.init rfl) hs, hctx, hopen, hrest, hctx'⟩

/-- A second and a half to receive, and two to send. -/
theorem socket_timeout_half :
    ∃ s s' : HookRun, machine.Reachable s ∧
      machine.run s [.setsockopt true 3 SOL_SOCKET SO_RCVTIMEO ⟨1, 500000⟩,
        .setsockopt true 3 SOL_SOCKET SO_SNDTIMEO ⟨2, 0⟩] = some s' ∧
      s'.fds.ctx 3 = some (0, { newSocket with recvTimeout := 1500, sendTimeout := 2000 }) ∧
      MeansTimeout ⟨1, 500000⟩ 0
        (doIo true (some { newSocket with recvTimeout := 1500, sendTimeout := 2000 }) SO_RCVTIMEO
          [⟨⟨-1, EINTR⟩, .timer⟩, ⟨⟨-1, EAGAIN⟩, .timer⟩]) := by
  obtain ⟨s, s', hr, hctx, hopen, hrun, hlater⟩ :=
    exists_socket [.setsockopt true 3 SOL_SOCKET SO_RCVTIMEO ⟨1, 500000⟩,
      .setsockopt true 3 SOL_SOCKET SO_SNDTIMEO ⟨2, 0⟩]
      { newSocket with recvTimeout := 1500, sendTimeout := 2000 } (by decide +kernel)
  have hscript : NeverReady [⟨⟨-1, EINTR⟩, .timer⟩, ⟨⟨-1, EAGAIN⟩, .timer⟩] := by
    refine ⟨by decide, ⟨⟨⟨-1, EAGAIN⟩, .timer⟩, by simp, by decide⟩, ?_⟩
    rintro a ha ⟨late, hlate⟩
    rcases List.mem_pair.mp ha with rfl | rfl
    · cases hlate
    · cases hlate
  refine ⟨s, s', hr, hrun, hlater, ?_⟩
  refine (socket_timeout_iff hr hctx hopen (.inl rfl) ⟨by decide, by decide, by decide, by decide⟩
    (fun op hop => ?_) hrun hlater (by decide) hscript 0).1.mpr (by decide)
  rw [List.mem_singleton] at hop
  subst hop
  exact fun _ => by decide

/-- A socket that sets `v` and finds no data does not wait for `v`. -/
def Misses (v : Timeval) : Prop :=
  ∃ s s' later, machine.Reachable s ∧
    machine.run s [.setsockopt true 3 SOL_SOCKET SO_RCVTIMEO v] = some s' ∧
    s'.fds.ctx 3 = some (0, later) ∧ later.Blocking ∧
    ¬ MeansTimeout v 0 (doIo true (some later) SO_RCVTIMEO [⟨⟨-1, EAGAIN⟩, .timer⟩])

theorem misses_of_mem {usec : ℤ} (h : usec ∈ [0, 500]) : Misses ⟨0, usec⟩ := by
  have hafter : ∀ usec ∈ [0, 500], (machine.run start [.socket true 3 2,
      .setsockopt true 3 SOL_SOCKET SO_RCVTIMEO ⟨0, usec⟩]).map (fun s => s.fds.ctx 3) =
        some (some (0, { newSocket with recvTimeout := 0 })) := by
    decide +kernel
  obtain ⟨s, s', hr, -, -, hrun, hlater⟩ := exists_socket _ _ (hafter usec h)
  refine ⟨s, s', _, hr, hrun, hlater, by decide, ?_⟩
  rcases List.mem_pair.mp h with rfl | rfl
  · have hv : Timeval.Wf ⟨0, 0⟩ := ⟨by decide, by decide, by decide, by decide⟩
    refine fun hmeans => absurd ((hv.meansTimeout_iff 0 ?_).mp hmeans) (by decide)
    decide
  · have hv : Timeval.Wf ⟨0, 500⟩ := ⟨by decide, by decide, by decide, by decide⟩
    refine fun hmeans => absurd ((hv.meansTimeout_iff 0 ?_).mp hmeans) (by decide)
    decide

/-- A zero timeout, and one of half a millisecond: a timer of zero milliseconds is set. -/
theorem socket_timeout_false : Misses ⟨0, 0⟩ ∧ Misses ⟨0, 500⟩ :=
  ⟨misses_of_mem (by decide), misses_of_mem (by decide)⟩

end HookRun

end Easy.Base
