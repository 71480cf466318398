import Easy.Base.FdManager

/-!
`do_io` and `connect_with_timeout` of `easy/base/hook.cc`.

What the environment does is a script: an `Attempt` is one raw call, with how the wait
behind it ends if the code comes to wait. A run of a function on a script yields the raw
calls it made, the condition timers it set and what it returned, if it did not outlast the
script.

`timer_info::cancelled` has the type `bool`. The timer's callback assigns `ETIMEDOUT` to
it, and what is read back into `errno` is one.
-/

namespace Easy.Base

def EINTR : ℤ := 4

def EBADF : ℤ := 9

def EAGAIN : ℤ := 11

def ETIMEDOUT : ℤ := 110

def EINPROGRESS : ℤ := 115

/-- The result of a call, and `errno` behind it. -/
structure Ret where
  n : ℤ
  errno : ℤ
  deriving DecidableEq, Repr

/-- `struct timer_info` -/
structure TimerInfo where
  cancelled : Bool
  deriving DecidableEq, Repr

/-- How a wait ends: `addEvent` fails, the fiber is resumed by readiness, or by the
callback of the condition timer. Where `late` is set, the callback has run too before
the fiber goes on. -/
inductive Wait
  | addEventFailed (errno : ℤ)
  | ready (late : Bool)
  | timer
  deriving DecidableEq, Repr

/-- The timer's callback runs before the fiber goes on. -/
def Wait.fires : Wait → Bool
  | .addEventFailed _ => false
  | .ready late => late
  | .timer => true

/-- A raw call, and how the wait ends if it is waited for. -/
structure Attempt where
  call : Ret
  wait : Wait
  deriving DecidableEq, Repr

/-- What a function did: its raw calls, the condition timers it set, in milliseconds, and
what it returned. -/
structure IoRun where
  calls : List Ret
  timers : List (BitVec 64)
  returned : Option Ret
  deriving DecidableEq, Repr

/-- What the condition timer's callback does to the record it shares with the call. -/
def TimerInfo.onTimer (t : TimerInfo) : TimerInfo :=
  if t.cancelled then t else ⟨decide (ETIMEDOUT ≠ 0)⟩

/-- The record after a wait. No timer is set where `ms` is `-1UL`. -/
def TimerInfo.await (t : TimerInfo) (ms : BitVec 64) (w : Wait) : TimerInfo :=
  if ms ≠ -1 ∧ w.fires then t.onTimer else t

/-- `iom->addConditionTimer`, if there is a timeout. -/
def armed (ms : BitVec 64) : List (BitVec 64) := if ms ≠ -1 then [ms] else []

namespace Attempt

def Interrupted (a : Attempt) : Prop := a.call.n = -1 ∧ a.call.errno = EINTR

def WouldBlock (a : Attempt) : Prop := a.call.n = -1 ∧ a.call.errno = EAGAIN

def InProgress (a : Attempt) : Prop := a.call.n = -1 ∧ a.call.errno = EINPROGRESS

instance : DecidablePred Interrupted := fun _ => inferInstanceAs (Decidable (_ ∧ _))

instance : DecidablePred WouldBlock := fun _ => inferInstanceAs (Decidable (_ ∧ _))

instance : DecidablePred InProgress := fun _ => inferInstanceAs (Decidable (_ ∧ _))

end Attempt

/-- The plain call, as it is where the hook does not apply. -/
def unhooked : List Attempt → IoRun
  | [] => ⟨[], [], none⟩
  | a :: _ => ⟨[a.call], [], some a.call⟩

/-! ### `do_io` -/

/-- From the label `retry` on. -/
def retry (ms : BitVec 64) : TimerInfo → List Attempt → IoRun
  | _, [] => ⟨[], [], none⟩
  | tinfo, a :: rest =>
    if a.Interrupted then
      let r := retry ms tinfo rest
      ⟨a.call :: r.calls, r.timers, r.returned⟩
    else if a.WouldBlock then
      match a.wait with
      | .addEventFailed errno => ⟨[a.call], armed ms, some ⟨-1, errno⟩⟩
      | w =>
        let tinfo := tinfo.await ms w
        if tinfo.cancelled then ⟨[a.call], armed ms, some ⟨-1, tinfo.cancelled.toInt⟩⟩
        else
          let r := retry ms tinfo rest
          ⟨a.call :: r.calls, armed ms ++ r.timers, r.returned⟩
    else ⟨[a.call], [], some a.call⟩

def doIo (hook : Bool) (ctx : Option FdCtx) (timeout_so : ℤ) (script : List Attempt) : IoRun :=
  if !hook then unhooked script
  else
    match ctx with
    | none => unhooked script
    | some ctx =>
      if ctx.isClosed then ⟨[], [], some ⟨-1, EBADF⟩⟩
      else if !ctx.isSocket || ctx.userNonblock then unhooked script
      else retry (ctx.getTimeout timeout_so) ⟨false⟩ script

/-! ### `connect_with_timeout` -/

/-- `getsockopt(fd, SOL_SOCKET, SO_ERROR, &error, &len)` -/
structure SoError where
  call : Ret
  error : ℤ
  deriving DecidableEq, Repr

/-- The end of `connect_with_timeout`. -/
def SoError.status (so : SoError) : Ret :=
  if so.call.n = -1 then ⟨-1, so.call.errno⟩
  else if so.error = 0 then ⟨0, so.call.errno⟩
  else ⟨-1, so.error⟩

/-- `connect_with_timeout`; without the hook, the `setsockopt` before the call is left
out. -/
def connectWithTimeout (hook : Bool) (ctx : Option FdCtx) (timeout_ms : BitVec 64)
    (script : List Attempt) (so : SoError) : IoRun :=
  if !hook then unhooked script
  else
    match ctx with
    | none => ⟨[], [], some ⟨-1, EBADF⟩⟩
    | some ctx =>
      if ctx.isClosed then ⟨[], [], some ⟨-1, EBADF⟩⟩
      else if !ctx.isSocket then unhooked script
      else if ctx.userNonblock then unhooked script
      else
        match script with
        | [] => ⟨[], [], none⟩
        | a :: _ =>
          if a.call.n = 0 then ⟨[a.call], [], some ⟨0, a.call.errno⟩⟩
          else if a.call.n ≠ -1 ∨ a.call.errno ≠ EINPROGRESS then ⟨[a.call], [], some a.call⟩
          else
            match a.wait with
            | .addEventFailed _ => ⟨[a.call, so.call], armed timeout_ms, some so.status⟩
            | w =>
              let tinfo := TimerInfo.await ⟨false⟩ timeout_ms w
              if tinfo.cancelled then
                ⟨[a.call], armed timeout_ms, some ⟨-1, tinfo.cancelled.toInt⟩⟩
              else ⟨[a.call, so.call], armed timeout_ms, some so.status⟩

/-! ### What a caller expects -/

/-- A socket whose user lets calls block. -/
def FdCtx.Blocking (ctx : FdCtx) : Prop :=
  ctx.isClosed = false ∧ ctx.isSocket = true ∧ ctx.userNonblock = false

instance : DecidablePred FdCtx.Blocking := fun _ => inferInstanceAs (Decidable (_ ∧ _ ∧ _))

/-- `addEvent` succeeds whenever the call comes to wait. -/
def AddEventSucceeds (script : List Attempt) : Prop :=
  ∀ a ∈ script, ∀ errno, a.wait ≠ .addEventFailed errno

namespace Attempt

/-- Woken by readiness. -/
def Woken (a : Attempt) : Prop := ∃ late, a.wait = .ready late

/-- A call that is to be made again. -/
def Retried (a : Attempt) : Prop := a.Interrupted ∨ a.WouldBlock ∧ a.Woken

/-- What the function is to return after its last raw call. -/
def verdict (a : Attempt) : Ret :=
  if a.WouldBlock ∧ a.wait = .timer then ⟨-1, ETIMEDOUT⟩ else a.call

end Attempt

/-- The raw call is made again exactly after `EINTR` and after each wake-up by readiness;
the function returns what the last one returned, or the timeout if the timer's callback ended
the wait. -/
def Reports (script : List Attempt) (r : IoRun) : Prop :=
  ∃ retried last rest, script = retried ++ last :: rest ∧ (∀ a ∈ retried, a.Retried) ∧
    ¬ last.Retried ∧ r.calls = (retried ++ [last]).map Attempt.call ∧
    r.returned = some last.verdict

/-- `connect_f` is made again exactly after `EINTR`; where it is in progress, the function
waits once and returns the status of the socket, or the timeout. -/
def ConnectReports (script : List Attempt) (so : SoError) (r : IoRun) : Prop :=
  ∃ retried last rest, script = retried ++ last :: rest ∧ (∀ a ∈ retried, a.Interrupted) ∧
    ¬ last.Interrupted ∧
    if last.InProgress then
      if last.wait = .timer then
        r.calls = (retried ++ [last]).map Attempt.call ∧ r.returned = some ⟨-1, ETIMEDOUT⟩
      else
        r.calls = (retried ++ [last]).map Attempt.call ++ [so.call] ∧ r.returned = some so.status
    else r.calls = (retried ++ [last]).map Attempt.call ∧ r.returned = some last.call

/-- In no wait the call comes to does the timer's callback run. -/
def Undisturbed : List Attempt → Prop
  | [] => True
  | a :: rest => (a.WouldBlock → a.wait.fires = false) ∧ (a.Retried → Undisturbed rest)

/-- `connect_f` is not interrupted at first, and if it is in progress then, the timer's
callback does not run. -/
def ConnectUndisturbed (script : List Attempt) : Prop :=
  ∀ a ∈ script.head?, ¬ a.Interrupted ∧ (a.InProgress → a.wait.fires = false)

/-! ### `do_io` -/

section DoIo

variable {a : Attempt} {script rest : List Attempt} {r : IoRun}

theorem Attempt.Interrupted.not_wouldBlock (ha : a.Interrupted) : ¬ a.WouldBlock := by
  rintro ⟨-, herr⟩
  rw [ha.2] at herr
  cases herr

/-- A call whose wait the timer's callback ends is not made again. -/
theorem Attempt.not_retried_of_timer (ha : ¬ a.Interrupted) (hw : a.wait = .timer) :
    ¬ a.Retried := by
  rintro (h | ⟨-, late, h⟩)
  · exact ha h
  · rw [hw] at h
    cases h

/-- A call that is made again adds itself to the rest of the run. -/
theorem reports_retried (ha : a.Retried) {calls : List Ret} {timers timers' : List (BitVec 64)}
    {returned : Option Ret} : Reports (a :: rest) ⟨a.call :: calls, timers, returned⟩ ↔
      Reports rest ⟨calls, timers', returned⟩ := by
  constructor
  · rintro ⟨retried, last, rest', hscript, hretried, hlast, hcalls, hreturned⟩
    cases retried with
    | nil =>
        obtain ⟨rfl, -⟩ := List.cons.inj hscript
        exact absurd ha hlast
    | cons b retried =>
        obtain ⟨rfl, rfl⟩ := List.cons.inj hscript
        exact ⟨retried, last, rest', rfl, fun c hc => hretried c (by simp [hc]), hlast,
          (List.cons.inj hcalls).2, hreturned⟩
  · rintro ⟨retried, last, rest', rfl, hretried, hlast, hcalls, hreturned⟩
    refine ⟨a :: retried, last, rest', rfl, ?_, hlast, congrArg _ hcalls, hreturned⟩
    intro c hc
    rcases List.mem_cons.mp hc with rfl | hc
    · exact ha
    · exact hretried c hc

/-- A call that is not made again is the last one. -/
theorem reports_last (ha : ¬ a.Retried) :
    Reports (a :: rest) r ↔ r.calls = [a.call] ∧ r.returned = some a.verdict := by
  constructor
  · rintro ⟨retried, last, rest', hscript, hretried, hlast, hcalls, hreturned⟩
    cases retried with
    | nil =>
        obtain ⟨rfl, -⟩ := List.cons.inj hscript
        exact ⟨hcalls, hreturned⟩
    | cons b retried =>
        obtain ⟨rfl, -⟩ := List.cons.inj hscript
        exact absurd (hretried a (by simp)) ha
  · rintro ⟨hcalls, hreturned⟩
    exact ⟨[], a, rest, rfl, by simp, ha, hcalls, hreturned⟩

/-- After a call that is to be made again there is another one. -/
theorem not_reports_one (ha : a.Retried) {timers : List (BitVec 64)} {returned : Option Ret} :
    ¬ Reports (a :: rest) ⟨[a.call], timers, returned⟩ := by
  intro h
  have hrest : Reports rest ⟨[], timers, returned⟩ := (reports_retried ha).mp h
  obtain ⟨retried, last, rest', -, -, -, hcalls, -⟩ := hrest
  simp at hcalls

theorem await_quiet {ms : BitVec 64} {w : Wait} (hw : w.fires = false) (t : TimerInfo) :
    t.await ms w = t := by simp [TimerInfo.await, hw]

theorem await_fires {ms : BitVec 64} {w : Wait} (hms : ms ≠ -1) (hw : w.fires = true) :
    TimerInfo.await ⟨false⟩ ms w = ⟨true⟩ := by
  rw [TimerInfo.await, if_pos ⟨hms, hw⟩]
  rfl

/-- **`do_io`.** With a timeout, it reports what a caller expects exactly where the timer's
callback runs in no wait that it comes to. -/
theorem retry_reports_iff {ms : BitVec 64} (hms : ms ≠ -1) (hadd : AddEventSucceeds script)
    (hend : ∃ a ∈ script, ¬ a.Retried) :
    Reports script (retry ms ⟨false⟩ script) ↔ Undisturbed script := by
  induction script with
  | nil => simp at hend
  | cons a rest ih =>
      have hrest : AddEventSucceeds rest := fun b hb => hadd b (by simp [hb])
      have hend' : a.Retried → ∃ b ∈ rest, ¬ b.Retried := by
        intro ha
        obtain ⟨b, hb, hlast⟩ := hend
        rcases List.mem_cons.mp hb with rfl | hb
        · exact absurd ha hlast
        · exact ⟨b, hb, hlast⟩
      rw [retry, Undisturbed]
      by_cases hint : a.Interrupted
      · have ha : a.Retried := .inl hint
        rw [if_pos hint, reports_retried ha, ih hrest (hend' ha)]
        simp [hint.not_wouldBlock, ha]
      rw [if_neg hint]
      by_cases hblock : a.WouldBlock
      · rw [if_pos hblock]
        cases hw : a.wait with
        | addEventFailed errno => exact absurd hw (hadd a (by simp) errno)
        | ready late =>
            have ha : a.Retried := .inr ⟨hblock, late, hw⟩
            cases late with
            | false =>
                simp only [await_quiet (w := .ready false) rfl, Bool.false_eq_true, if_false]
                rw [reports_retried ha, ih hrest (hend' ha)]
                simp [Wait.fires, ha]
            | true =>
                simp only [await_fires hms (w := .ready true) rfl, if_true]
                simp [not_reports_one ha, hblock, Wait.fires]
        | timer =>
            have ha : ¬ a.Retried := Attempt.not_retried_of_timer hint hw
            simp only [await_fires hms (w := .timer) rfl, if_true]
            rw [reports_last ha, Attempt.verdict, if_pos ⟨hblock, hw⟩]
            simp [hblock, Wait.fires, ETIMEDOUT]
      · have ha : ¬ a.Retried := by
          rintro (h | ⟨h, -⟩)
          · exact hint h
          · exact hblock h
        rw [if_neg hblock, reports_last ha, Attempt.verdict, if_neg (by simp [hblock])]
        simp [hblock, ha]

end DoIo

/-! ### `connect_with_timeout` -/

section Connect

variable {a : Attempt} {script rest : List Attempt} {so : SoError} {r : IoRun}

/-- A first call that is not interrupted is the only one. -/
theorem connectReports_head (ha : ¬ a.Interrupted) : ConnectReports (a :: rest) so r ↔
    if a.InProgress then
      if a.wait = .timer then r.calls = [a.call] ∧ r.returned = some ⟨-1, ETIMEDOUT⟩
      else r.calls = [a.call, so.call] ∧ r.returned = some so.status
    else r.calls = [a.call] ∧ r.returned = some a.call := by
  constructor
  · rintro ⟨retried, last, rest', hscript, hretried, hlast, h⟩
    cases retried with
    | nil =>
        obtain ⟨rfl, -⟩ := List.cons.inj hscript
        exact h
    | cons b retried =>
        obtain ⟨rfl, -⟩ := List.cons.inj hscript
        exact absurd (hretried a (by simp)) ha
  · exact fun h => ⟨[], a, rest, rfl, by simp, ha, h⟩

/-- After an interrupted call there is another one. -/
theorem not_connectReports_one (ha : a.Interrupted) {timers : List (BitVec 64)}
    {returned : Option Ret} : ¬ ConnectReports (a :: rest) so ⟨[a.call], timers, returned⟩ := by
  rintro ⟨retried, last, rest', hscript, hretried, hlast, h⟩
  cases retried with
  | nil =>
      obtain ⟨rfl, -⟩ := List.cons.inj hscript
      exact hlast ha
  | cons b retried =>
      have hlen : ∀ calls : List Ret, calls.length = 1 →
          calls ≠ (b :: retried ++ [last]).map Attempt.call ∧
            calls ≠ (b :: retried ++ [last]).map Attempt.call ++ [so.call] := by
        intro calls hcalls
        constructor <;>
          · rintro rfl
            simp at hcalls
      obtain ⟨hcalls, hcalls'⟩ := hlen [a.call] rfl
      split_ifs at h
      · exact hcalls h.1
      · exact hcalls' h.1
      · exact hcalls h.1

/-- **`connect_with_timeout`.** With a timeout, it reports what a caller expects exactly
where its first call is not interrupted and the timer's callback does not run. -/
theorem connect_reports_iff {ctx : FdCtx} (hctx : ctx.Blocking) {ms : BitVec 64} (hms : ms ≠ -1)
    (hadd : AddEventSucceeds script) (hne : script ≠ []) :
    ConnectReports script so (connectWithTimeout true (some ctx) ms script so) ↔
      ConnectUndisturbed script := by
  obtain ⟨hclosed, hsocket, huser⟩ := hctx
  obtain ⟨a, rest, rfl⟩ := List.exists_cons_of_ne_nil hne
  simp only [connectWithTimeout, hclosed, hsocket, huser, Bool.not_true, Bool.false_eq_true,
    if_false, ConnectUndisturbed, List.head?_cons, Option.mem_some_iff, forall_eq']
  by_cases hint : a.Interrupted
  · have hn : a.call.n ≠ 0 := by
      rw [hint.1]
      decide
    have herr : a.call.errno ≠ EINPROGRESS := by
      rw [hint.2]
      decide
    rw [if_neg hn, if_pos (.inr herr)]
    simp [not_connectReports_one hint, hint]
  simp only [connectReports_head hint, hint, not_false_eq_true, true_and]
  by_cases hprog : a.InProgress
  · have hn : a.call.n ≠ 0 := by
      rw [hprog.1]
      decide
    have hstart : ¬ (a.call.n ≠ -1 ∨ a.call.errno ≠ EINPROGRESS) := by
      rw [hprog.1, hprog.2]
      simp
    rw [if_neg hn, if_neg hstart, if_pos hprog]
    cases hw : a.wait with
    | addEventFailed errno => exact absurd hw (hadd a (by simp) errno)
    | ready late =>
        cases late with
        | false =>
            simp only [await_quiet (w := .ready false) rfl]
            simp [Wait.fires]
        | true =>
            simp only [await_fires hms (w := .ready true) rfl]
            simp [hprog, Wait.fires]
    | timer =>
        simp only [await_fires hms (w := .timer) rfl]
        simp [hprog, Wait.fires, ETIMEDOUT]
  · rw [if_neg hprog]
    simp only [hprog, false_implies, iff_true]
    by_cases hn : a.call.n = 0
    · rw [if_pos hn, ← hn]
      exact ⟨rfl, rfl⟩
    · have hstart : a.call.n ≠ -1 ∨ a.call.errno ≠ EINPROGRESS := by
        by_contra h
        simp only [not_or, not_not] at h
        exact hprog h
      rw [if_neg hn, if_pos hstart]
      exact ⟨rfl, rfl⟩

end Connect

/-- **Timeouts.** On a blocking socket with a timeout, `do_io` and `connect_with_timeout`
report what a caller expects exactly where the timer's callback runs in no wait they come
to, and `connect_f` is not interrupted. -/
theorem timeouts_reported_iff {ctx : FdCtx} (hctx : ctx.Blocking) {timeout_so : ℤ}
    (hso : ctx.getTimeout timeout_so ≠ -1) {script : List Attempt}
    (hadd : AddEventSucceeds script) (hend : ∃ a ∈ script, ¬ a.Retried) {timeout_ms : BitVec 64}
    (hms : timeout_ms ≠ -1) {script' : List Attempt} (hadd' : AddEventSucceeds script')
    (hne : script' ≠ []) (so : SoError) :
    (Reports script (doIo true (some ctx) timeout_so script) ↔ Undisturbed script) ∧
      (ConnectReports script' so (connectWithTimeout true (some ctx) timeout_ms script' so) ↔
        ConnectUndisturbed script') := by
  refine ⟨?_, connect_reports_iff hctx hms hadd' hne⟩
  obtain ⟨hclosed, hsocket, huser⟩ := hctx
  simp only [doIo, hclosed, hsocket, huser, Bool.not_true, Bool.false_eq_true, if_false,
    Bool.or_self]
  exact retry_reports_iff hso hadd hend

/-- A socket whose receive timeout is 100 milliseconds. -/
def timed : FdCtx := ⟨true, true, true, false, false, 7, 100, -1⟩

/-- A receive that is interrupted, has to wait and is woken, and a connect that waits. -/
theorem timeouts_reported_woken :
    (Reports [⟨⟨-1, EINTR⟩, .timer⟩, ⟨⟨-1, EAGAIN⟩, .ready false⟩, ⟨⟨5, 0⟩, .timer⟩]
        (doIo true (some timed) SO_RCVTIMEO
          [⟨⟨-1, EINTR⟩, .timer⟩, ⟨⟨-1, EAGAIN⟩, .ready false⟩, ⟨⟨5, 0⟩, .timer⟩]) ↔
      Undisturbed [⟨⟨-1, EINTR⟩, .timer⟩, ⟨⟨-1, EAGAIN⟩, .ready false⟩, ⟨⟨5, 0⟩, .timer⟩]) ∧
    (ConnectReports [⟨⟨-1, EINPROGRESS⟩, .ready false⟩] ⟨⟨0, 0⟩, 111⟩
        (connectWithTimeout true (some timed) 5000 [⟨⟨-1, EINPROGRESS⟩, .ready false⟩]
          ⟨⟨0, 0⟩, 111⟩) ↔
      ConnectUndisturbed [⟨⟨-1, EINPROGRESS⟩, .ready false⟩]) := by
  refine timeouts_reported_iff (by decide) (by decide) ?_ ⟨⟨⟨5, 0⟩, .timer⟩, by simp, ?_⟩
    (by decide) ?_ (by decide) ⟨⟨0, 0⟩, 111⟩
  · simp [AddEventSucceeds]
  · rintro (h | ⟨h, -⟩)
    · exact absurd h (by decide)
    · exact absurd h (by decide)
  · simp [AddEventSucceeds]

/-- A receive and a connect whose waits the timer's callback ends: `errno` is one. -/
theorem timeouts_reported_false :
    (doIo true (some timed) SO_RCVTIMEO [⟨⟨-1, EAGAIN⟩, .timer⟩]).returned = some ⟨-1, 1⟩ ∧
      ¬ Reports [⟨⟨-1, EAGAIN⟩, .timer⟩]
          (doIo true (some timed) SO_RCVTIMEO [⟨⟨-1, EAGAIN⟩, .timer⟩]) ∧
      ¬ ConnectReports [⟨⟨-1, EINPROGRESS⟩, .timer⟩] ⟨⟨0, 0⟩, 0⟩
          (connectWithTimeout true (some timed) 5000 [⟨⟨-1, EINPROGRESS⟩, .timer⟩]
            ⟨⟨0, 0⟩, 0⟩) := by
  refine ⟨by decide, ?_, ?_⟩
  · rw [reports_last]
    · decide
    · rintro (h | ⟨-, late, h⟩)
      · exact absurd h (by decide)
      · cases h
  · rw [connectReports_head (by decide)]
    decide

end Easy.Base
