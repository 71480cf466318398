import Mathlib.Logic.Function.Basic
import Easy.Base.DoIo
import Easy.Base.Registrations

/-!
Fibers that wait in hooked calls (`do_io`, `connect_with_timeout` and `sleep` of
`easy/base/hook.cc`), on any number of threads.

A fiber waits for a registration in a channel, which `idle`, `cancelEvent` and `cancelAll`
empty into the scheduler, and for a condition timer, whose callback is scheduled when it
expires, looks at the `timer_info` it shares with the call, stores in it and cancels the
event. All of these are steps of their own. What runs between two of them touches nothing
that others look at.

There is one manager, whose tasks are the fibers that `take` may hand out; callbacks that
are tasks are timers in a later stage. `held` has a share of `pendingEventCount_` for each
descriptor. `YieldToHold` is one step: that a fiber is resumed before it is suspended is
another matter. The clock goes forward only, and times are in milliseconds and have no bound: what
becomes of timers when it is set back, or when a sum overflows, is in `EarlyFiring` and `TimerArm`.
-/

namespace Easy.Base

open Lib

/-! ### What is shared -/

/-- A timer is in `timers_`; its callback is scheduled; the callback has locked the
`timer_info` and found it not cancelled; it has stored in it; it is over, or cancelled. -/
inductive Stage
  | armed
  | queued
  | locked
  | stored
  | over
  deriving DecidableEq, Repr

/-- The callback of a timer: of a condition timer, with what it captures, or of `sleep`. -/
inductive OnTimer (φ : Type*)
  | cancel (info fd : ℕ) (event : Event)
  | schedule (fiber : φ)
  deriving DecidableEq

structure Alarm (φ : Type*) where
  cb : OnTimer φ
  expiration : ℕ
  stage : Stage
  deriving DecidableEq

/-- The sleeping fiber that a timer is to schedule. -/
def Alarm.sleeper {φ : Type*} (a : Alarm φ) : Option φ :=
  match a.cb, a.stage with
  | .schedule f, .armed | .schedule f, .queued => some f
  | _, _ => none

/-- A `timer_info` behind its `shared_ptr`s: that of the call, and those of callbacks. -/
structure InfoPtr where
  info : TimerInfo
  frame : Bool
  locks : ℕ
  deriving DecidableEq, Repr

/-- `winfo.lock()` -/
def InfoPtr.alive (p : InfoPtr) : Bool := p.frame || decide (0 < p.locks)

/-- The fiber that is registered, if it is no callback. -/
def Registration.fiber {σ φ κ : Type*} (r : Registration σ φ κ) : Option φ :=
  match r.work with
  | .fiber f => some f
  | .cb _ => none

/-! ### A fiber -/

/-- A call that may wait, its `timer_info`, and when it was made. -/
structure IoCall where
  connect : Bool
  fd : ℕ
  event : Event
  ms : BitVec 64
  info : ℕ
  began : ℕ
  deriving DecidableEq, Repr

/-- Where a call is. `r` is what the raw call returned, and `timer` the timer that was set. -/
inductive Phase
  | retry
  | blocked (r : Ret)
  | timed (r : Ret) (timer : Option ℕ)
  | refused (r : Ret) (timer : Option ℕ) (errno : ℤ)
  | added (r : Ret) (timer : Option ℕ)
  | suspended (r : Ret) (timer : Option ℕ)
  | woken (r : Ret) (timer : Option ℕ)
  | check (r : Ret) (timer : Option ℕ)
  deriving DecidableEq, Repr

/-- The timer of a phase. -/
def Phase.timer : Phase → Option ℕ
  | .retry | .blocked _ => none
  | .timed _ timer | .refused _ timer _ | .added _ timer | .suspended _ timer | .woken _ timer
  | .check _ timer => timer

/-- Where a fiber is. `script` has the attempts of a call that are over. -/
inductive FiberPc
  | fresh
  | spawned
  | user
  | io (c : IoCall) (script : List Attempt) (phase : Phase)
  | sleeping (timer : ℕ)
  | asleep (timer : ℕ)
  deriving DecidableEq, Repr

/-- A fiber that a worker resumes goes on. -/
def FiberPc.resumed : FiberPc → Option FiberPc
  | .spawned | .asleep _ => some .user
  | .io c script (.suspended r timer) => some (.io c script (.woken r timer))
  | _ => none

/-- `YieldToHold` -/
def FiberPc.yielded : FiberPc → Option FiberPc
  | .io c script (.added r timer) => some (.io c script (.suspended r timer))
  | .sleeping timer => some (.asleep timer)
  | _ => none

/-- What a call came to: its attempts, the status of the socket if it asked, and what it
returned. -/
structure Outcome where
  call : IoCall
  script : List Attempt
  so : SoError
  ret : Ret
  deriving DecidableEq, Repr

/-! ### The system -/

structure IoWaits (φ κ : Type*) where
  held : ℕ → Held Unit φ κ
  tasks : List φ
  alarms : ℕ → Option (Alarm φ)
  numAlarms : ℕ
  infos : ℕ → InfoPtr
  numInfos : ℕ
  now : ℕ
  pc : φ → FiberPc
  /-- The last call of each fiber. -/
  returned : φ → Option Outcome

namespace IoWaits

variable {φ κ : Type*} [DecidableEq φ] (s : IoWaits φ κ)

def start : IoWaits φ κ where
  held _ := ⟨.empty, .none, 0, []⟩
  tasks := []
  alarms _ := none
  numAlarms := 0
  infos _ := ⟨⟨false⟩, false, 0⟩
  numInfos := 0
  now := 0
  pc _ := .fresh
  returned _ := none

def goOn (f : φ) (p : FiberPc) : IoWaits φ κ := { s with pc := Function.update s.pc f p }

def setAlarm (t : ℕ) (a : Alarm φ) : IoWaits φ κ :=
  { s with alarms := Function.update s.alarms t (some a) }

def setInfo (k : ℕ) (p : InfoPtr) : IoWaits φ κ :=
  { s with infos := Function.update s.infos k p }

def schedule (fs : List φ) : IoWaits φ κ := { s with tasks := s.tasks ++ fs }

@[simp] theorem goOn_pc (f : φ) (p : FiberPc) : (s.goOn f p).pc = Function.update s.pc f p := rfl

@[simp] theorem goOn_infos (f : φ) (p : FiberPc) : (s.goOn f p).infos = s.infos := rfl

@[simp] theorem goOn_alarms (f : φ) (p : FiberPc) : (s.goOn f p).alarms = s.alarms := rfl

omit [DecidableEq φ] in
@[simp] theorem setAlarm_alarms (t : ℕ) (a : Alarm φ) :
    (s.setAlarm t a).alarms = Function.update s.alarms t (some a) := rfl

omit [DecidableEq φ] in
@[simp] theorem setInfo_infos (k : ℕ) (p : InfoPtr) :
    (s.setInfo k p).infos = Function.update s.infos k p := rfl

/-- The fibers among what a critical section schedules. -/
def fibersOf (l : List (Event × Unit × Work κ φ)) : List φ :=
  l.filterMap fun x => match x.2.2 with
    | .fiber f => some f
    | .cb _ => none

/-- A critical section of a channel, with its result. -/
def section_ (fd : ℕ) (op : Held.Op Unit φ κ) : Option (Bool × IoWaits φ κ) :=
  match op.exec { s.held fd with scheduled := [] } with
  | .error _ => none
  | .ok (r, h) =>
    some (r, { s with held := Function.update s.held fd { h with scheduled := [] } }.schedule
      (fibersOf h.scheduled))

/-- `addTimer` -/
def addTimer (ms : ℕ) (cb : OnTimer φ) : IoWaits φ κ :=
  { s.setAlarm s.numAlarms ⟨cb, s.now + ms, .armed⟩ with numAlarms := s.numAlarms + 1 }

/-- `timer->cancel()`, which does nothing once the timer has expired. -/
def cancelTimer : Option ℕ → IoWaits φ κ
  | none => s
  | some t =>
    match s.alarms t with
    | some a => if a.stage = .armed then s.setAlarm t { a with stage := .over } else s
    | none => s

omit [DecidableEq φ] in
@[simp] theorem cancelTimer_pc (timer : Option ℕ) : (s.cancelTimer timer).pc = s.pc := by
  unfold cancelTimer
  split
  · rfl
  · split
    · split <;> rfl
    · rfl

/-- A call returns, and its `timer_info` goes out of scope. -/
def leave (f : φ) (o : Outcome) : IoWaits φ κ :=
  { (s.goOn f .user).setInfo o.call.info { s.infos o.call.info with frame := false } with
    returned := Function.update s.returned f (some o) }

/-! #### Fibers -/

/-- A fiber is given to the scheduler for the first time. -/
def spawn (f : φ) : Option (IoWaits φ κ) :=
  match s.pc f with
  | .fresh => some ((s.goOn f .spawned).schedule [f])
  | _ => none

/-- A worker takes a fiber that does not run and resumes it. -/
def resume (f : φ) : Option (IoWaits φ κ) :=
  if f ∈ s.tasks then
    (s.pc f).resumed.map fun p => { s with tasks := s.tasks.erase f }.goOn f p
  else none

/-- The beginning of `do_io` or `connect_with_timeout` on a socket that may block. -/
def call (f : φ) (connect : Bool) (fd : ℕ) (event : Event) (ms : BitVec 64) :
    Option (IoWaits φ κ) :=
  match s.pc f with
  | .user =>
    let c := ⟨connect, fd, if connect then .write else event, ms, s.numInfos, s.now⟩
    some { (s.goOn f (.io c [] .retry)).setInfo s.numInfos ⟨⟨false⟩, true, 0⟩ with
      numInfos := s.numInfos + 1 }
  | _ => none

/-- The raw call, which returns `r`. -/
def raw (f : φ) (r : Ret) (so : SoError) : Option (IoWaits φ κ) :=
  match s.pc f with
  | .io c script .retry =>
    let a : Attempt := ⟨r, .ready false⟩
    if c.connect then
      if r.n = 0 then some (s.leave f ⟨c, [a], so, ⟨0, r.errno⟩⟩)
      else if a.InProgress then some (s.goOn f (.io c script (.blocked r)))
      else some (s.leave f ⟨c, [a], so, r⟩)
    else if a.Interrupted then some (s.goOn f (.io c (script ++ [a]) .retry))
    else if a.WouldBlock then some (s.goOn f (.io c script (.blocked r)))
    else some (s.leave f ⟨c, script ++ [a], so, r⟩)
  | _ => none

/-- `addConditionTimer`, if there is a timeout. -/
def arm (f : φ) : Option (IoWaits φ κ) :=
  match s.pc f with
  | .io c script (.blocked r) =>
    if c.ms ≠ -1 then
      some ((s.addTimer c.ms.toNat (.cancel c.info c.fd c.event)).goOn f
        (.io c script (.timed r (some s.numAlarms))))
    else some (s.goOn f (.io c script (.timed r none)))
  | _ => none

/-- `addEvent` of a call. -/
def addEvent (f : φ) (fails : Bool) (errno : ℤ) : Option (IoWaits φ κ) :=
  match s.pc f with
  | .io c script (.timed r timer) =>
    (s.section_ c.fd (.addEvent c.event none () f fails)).map fun p =>
      p.2.goOn f (.io c script (if p.1 then .added r timer else .refused r timer errno))
  | _ => none

/-- The end of a call whose `addEvent` has failed. -/
def refuse (f : φ) (so : SoError) : Option (IoWaits φ κ) :=
  match s.pc f with
  | .io c script (.refused r timer errno) =>
    some ((s.cancelTimer timer).leave f ⟨c, script ++ [⟨r, .addEventFailed errno⟩], so,
      if c.connect then so.status else ⟨-1, errno⟩⟩)
  | _ => none

/-- `YieldToHold` of a call, or of `sleep`. -/
def suspend (f : φ) : Option (IoWaits φ κ) := (s.pc f).yielded.map fun p => s.goOn f p

/-- `timer->cancel()` of a call that was woken. -/
def disarm (f : φ) : Option (IoWaits φ κ) :=
  match s.pc f with
  | .io c script (.woken r timer) =>
    some ((s.cancelTimer timer).goOn f (.io c script (.check r timer)))
  | _ => none

/-- `if (tinfo->cancelled)`, and what follows. -/
def check (f : φ) (so : SoError) : Option (IoWaits φ κ) :=
  match s.pc f with
  | .io c script (.check r _) =>
    let tinfo := (s.infos c.info).info
    if tinfo.cancelled then
      some (s.leave f ⟨c, script ++ [⟨r, .timer⟩], so, ⟨-1, tinfo.cancelled.toInt⟩⟩)
    else if c.connect then some (s.leave f ⟨c, script ++ [⟨r, .ready false⟩], so, so.status⟩)
    else some (s.goOn f (.io c (script ++ [⟨r, .ready false⟩]) .retry))
  | _ => none

/-- `sleep`, `usleep` and `nanosleep`, up to `YieldToHold`. -/
def sleep (f : φ) (ms : ℕ) : Option (IoWaits φ κ) :=
  match s.pc f with
  | .user => some ((s.addTimer ms (.schedule f)).goOn f (.sleeping s.numAlarms))
  | _ => none

/-! #### Timers -/

/-- `listExpiredCallback` and `schedule`, for one timer. -/
def expire (t : ℕ) : Option (IoWaits φ κ) :=
  match s.alarms t with
  | some a =>
    if a.stage = .armed ∧ a.expiration ≤ s.now then
      some (s.setAlarm t { a with stage := .queued })
    else none
  | none => none

/-- The beginning of a callback: `winfo.lock()` and the look at `cancelled`. That of
`sleep` is over with it. -/
def lock (t : ℕ) : Option (IoWaits φ κ) :=
  match s.alarms t with
  | some ⟨cb, expiration, .queued⟩ =>
    match cb with
    | .schedule f => some ((s.setAlarm t ⟨cb, expiration, .over⟩).schedule [f])
    | .cancel info _ _ =>
      let p := s.infos info
      if !p.alive || p.info.cancelled then some (s.setAlarm t ⟨cb, expiration, .over⟩)
      else
        some ((s.setAlarm t ⟨cb, expiration, .locked⟩).setInfo info { p with locks := p.locks + 1 })
  | _ => none

/-- `t->cancelled = ETIMEDOUT` -/
def store (t : ℕ) : Option (IoWaits φ κ) :=
  match s.alarms t with
  | some ⟨.cancel info fd event, expiration, .locked⟩ =>
    some ((s.setAlarm t ⟨.cancel info fd event, expiration, .stored⟩).setInfo info
      { s.infos info with info := ⟨decide (ETIMEDOUT ≠ 0)⟩ })
  | _ => none

/-- `iom->cancelEvent(fd, event)`, with the end of the callback. -/
def cancelEvent (t : ℕ) (fails : Bool) : Option (IoWaits φ κ) :=
  match s.alarms t with
  | some ⟨.cancel info fd event, expiration, .stored⟩ =>
    (s.section_ fd (.cancelEvent event fails)).map fun p =>
      (p.2.setAlarm t ⟨.cancel info fd event, expiration, .over⟩).setInfo info
        { s.infos info with locks := (s.infos info).locks - 1 }
  | _ => none

/-- Whose turn it is, with what the environment decides. `critical` is a section of a channel
that no waiting call and no timer is in: `idle` with a mask, `close`, the cancels and the
registrations of others. -/
inductive Turn (φ κ : Type*)
  | tick (ms : ℕ)
  | spawn (f : φ)
  | resume (f : φ)
  | call (f : φ) (connect : Bool) (fd : ℕ) (event : Event) (ms : BitVec 64)
  | raw (f : φ) (r : Ret) (so : SoError)
  | arm (f : φ)
  | addEvent (f : φ) (fails : Bool) (errno : ℤ)
  | refuse (f : φ) (so : SoError)
  | suspend (f : φ)
  | disarm (f : φ)
  | check (f : φ) (so : SoError)
  | sleep (f : φ) (ms : ℕ)
  | expire (t : ℕ)
  | lock (t : ℕ)
  | store (t : ℕ)
  | cancelEvent (t : ℕ) (fails : Bool)
  | critical (fd : ℕ) (op : Held.Op Unit φ κ)

def step : Turn φ κ → Option (IoWaits φ κ)
  | .tick ms => some { s with now := s.now + ms }
  | .spawn f => s.spawn f
  | .resume f => s.resume f
  | .call f connect fd event ms => s.call f connect fd event ms
  | .raw f r so => s.raw f r so
  | .arm f => s.arm f
  | .addEvent f fails errno => s.addEvent f fails errno
  | .refuse f so => s.refuse f so
  | .suspend f => s.suspend f
  | .disarm f => s.disarm f
  | .check f so => s.check f so
  | .sleep f ms => s.sleep f ms
  | .expire t => s.expire t
  | .lock t => s.lock t
  | .store t => s.store t
  | .cancelEvent t fails => s.cancelEvent t fails
  | .critical fd op => (s.section_ fd op).map Prod.snd

/-- All interleavings. -/
def lts : Lts (IoWaits φ κ) (Turn φ κ) where
  init s := s = start
  step := step

/-- Others register callbacks, and do not remove what a fiber has registered. -/
def Proper : Turn φ κ → Prop
  | .critical _ (.addEvent _ cb _ _ _) => cb.isSome
  | .critical fd (.removeEvent event _) =>
    ((s.held fd).channel.getEventCtx event).registration.bind Registration.fiber = none
  | _ => True

instance (l : Turn φ κ) : Decidable (s.Proper l) := by
  unfold Proper
  split <;> infer_instance

/-! ### What a turn does -/

section Cases

variable {s s' : IoWaits φ κ} {f : φ} {so : SoError} {t : ℕ} {fails : Bool}

theorem spawn_cases (hs : s.spawn f = some s') :
    s.pc f = .fresh ∧ s' = (s.goOn f .spawned).schedule [f] := by
  unfold spawn at hs
  split at hs
  · rename_i hf
    exact ⟨hf, (Option.some.inj hs).symm⟩
  · cases hs

theorem resume_cases (hs : s.resume f = some s') : f ∈ s.tasks ∧
    ∃ p, (s.pc f).resumed = some p ∧ s' = { s with tasks := s.tasks.erase f }.goOn f p := by
  unfold resume at hs
  split at hs
  · rename_i hmem
    obtain ⟨p, hp, hs⟩ := Option.map_eq_some_iff.mp hs
    exact ⟨hmem, p, hp, hs.symm⟩
  · cases hs

theorem raw_cases {r : Ret} (hs : s.raw f r so = some s') :
    ∃ c script, s.pc f = .io c script .retry ∧
      ((∃ o, s' = s.leave f o ∧ o.call = c ∧
          if c.connect then o.script = [⟨r, .ready false⟩] ∧
            (r.n = 0 ∧ o.ret = ⟨0, r.errno⟩ ∨
              r.n ≠ 0 ∧ (r.n ≠ -1 ∨ r.errno ≠ EINPROGRESS) ∧ o.ret = r)
          else o.script = script ++ [⟨r, .ready false⟩] ∧
            ¬ (⟨r, .ready false⟩ : Attempt).Interrupted ∧
            ¬ (⟨r, .ready false⟩ : Attempt).WouldBlock ∧ o.ret = r) ∨
        (s' = s.goOn f (.io c (script ++ [⟨r, .ready false⟩]) .retry) ∧ c.connect = false ∧
          (⟨r, .ready false⟩ : Attempt).Interrupted) ∨
        s' = s.goOn f (.io c script (.blocked r)) ∧
          if c.connect then r.n = -1 ∧ r.errno = EINPROGRESS
          else r.n = -1 ∧ r.errno = EAGAIN) := by
  unfold raw at hs
  split at hs
  · rename_i c script hf
    refine ⟨c, script, hf, ?_⟩
    cases hc : c.connect with
    | true =>
        simp only [hc, if_true] at hs ⊢
        split at hs
        · rename_i hn
          exact .inl ⟨_, (Option.some.inj hs).symm, rfl, rfl, .inl ⟨hn, rfl⟩⟩
        · rename_i hn
          split at hs
          · rename_i hp
            exact .inr (.inr ⟨(Option.some.inj hs).symm, hp⟩)
          · rename_i hp
            exact .inl ⟨_, (Option.some.inj hs).symm, rfl, rfl, .inr ⟨hn, not_and_or.mp hp, rfl⟩⟩
    | false =>
        simp only [hc, Bool.false_eq_true, if_false] at hs ⊢
        split at hs
        · rename_i hint
          exact .inr (.inl ⟨(Option.some.inj hs).symm, trivial, hint⟩)
        · rename_i hint
          split at hs
          · rename_i hblock
            exact .inr (.inr ⟨(Option.some.inj hs).symm, hblock⟩)
          · rename_i hblock
            exact .inl ⟨_, (Option.some.inj hs).symm, rfl, rfl, hint, hblock, rfl⟩
  · cases hs

theorem arm_cases (hs : s.arm f = some s') : ∃ c script r, s.pc f = .io c script (.blocked r) ∧
    (c.ms ≠ -1 ∧ s' = (s.addTimer c.ms.toNat (.cancel c.info c.fd c.event)).goOn f
        (.io c script (.timed r (some s.numAlarms))) ∨
      c.ms = -1 ∧ s' = s.goOn f (.io c script (.timed r none))) := by
  unfold arm at hs
  split at hs
  · rename_i c script r hf
    refine ⟨c, script, r, hf, ?_⟩
    split at hs
    · rename_i hms
      exact .inl ⟨hms, (Option.some.inj hs).symm⟩
    · rename_i hms
      exact .inr ⟨not_not.mp hms, (Option.some.inj hs).symm⟩
  · cases hs

theorem addEvent_cases {errno : ℤ} (hs : s.addEvent f fails errno = some s') :
    ∃ c script r timer added s₁, s.pc f = .io c script (.timed r timer) ∧
      s.section_ c.fd (.addEvent c.event none () f fails) = some (added, s₁) ∧
      s' = s₁.goOn f (.io c script (if added then .added r timer else .refused r timer errno)) := by
  unfold addEvent at hs
  split at hs
  · rename_i c script r timer hf
    obtain ⟨⟨added, s₁⟩, hsec, hs⟩ := Option.map_eq_some_iff.mp hs
    exact ⟨c, script, r, timer, added, s₁, hf, hsec, hs.symm⟩
  · cases hs

theorem refuse_cases (hs : s.refuse f so = some s') :
    ∃ c script r timer errno, s.pc f = .io c script (.refused r timer errno) ∧
      s' = (s.cancelTimer timer).leave f ⟨c, script ++ [⟨r, .addEventFailed errno⟩], so,
        if c.connect then so.status else ⟨-1, errno⟩⟩ := by
  unfold refuse at hs
  split at hs
  · rename_i c script r timer errno hf
    exact ⟨c, script, r, timer, errno, hf, (Option.some.inj hs).symm⟩
  · cases hs

theorem suspend_cases (hs : s.suspend f = some s') :
    ∃ p, (s.pc f).yielded = some p ∧ s' = s.goOn f p := by
  obtain ⟨p, hp, hs⟩ := Option.map_eq_some_iff.mp hs
  exact ⟨p, hp, hs.symm⟩

theorem disarm_cases (hs : s.disarm f = some s') :
    ∃ c script r timer, s.pc f = .io c script (.woken r timer) ∧
      s' = (s.cancelTimer timer).goOn f (.io c script (.check r timer)) := by
  unfold disarm at hs
  split at hs
  · rename_i c script r timer hf
    exact ⟨c, script, r, timer, hf, (Option.some.inj hs).symm⟩
  · cases hs

theorem check_cases (hs : s.check f so = some s') :
    ∃ c script r timer, s.pc f = .io c script (.check r timer) ∧
      ((s.infos c.info).info.cancelled = true ∧
          s' = s.leave f ⟨c, script ++ [⟨r, .timer⟩], so, ⟨-1, 1⟩⟩ ∨
        (s.infos c.info).info.cancelled = false ∧
          s' = if c.connect then s.leave f ⟨c, script ++ [⟨r, .ready false⟩], so, so.status⟩
            else s.goOn f (.io c (script ++ [⟨r, .ready false⟩]) .retry)) := by
  unfold check at hs
  split at hs
  · rename_i c script r timer hf
    refine ⟨c, script, r, timer, hf, ?_⟩
    cases hc : (s.infos c.info).info.cancelled with
    | true =>
        simp only [hc, if_true, Option.some.injEq] at hs
        exact .inl ⟨rfl, hs.symm⟩
    | false =>
        simp only [hc, Bool.false_eq_true, if_false] at hs
        refine .inr ⟨rfl, ?_⟩
        cases hconnect : c.connect <;> simp only [hconnect, Bool.false_eq_true, if_false, if_true,
          Option.some.injEq] at hs ⊢ <;> exact hs.symm
  · cases hs

theorem sleep_cases {ms : ℕ} (hs : s.sleep f ms = some s') :
    s.pc f = .user ∧ s' = (s.addTimer ms (.schedule f)).goOn f (.sleeping s.numAlarms) := by
  unfold sleep at hs
  split at hs
  · rename_i hf
    exact ⟨hf, (Option.some.inj hs).symm⟩
  · cases hs

section Timers

omit [DecidableEq φ]

theorem expire_cases (hs : s.expire t = some s') : ∃ a, s.alarms t = some a ∧
    a.stage = .armed ∧ a.expiration ≤ s.now ∧ s' = s.setAlarm t { a with stage := .queued } := by
  unfold expire at hs
  split at hs
  · rename_i a ha
    split at hs
    · rename_i hdue
      exact ⟨a, ha, hdue.1, hdue.2, (Option.some.inj hs).symm⟩
    · cases hs
  · cases hs

theorem lock_cases (hs : s.lock t = some s') : ∃ cb e, s.alarms t = some ⟨cb, e, .queued⟩ ∧
    ((∃ f, cb = .schedule f ∧ s' = (s.setAlarm t ⟨cb, e, .over⟩).schedule [f]) ∨
      ∃ k fd event, cb = .cancel k fd event ∧
        (((s.infos k).alive = false ∨ (s.infos k).info.cancelled = true) ∧
            s' = s.setAlarm t ⟨cb, e, .over⟩ ∨
          (s.infos k).alive = true ∧ (s.infos k).info.cancelled = false ∧
            s' = (s.setAlarm t ⟨cb, e, .locked⟩).setInfo k
              { s.infos k with locks := (s.infos k).locks + 1 })) := by
  unfold lock at hs
  split at hs
  · rename_i cb e ha
    refine ⟨cb, e, ha, ?_⟩
    cases cb with
    | schedule f => exact .inl ⟨f, rfl, (Option.some.inj hs).symm⟩
    | cancel k fd event =>
        refine .inr ⟨k, fd, event, rfl, ?_⟩
        dsimp only at hs
        split at hs
        · rename_i hstop
          exact .inl ⟨by simpa using hstop, (Option.some.inj hs).symm⟩
        · rename_i hgo
          simp only [Bool.or_eq_true, Bool.not_eq_true', not_or, Bool.not_eq_false,
            Bool.not_eq_true] at hgo
          exact .inr ⟨hgo.1, hgo.2, (Option.some.inj hs).symm⟩
  · cases hs

theorem store_cases (hs : s.store t = some s') :
    ∃ k fd event e, s.alarms t = some ⟨.cancel k fd event, e, .locked⟩ ∧
      s' = (s.setAlarm t ⟨.cancel k fd event, e, .stored⟩).setInfo k
        { s.infos k with info := ⟨true⟩ } := by
  unfold store at hs
  split at hs
  · rename_i k fd event e ha
    exact ⟨k, fd, event, e, ha, (Option.some.inj hs).symm⟩
  · cases hs

theorem cancelEvent_cases (hs : s.cancelEvent t fails = some s') :
    ∃ k fd event e r s₁, s.alarms t = some ⟨.cancel k fd event, e, .stored⟩ ∧
      s.section_ fd (.cancelEvent event fails) = some (r, s₁) ∧
      s' = (s₁.setAlarm t ⟨.cancel k fd event, e, .over⟩).setInfo k
        { s.infos k with locks := (s.infos k).locks - 1 } := by
  unfold cancelEvent at hs
  split at hs
  · rename_i k fd event e ha
    obtain ⟨⟨r, s₁⟩, hsec, hs⟩ := Option.map_eq_some_iff.mp hs
    exact ⟨k, fd, event, e, r, s₁, ha, hsec, hs.symm⟩
  · cases hs

/-- A critical section touches a channel and the tasks. -/
theorem section_cases {fd : ℕ} {op : Held.Op Unit φ κ} {r : Bool}
    (hs : s.section_ fd op = some (r, s')) :
    ∃ h, op.exec { s.held fd with scheduled := [] } = .ok (r, h) ∧
      s' = { s with
        held := Function.update s.held fd { h with scheduled := [] }
        tasks := s.tasks ++ fibersOf h.scheduled } := by
  unfold section_ at hs
  split at hs
  · cases hs
  · rename_i r' h hexec
    obtain ⟨rfl, rfl⟩ := Prod.mk.inj (Option.some.inj hs)
    exact ⟨h, hexec, rfl⟩

end Timers

end Cases

end IoWaits

end Easy.Base
