import Easy.Base.Scheduler
import Easy.Lib.Threads

/-!
The threads of a `Scheduler`: `run` and `stop` of `easy/base/Scheduler.cc`,
`idle`, `canStop` and `weakup` of `easy/base/IOManager.cc`, and the parts of
`easy/base/Fiber.cc` they switch fibers with.

A thread is at a `Loc`, a place between two accesses to what threads share, or
in a call of `weakup` that returns there: an action goes from one place to the
next and makes one such access. A critical
section of `lock_`, an operation on an atomic counter, a read or a store of the
state word of a fiber, a `swapcontext` and a system call on the wake pipe are
each one access. With `io` the scheduler is an `IOManager`; without it, it is the
base class, whose `weakup` does nothing and whose `idle` yields instead of
waiting.

What runs in a fiber, or on a thread outside the pool, is any sequence of calls of
the scheduler. Of `timers_` and of the channels only what `canStop` reads is
shared: how many timers there are, and `pendingEventCount_`. Whatever code on the
workers does to them is an arbitrary change of these two numbers.

A fiber can be scheduled by whoever was given its pointer, which it hands out
itself, or whoever made it; `handed` is the pointers that are out. The fiber
that `idle` runs in is never handed out, and its state word is part of the
place its worker is at. An assertion that fails ends the run.
-/

namespace Easy.Base

open Lib

/-- A scheduler: `io` for an `IOManager`, the threads `start` made, and the
thread of `callerFiber_` if there is one. -/
structure PoolConfig (ι : Type*) where
  io : Bool
  threads : List ι
  caller : Option ι
  workers : threads ≠ [] ∨ caller.isSome

/-- What threads share. `handled` and `skipped` are the tasks that have been
passed through `handleFiber`, and those whose fiber had finished. -/
structure Shared (ι : Type*) where
  running : Bool
  tasks : List (Task ι)
  nextTask : ℕ
  state : ℕ → FiberState
  nextFiber : ℕ
  handed : List ℕ
  activeThreadNums : ℤ
  idleThreadNums : ℤ
  pipe : ℕ
  timers : ℕ
  pendingEventCount : ℤ
  exited : List ι
  handled : List ℕ
  skipped : List ℕ

/-- The reads of `IOManager::canStop`, the last of which is
`Scheduler::canStop`. -/
inductive CanStop
  | timers
  | pending
  | sched
  deriving DecidableEq, Repr

/-- The descriptors `epoll_wait` reports: the wake pipe, the timer, a channel. -/
inductive Ready
  | weakup
  | timerfd
  | channel
  deriving DecidableEq, Repr

/-- The places of the code. `t` is the number of the task a worker runs and `f`
its fiber. -/
inductive Loc (ι : Type*)
  -- code that is not the scheduler's
  | outside
  -- `run`, with the task in hand
  | top
  | taken (task : Task ι)
  | prepared (t f : ℕ)
  | unfinished (t f : ℕ)
  -- between the two updates of `activeThreadNums_`
  | counted (t f : ℕ)
  | asserted (t f : ℕ)
  | exec (t f : ℕ)
  | stored (t f : ℕ)
  | switched (t f : ℕ)
  | settling (t f : ℕ) (state : FiberState)
  | handled
  -- `take` has returned null
  | null
  -- between the two updates of `idleThreadNums_`
  | check (stage : CanStop)
  | parked
  | waiting
  | events (es : List Ready)
  | expired (cbs : List (Option ℕ)) (es : List Ready)
  | leaving
  | finishing
  -- `idle` has finished
  | last
  | left (o : Option (Task ι))
  -- `stop`
  | stopLoop (k : ℕ)
  | stopCheck (early : Bool) (stage : CanStop)
  | join
  | returned
  deriving DecidableEq

/-- The accesses of `weakup`: the read of `idleThreadNums_`, and the write of a
byte to the wake pipe. -/
inductive Weakup
  | read
  | write
  deriving DecidableEq, Repr

/-- Where a thread is: at a place, or in a call of `weakup` that returns there. -/
structure Pc (ι : Type*) where
  loc : Loc ι
  weakup : Option Weakup
  deriving DecidableEq

def Pc.to {ι : Type*} (l : Loc ι) : Pc ι := ⟨l, none⟩

/-- What a thread does next, where its code leaves a choice; `step` is its only
next access. -/
inductive Act (ι : Type*)
  | step
  | schedule (items : List (Item ι))
  | newFiber
  | handOver
  | addTimer
  | account (timers : ℕ) (pending : ℤ)
  | yieldToHold
  | schedYield
  | finish (except : Bool)
  | wake (es : List Ready)
  | expire (timers : ℕ) (cbs : List (Option ℕ))
  | stop
  deriving DecidableEq

variable {ι : Type*} [DecidableEq ι]

namespace Shared

/-- `Scheduler::canStop` -/
def canStop (g : Shared ι) : Bool := !g.running && g.tasks.isEmpty && g.activeThreadNums = 0

/-- `schedule`, up to the end of its critical section. -/
def push (g : Shared ι) (items : List (Item ι)) : Bool × Shared ι :=
  let (need, q) := (Queue.mk g.tasks g.nextTask).scheduleRange false items
  (need, { g with tasks := q.tasks, nextTask := q.nextTask })

def store (g : Shared ι) (f : ℕ) (s : FiberState) : Shared ι :=
  { g with state := Function.update g.state f s }

/-- The pointers that are out after those of `items` have been given to
`schedule`; `none` if one of them was not. -/
def release : List ℕ → List (Item ι) → Option (List ℕ)
  | handed, [] => some handed
  | handed, ⟨some (.fiber f), _⟩ :: items =>
    if f ∈ handed then release (handed.erase f) items else none
  | handed, _ :: items => release handed items

end Shared

/-- One read of `canStop`: the next one, or the result. -/
def CanStop.eval (g : Shared ι) : CanStop → CanStop ⊕ Bool
  | .timers => if g.timers ≠ 0 then .inr false else .inl .pending
  | .pending => if g.pendingEventCount ≠ 0 then .inr false else .inl .sched
  | .sched => .inr g.canStop

namespace PoolConfig

variable (c : PoolConfig ι)

/-- Where `canStop` begins. -/
def canStop : CanStop := if c.io then .timers else .sched

/-- A call of `weakup`, or none, on the way to `k`. -/
def weakup (need_weakup : Bool) (k : Loc ι) : Pc ι :=
  ⟨k, if need_weakup && c.io then some .read else none⟩

/-- A call of `schedule` by code that goes on at `k`. -/
def schedule (g : Shared ι) (items : List (Item ι)) (k : Loc ι) : Option (Shared ι × Pc ι) :=
  (Shared.release g.handed items).map fun handed =>
    let (need_weakup, g) := { g with handed := handed }.push items
    (g, c.weakup need_weakup k)

/-- The call of `schedule` on the callbacks of `listExpiredCallback`. -/
def items (cbs : List (Option ℕ)) : List (Item ι) := cbs.map fun cb => ⟨cb.map .cb, none⟩

/-- `take` on thread `i`, which goes on at `k`. -/
def takeTask (i : ι) (g : Shared ι) (k : Option (Task ι) → Loc ι) :
    Option (Shared ι × Pc ι) :=
  match take g.state i g.tasks with
  | .ok (r, rest) => some ({ g with tasks := rest }, .to (k r))
  | .error _ => none

/-- What thread `i` does at a place, for each choice. -/
def locAct (i : ι) (g : Shared ι) : Loc ι → Act ι → Option (Shared ι × Pc ι)
  -- other code
  | .outside, .schedule items => c.schedule g items .outside
  | .outside, .newFiber =>
    some ({ g with nextFiber := g.nextFiber + 1, handed := g.handed ++ [g.nextFiber] },
      .to .outside)
  | .outside, .addTimer => some ({ g with timers := g.timers + 1 }, .to .outside)
  | .outside, .stop =>
    if g.running ∧ i ∉ c.threads ∧ (c.caller = none ∨ c.caller = some i) then
      -- only one use_caller thread; its fiber is in the state `INIT`
      some ({ g with running := false },
        if c.caller.isSome ∧ c.threads = [] then .to (.stopCheck true c.canStop)
        else .to (.stopLoop c.threads.length))
    else none
  -- `run`
  | .top, .step => takeTask i g fun
    | some task => .taken task
    | none => .null
  | .taken task, .step =>
    match task.cb, task.fiber with
    | some _, some _ => none
    | some _, none =>
      some ({ g with nextFiber := g.nextFiber + 1 }, .to (.prepared task.id g.nextFiber))
    | none, some f => some (g, .to (.prepared task.id f))
    | none, none => some (g, .to .top)
  | .prepared t f, .step =>
    if (g.state f).finish then some ({ g with skipped := g.skipped ++ [t] }, .to .top)
    else some (g, .to (.unfinished t f))
  | .unfinished t f, .step =>
    some ({ g with activeThreadNums := g.activeThreadNums + 1 }, .to (.counted t f))
  -- `handleFiber`, which begins with `sched_resume`
  | .counted t f, .step =>
    if g.state f = .init ∨ g.state f = .ready ∨ g.state f = .hold then
      some (g, .to (.asserted t f))
    else none
  | .asserted t f, .step => some (g.store f .exec, .to (.exec t f))
  | .exec t f, .schedule items => c.schedule g items (.exec t f)
  | .exec t f, .newFiber =>
    some ({ g with nextFiber := g.nextFiber + 1, handed := g.handed ++ [g.nextFiber] },
      .to (.exec t f))
  | .exec t f, .handOver => some ({ g with handed := g.handed ++ [f] }, .to (.exec t f))
  | .exec t f, .account timers pending =>
    some ({ g with timers := timers, pendingEventCount := pending }, .to (.exec t f))
  | .exec t f, .yieldToHold => some (g.store f .hold, .to (.stored t f))
  | .exec t f, .schedYield => some (g, .to (.stored t f))
  | .exec t f, .finish except =>
    some (g.store f (if except then .except else .term), .to (.stored t f))
  | .stored t f, .step => some (g, .to (.switched t f))
  | .switched t f, .step => some (g, .to (.settling t f (g.state f)))
  | .settling t f state, .step =>
    let g' := { g with handled := g.handled ++ [t] }
    match state with
    | .init | .exec | .hold => some (g'.store f .hold, .to .handled)
    | .ready =>
      let (need_weakup, g') := g'.push [⟨some (.fiber f), none⟩]
      some (g', c.weakup need_weakup .handled)
    | .term | .except => some (g', .to .handled)
  | .handled, .step => some ({ g with activeThreadNums := g.activeThreadNums - 1 }, .to .top)
  | .null, .step =>
    some ({ g with idleThreadNums := g.idleThreadNums + 1 }, .to (.check c.canStop))
  -- `idle`
  | .check stage, .step =>
    match stage.eval g with
    | .inl stage => some (g, .to (.check stage))
    | .inr true => some (g, .to .finishing)
    | .inr false => some (g, if c.io then .to .parked else .to .leaving)
  | .parked, .step => some (g, .to .waiting)
  | .waiting, .wake es =>
    if es ≠ [] ∧ (.weakup ∈ es → 0 < g.pipe) then some (g, .to (.events es)) else none
  | .events [], .step => some (g, .to .leaving)
  | .events (.weakup :: es), .step => some ({ g with pipe := 0 }, .to (.events es))
  | .events (.timerfd :: es), .expire timers cbs =>
    some ({ g with timers := timers }, .to (.expired cbs es))
  | .expired cbs es, .step =>
    if cbs = [] then some (g, .to (.events es))
    else
      let (need_weakup, g) := g.push (items cbs)
      some (g, c.weakup need_weakup (.events es))
  | .events (.channel :: es), .schedule items => c.schedule g items (.events (.channel :: es))
  | .events (.channel :: es), .account timers pending =>
    some ({ g with timers := timers, pendingEventCount := pending },
      .to (.events (.channel :: es)))
  | .events (.channel :: es), .step => some (g, .to (.events es))
  | .leaving, .step => some ({ g with idleThreadNums := g.idleThreadNums - 1 }, .to .top)
  | .finishing, .step => some ({ g with idleThreadNums := g.idleThreadNums - 1 }, .to .last)
  | .last, .step => takeTask i g .left
  | .left _, .step =>
    if c.caller = some i then some (g, .to .join)
    else some ({ g with exited := g.exited ++ [i] }, .to .returned)
  -- `stop`
  | .stopLoop (k + 1), .step => some (g, c.weakup true (.stopLoop k))
  | .stopLoop 0, .step =>
    some (g, if c.caller.isNone then .to .join else c.weakup true (.stopCheck false c.canStop))
  | .stopCheck early stage, .step =>
    match stage.eval g with
    | .inl stage => some (g, .to (.stopCheck early stage))
    | .inr true => some (g, if early then .to .returned else .to .join)
    | .inr false => some (g, if early then .to (.stopLoop c.threads.length) else .to .top)
  | .join, .step => if ∀ j ∈ c.threads, j ∈ g.exited then some (g, .to .returned) else none
  | _, _ => none

/-- An action of thread `i`. -/
def act (i : ι) (g : Shared ι) (p : Pc ι) (a : Act ι) : Option (Shared ι × Pc ι) :=
  match p.weakup, a with
  | none, a => c.locAct i g p.loc a
  | some .read, .step =>
    some (g, ⟨p.loc, if 0 < g.idleThreadNums then some .write else none⟩)
  | some .write, .step => some ({ g with pipe := g.pipe + 1 }, .to p.loc)
  | _, _ => none

/-- What `start` leaves to be shared, and where it leaves each thread. -/
def started : Shared ι := ⟨true, [], 0, fun _ => .init, 0, [], 0, 0, 0, 0, 0, [], [], []⟩

def startPc (i : ι) : Pc ι := if i ∈ c.threads then .to .top else .to .outside

/-- All interleavings, from the end of `start`. -/
def pool : Threads ι (Shared ι) (Pc ι) (Act ι) where
  init g pc := g = started ∧ pc = c.startPc
  act := c.act

/-- The state all runs begin in. -/
def start : Threads.State ι (Shared ι) (Pc ι) := ⟨started, c.startPc⟩

theorem startPc_eq (i : ι) : c.startPc i = .to .top ∨ c.startPc i = .to .outside := by
  unfold startPc
  split
  · exact .inl rfl
  · exact .inr rfl

variable {c}

theorem reachable_start : c.pool.lts.Reachable c.start := .init ⟨rfl, rfl⟩

end PoolConfig

end Easy.Base
