import Easy.Base.Scheduler
import Easy.Lib.Lts
import Mathlib.Logic.Function.Basic

/-!
The fibers of `easy/base/Fiber.cc` and the threads that switch between them:
`sched_resume`, `sched_yield`, `resume`, `yield`, `reset`, `GetThis`,
`YieldToHold` and `MainFunc`, with the constructors and the destructor, and what
`easy/base/Scheduler.cc` does with fibers: the constructor with `use_caller`, the
beginning of `run`, and `handleFiber`.

A `ucontext_t` is a place in some code together with the stack the code runs on,
and so is what a thread executes; `swapcontext` stores the one and loads the other.
Nothing ties the context of a fiber object to the stack of that fiber, or
`t_running_fiber` to the stack in use: which of them agree is what there is to prove.
The stack a thread was born with is that of its root fiber, made by the
first `GetThis`.

A step is one call, up to the point where the thread goes on in code that is not
modelled here. That code is arbitrary, and so is the number of the place at which it
goes on. Calls are atomic, also those of different threads. An assertion that
fails, or a null pointer that is followed, ends the run. Callbacks are named
by numbers, a new one each time one is given to a fiber.
-/

namespace Easy.Base

/-- A pointer to a fiber: the root fiber of a thread, or the one with this `id_`. -/
inductive FiberPtr (ι : Type*)
  | root (i : ι)
  | sub (id : ℕ)
  deriving DecidableEq

/-- A place in the code. -/
inductive Point (ι : Type*)
  | mainFunc
  | code (pc : ℕ)
  -- behind the switch in `handleFiber`, which was called by the code at `pc`
  | handleFiber (fiber : FiberPtr ι) (pc : ℕ)
  -- behind the last switch of `MainFunc`
  | ended
  deriving DecidableEq

/-- `ucontext_t` -/
structure Context (ι : Type*) where
  owner : FiberPtr ι
  point : Point ι
  deriving DecidableEq

/-- `Fiber`, with the local `cur` of the `MainFunc` on its stack. -/
structure Fiber (ι : Type*) where
  state : FiberState
  stack : Bool
  cb : Option ℕ
  ctx : Context ι
  cur : Option (FiberPtr ι)
  deriving DecidableEq

/-- The variables of a thread: `t_running_fiber`, whether `t_root_fiber` and
`t_scheduler` are set, `t_scheduler_fiber`, and what the thread executes. -/
structure FiberThread (ι : Type*) where
  running : Option (FiberPtr ι)
  root : Bool
  scheduler : Bool
  schedulerFiber : Option (FiberPtr ι)
  cpu : Context ι
  deriving DecidableEq

/-- The fibers and the threads. `called` is the callbacks that `MainFunc` has called. -/
structure FiberMachine (ι : Type*) where
  numsCreated : ℕ
  fibers : FiberPtr ι → Option (Fiber ι)
  threads : ι → FiberThread ι
  nextCb : ℕ
  called : List ℕ

/-- The calls code can make. `enter` is the beginning of `MainFunc`, and
`finish` the return of the callback, or its exception. -/
inductive FiberCall (ι : Type*)
  | getThis
  | newFiber (cb : Bool)
  | reset (fiber : FiberPtr ι) (cb : Bool)
  | free (id : ℕ)
  | resume (fiber : FiberPtr ι)
  | yield (fiber : FiberPtr ι)
  | schedYield (fiber : FiberPtr ι)
  | yieldToHold
  | enter
  | finish (except : Bool)
  | useCaller
  | run (caller : Bool)
  | handleFiber (fiber : FiberPtr ι)
  | dropScheduler
  deriving DecidableEq

namespace FiberMachine

variable {ι : Type*} [DecidableEq ι]

def setThread (m : FiberMachine ι) (i : ι) (t : FiberThread ι) : FiberMachine ι :=
  { m with threads := Function.update m.threads i t }

def setFiber (m : FiberMachine ι) (f : FiberPtr ι) (x : Option (Fiber ι)) : FiberMachine ι :=
  { m with fibers := Function.update m.fibers f x }

/-- `Fiber::SetThis` -/
def setThis (m : FiberMachine ι) (i : ι) (co : FiberPtr ι) : FiberMachine ι :=
  m.setThread i { m.threads i with running := some co }

/-- The thread goes on in other code. -/
def goOn (m : FiberMachine ι) (i : ι) (p : Point ι) : FiberMachine ι :=
  m.setThread i { m.threads i with cpu := ⟨(m.threads i).cpu.owner, p⟩ }

def store (m : FiberMachine ι) (f : FiberPtr ι) (s : FiberState) : Option (FiberMachine ι) :=
  (m.fibers f).map fun x => m.setFiber f (some { x with state := s })

/-- The switch of `handleFiber` on the state of its fiber. -/
def settle (m : FiberMachine ι) (f : FiberPtr ι) : Option (FiberMachine ι) :=
  (m.fibers f).bind fun x =>
    match x.state with
    | .init | .exec | .hold => m.store f .hold
    -- `schedule`, which touches no fiber
    | .ready => some m
    | .term | .except => some m

/-- The end of `handleFiber`, if that is where the thread has arrived. -/
def land (m : FiberMachine ι) (i : ι) : Option (FiberMachine ι) :=
  match (m.threads i).cpu.point with
  | .handleFiber f pc => (m.settle f).map fun m => m.goOn i (.code pc)
  | _ => some m

/-- `swapcontext` on thread `i`, whose code is at `here` when it is loaded again. -/
def swapcontext (m : FiberMachine ι) (i : ι) (oucp ucp : FiberPtr ι) (here : Point ι) :
    Option (FiberMachine ι) :=
  (m.fibers oucp).bind fun x =>
    let m := m.setFiber oucp (some { x with ctx := ⟨(m.threads i).cpu.owner, here⟩ })
    (m.fibers ucp).bind fun y => (m.setThread i { m.threads i with cpu := y.ctx }).land i

/-- The assertion of `sched_resume` and of `resume`. -/
def Resumable (s : FiberState) : Prop := s = .init ∨ s = .ready ∨ s = .hold

instance (s : FiberState) : Decidable (Resumable s) := inferInstanceAs (Decidable (_ ∨ _))

/-- `Fiber::sched_resume` -/
def schedResume (m : FiberMachine ι) (i : ι) (f : FiberPtr ι) (here : Point ι) :
    Option (FiberMachine ι) :=
  (m.fibers f).bind fun x =>
    if Resumable x.state then
      ((m.setThis i f).store f .exec).bind fun m =>
        (m.threads i).schedulerFiber.bind fun s => m.swapcontext i s f here
    else none

/-- `Fiber::sched_yield` -/
def schedYield (m : FiberMachine ι) (i : ι) (f : FiberPtr ι) (here : Point ι) :
    Option (FiberMachine ι) :=
  (m.threads i).schedulerFiber.bind fun s => (m.setThis i s).swapcontext i f s here

/-- `Fiber::resume` -/
def resume (m : FiberMachine ι) (i : ι) (f : FiberPtr ι) (here : Point ι) :
    Option (FiberMachine ι) :=
  if (m.threads i).root then
    (m.fibers f).bind fun x =>
      if Resumable x.state then
        ((m.setThis i f).store f .exec).bind fun m => m.swapcontext i (.root i) f here
      else none
  else none

/-- `Fiber::yield` -/
def yield (m : FiberMachine ι) (i : ι) (f : FiberPtr ι) (here : Point ι) :
    Option (FiberMachine ι) :=
  if (m.threads i).root then (m.setThis i (.root i)).swapcontext i f (.root i) here else none

/-- A function given to a fiber; without `cb` an empty one. -/
def givenCb (m : FiberMachine ι) (cb : Bool) : Option ℕ := if cb then some m.nextCb else none

/-- `Fiber::reset` -/
def reset (m : FiberMachine ι) (f : FiberPtr ι) (cb : Bool) : Option (FiberMachine ι) :=
  (m.fibers f).bind fun x =>
    if x.stack then
      some { m.setFiber f (some ⟨.init, true, m.givenCb cb, ⟨f, .mainFunc⟩, none⟩) with
        nextCb := m.nextCb + 1 }
    else none

/-- `NewFiber(cb)`, with a stack size other than zero. -/
def newFiber (m : FiberMachine ι) (cb : Bool) : FiberMachine ι :=
  let f := .sub (m.numsCreated + 1)
  { m.setFiber f (some ⟨.init, true, m.givenCb cb, ⟨f, .mainFunc⟩, none⟩) with
    numsCreated := m.numsCreated + 1
    nextCb := m.nextCb + 1 }

/-- `FreeFiber` on a fiber with a stack. -/
def free (m : FiberMachine ι) (id : ℕ) : Option (FiberMachine ι) :=
  (m.fibers (.sub id)).bind fun x =>
    if x.state = .init ∨ x.state = .term ∨ x.state = .except then
      some (m.setFiber (.sub id) none)
    else none

/-- `Fiber::GetThis`. The root fiber it makes has no stack of its own. -/
def getThis (m : FiberMachine ι) (i : ι) : FiberMachine ι :=
  if (m.threads i).running.isSome then m
  else
    let m := m.setThread i { m.threads i with running := some (.root i), root := true }
    m.setFiber (.root i) (some ⟨.exec, false, none, (m.threads i).cpu, none⟩)

/-- Where `YieldToHold` and `MainFunc` leave fiber `f`. -/
def leave (m : FiberMachine ι) (i : ι) (f : FiberPtr ι) (here : Point ι) :
    Option (FiberMachine ι) :=
  if (m.threads i).scheduler ∧ (m.threads i).schedulerFiber ≠ (m.threads i).running then
    m.schedYield i f here
  else m.yield i f here

/-- `Fiber::YieldToHold` -/
def yieldToHold (m : FiberMachine ι) (i : ι) (here : Point ι) : Option (FiberMachine ι) :=
  ((m.getThis i).threads i).running.bind fun cur =>
    ((m.getThis i).store cur .hold).bind fun m => m.leave i cur here

/-- The end of `Fiber::MainFunc`, from the return of `cb_` on. -/
def finish (m : FiberMachine ι) (i : ι) (except : Bool) : Option (FiberMachine ι) :=
  (m.fibers (m.threads i).cpu.owner).bind fun o => o.cur.bind fun cur =>
    (m.fibers cur).bind fun x =>
      (m.setFiber cur (some (if except then { x with state := .except }
        else { x with cb := none, state := .term }))).leave i cur .ended

/-- The beginning of `Fiber::MainFunc`, with the call of `cb_`. An empty function
throws. -/
def enter (m : FiberMachine ι) (i : ι) (pc : ℕ) : Option (FiberMachine ι) :=
  ((m.getThis i).threads i).running.bind fun cur =>
    let m := m.getThis i
    let owner := (m.threads i).cpu.owner
    (m.fibers owner).bind fun o =>
      let m := m.setFiber owner (some { o with cur := some cur })
      (m.fibers cur).bind fun x =>
        match x.cb with
        | some k => some ({ m with called := m.called ++ [k] }.goOn i (.code pc))
        | none => m.finish i true

/-- `Scheduler::Scheduler` with `use_caller`. -/
def useCaller (m : FiberMachine ι) (i : ι) : Option (FiberMachine ι) :=
  let m := m.getThis i
  if (m.threads i).scheduler then none
  else
    let m := (m.setThread i { m.threads i with scheduler := true }).newFiber true
    some (m.setThread i { m.threads i with schedulerFiber := some (.sub m.numsCreated) })

/-- The beginning of `Scheduler::run`; `caller` is whether the thread is `callerTid_`. -/
def run (m : FiberMachine ι) (i : ι) (caller : Bool) : FiberMachine ι :=
  let m := m.setThread i { m.threads i with scheduler := true }
  if caller then m
  else
    let m := m.getThis i
    m.setThread i { m.threads i with schedulerFiber := (m.threads i).running }

/-- `Scheduler::~Scheduler` on the thread of the scheduler. -/
def dropScheduler (m : FiberMachine ι) (i : ι) : FiberMachine ι :=
  m.setThread i { m.threads i with scheduler := false }

/-- A call made on thread `i` by the code it executes, which goes on at `pc`. -/
def act (m : FiberMachine ι) (i : ι) (pc : ℕ) : Point ι → FiberCall ι → Option (FiberMachine ι)
  | .mainFunc, .enter => m.enter i pc
  | .code _, .getThis => some ((m.getThis i).goOn i (.code pc))
  | .code _, .newFiber cb => some ((m.newFiber cb).goOn i (.code pc))
  | .code _, .reset f cb => (m.reset f cb).map fun m => m.goOn i (.code pc)
  | .code _, .free id => (m.free id).map fun m => m.goOn i (.code pc)
  | .code _, .resume f => m.resume i f (.code pc)
  | .code _, .yield f => m.yield i f (.code pc)
  | .code _, .schedYield f => m.schedYield i f (.code pc)
  | .code _, .yieldToHold => m.yieldToHold i (.code pc)
  | .code _, .finish except => m.finish i except
  | .code _, .useCaller => (m.useCaller i).map fun m => m.goOn i (.code pc)
  | .code _, .run caller => some ((m.run i caller).goOn i (.code pc))
  | .code _, .handleFiber f => m.schedResume i f (.handleFiber f pc)
  | .code _, .dropScheduler => some ((m.dropScheduler i).goOn i (.code pc))
  | _, _ => none

/-- Threads that have just begun, and no fibers. -/
def start : FiberMachine ι where
  numsCreated := 0
  fibers _ := none
  threads i := ⟨none, false, false, none, ⟨.root i, .code 0⟩⟩
  nextCb := 0
  called := []

/-- All interleavings of calls. -/
def lts : Lib.Lts (FiberMachine ι) (ι × FiberCall ι × ℕ) where
  init m := m = start
  step m l := m.act l.1 l.2.2 (m.threads l.1).cpu.point l.2.1

end FiberMachine

end Easy.Base
