import Mathlib.Data.Int.Basic
import Mathlib.Logic.Basic

/-!
`Channel` of `easy/base/Channel.cc`, and the critical sections in which
`IOManager` of `easy/base/IOManager.cc` changes one.

A function here is what happens between taking `channel->lock_` and releasing
it. It works on a `Held` state: the channel, what the kernel watches for its
descriptor, the manager's `pendingEventCount_`, and the calls of `schedule` it
has made so far. Whether `epoll_ctl` fails is an argument. An assertion that
does not hold, or a call through a null scheduler, is an `Abort`.

`addEvent` is called from a fiber of the manager: `Scheduler::GetThis()` is a
scheduler and `Fiber::GetThis()` the fiber that runs.
-/

namespace Easy.Base

/-- `Channel::READ` and `Channel::WRITE`. -/
inductive Event
  | read
  | write
  deriving DecidableEq, Repr

/-- A set of events, as the bits of a mask. -/
structure Events where
  read : Bool
  write : Bool
  deriving DecidableEq, Repr

namespace Events

/-- `Channel::NONE` -/
def none : Events := ⟨false, false⟩

/-- `events & ev` -/
def has (e : Events) : Event → Bool
  | .read => e.read
  | .write => e.write

/-- `events | ev` -/
def add (e : Events) : Event → Events
  | .read => { e with read := true }
  | .write => { e with write := true }

/-- `events & ~ev` -/
def remove (e : Events) : Event → Events
  | .read => { e with read := false }
  | .write => { e with write := false }

/-- `a & b` -/
def inter (a b : Events) : Events := ⟨a.read && b.read, a.write && b.write⟩

/-- `a & ~b` -/
def diff (a b : Events) : Events := ⟨a.read && !b.read, a.write && !b.write⟩

end Events

/-- The bits `epoll_wait` reports for a descriptor. -/
structure EpollMask where
  epollin : Bool
  epollout : Bool
  epollerr : Bool
  epollhup : Bool
  deriving DecidableEq, Repr

/-- What a scheduler is given: a callback or a fiber. -/
inductive Work (κ φ : Type*)
  | cb (cb : κ)
  | fiber (fiber : φ)
  deriving DecidableEq

/-- `Channel::EventCtx`; null pointers and empty functions are `none`. -/
structure EventCtx (σ φ κ : Type*) where
  scheduler : Option σ
  fiber : Option φ
  cb : Option κ
  deriving DecidableEq

namespace EventCtx

variable {σ φ κ : Type*}

def empty : EventCtx σ φ κ := ⟨none, none, none⟩

end EventCtx

structure Channel (σ φ κ : Type*) where
  read_ : EventCtx σ φ κ
  write_ : EventCtx σ φ κ
  events : Events
  deriving DecidableEq

/-- An assertion that failed, or a call through a null pointer. -/
inductive Abort
  | contextInUse
  | contextNotMoved
  | nullScheduler
  | eventsLeft
  deriving DecidableEq, Repr

/-- What a critical section works on. -/
structure Held (σ φ κ : Type*) where
  channel : Channel σ φ κ
  interest : Events
  pendingEventCount : ℤ
  scheduled : List (Event × σ × Work κ φ)
  deriving DecidableEq

namespace Channel

variable {σ φ κ : Type*}

def empty : Channel σ φ κ := ⟨.empty, .empty, .none⟩

/-- `Channel::getEventCtx` -/
def getEventCtx (c : Channel σ φ κ) : Event → EventCtx σ φ κ
  | .read => c.read_
  | .write => c.write_

/-- A store through the reference `getEventCtx` returns. -/
def setEventCtx (c : Channel σ φ κ) (ctx : EventCtx σ φ κ) : Event → Channel σ φ κ
  | .read => { c with read_ := ctx }
  | .write => { c with write_ := ctx }

end Channel

namespace Held

variable {σ φ κ : Type*}

/-- `Scheduler::schedule` of what was moved out of a context. An empty fiber
is not queued. -/
def schedule (h : Held σ φ κ) (ev : Event) (sch : σ) (work : Option (Work κ φ)) : Held σ φ κ :=
  match work with
  | some w => { h with scheduled := h.scheduled ++ [(ev, sch, w)] }
  | none => h

/-- `Channel::cleanUp` -/
def cleanUp (h : Held σ φ κ) (ev : Event) : Held σ φ κ :=
  { h with channel := h.channel.setEventCtx .empty ev }

/-- `Channel::handleEvent` -/
def handleEvent (h : Held σ φ κ) (ev : Event) : Except Abort (Held σ φ κ) :=
  if !h.channel.events.has ev then .ok h
  else
    let ctx := h.channel.getEventCtx ev
    let h := { h with channel := { h.channel with events := h.channel.events.remove ev } }
    match ctx.scheduler with
    | none => .error .nullScheduler
    | some sch =>
      let (h, ctx) :=
        if ctx.cb.isSome then (h.schedule ev sch (ctx.cb.map .cb), { ctx with cb := none })
        else (h.schedule ev sch (ctx.fiber.map .fiber), { ctx with fiber := none })
      if ctx.cb.isSome || ctx.fiber.isSome then .error .contextNotMoved
      else .ok { h with channel := h.channel.setEventCtx { ctx with scheduler := none } ev }

def decrement (h : Held σ φ κ) : Held σ φ κ :=
  { h with pendingEventCount := h.pendingEventCount - 1 }

/-- `epoll_ctl`, which stores the new interest unless it fails. -/
def epollCtl (h : Held σ φ κ) (interest : Events) : Held σ φ κ := { h with interest := interest }

/-- `IOManager::addEvent`; its result is `0` for `true` and `-1` for `false`. -/
def addEvent (h : Held σ φ κ) (ev : Event) (cb : Option κ) (this : σ) (cur : φ) (fails : Bool) :
    Except Abort (Bool × Held σ φ κ) :=
  if h.channel.events.has ev then .ok (false, h)
  else if fails then .ok (false, h)
  else
    let h := h.epollCtl (h.channel.events.add ev)
    let h := { h with pendingEventCount := h.pendingEventCount + 1 }
    let h := { h with channel := { h.channel with events := h.channel.events.add ev } }
    let ctx := h.channel.getEventCtx ev
    if ctx.scheduler.isSome || ctx.fiber.isSome || ctx.cb.isSome then .error .contextInUse
    else
      let ctx := { ctx with scheduler := some this }
      let ctx := if cb.isSome then { ctx with cb := cb } else { ctx with fiber := some cur }
      .ok (true, { h with channel := h.channel.setEventCtx ctx ev })

/-- `IOManager::removeEvent` -/
def removeEvent (h : Held σ φ κ) (ev : Event) (fails : Bool) : Except Abort (Bool × Held σ φ κ) :=
  if !h.channel.events.has ev then .ok (false, h)
  else if fails then .ok (false, h)
  else
    let h := (h.epollCtl (h.channel.events.remove ev)).decrement
    let h := { h with channel := { h.channel with events := h.channel.events.remove ev } }
    .ok (true, h.cleanUp ev)

/-- `IOManager::cancelEvent` -/
def cancelEvent (h : Held σ φ κ) (ev : Event) (fails : Bool) : Except Abort (Bool × Held σ φ κ) :=
  if !h.channel.events.has ev then .ok (false, h)
  else if fails then .ok (false, h)
  else do
    let h ← (h.epollCtl (h.channel.events.remove ev)).handleEvent ev
    return (true, h.decrement)

/-- `if (channel->events_ & ev)`, and its body in `cancelAll`. -/
def cancelOne (h : Held σ φ κ) (ev : Event) : Except Abort (Held σ φ κ) :=
  if h.channel.events.has ev then do
    let h ← h.handleEvent ev
    return h.decrement
  else .ok h

/-- `IOManager::cancelAll` -/
def cancelAll (h : Held σ φ κ) (fails : Bool) : Except Abort (Bool × Held σ φ κ) :=
  if h.channel.events = .none then .ok (false, h)
  else if fails then .ok (false, h)
  else do
    let h ← (h.epollCtl .none).cancelOne .read
    let h ← h.cancelOne .write
    if h.channel.events = .none then return (true, h) else throw .eventsLeft

/-- The events `IOManager::idle` takes a mask for: an error or a hang-up
stands for all the channel waits for. -/
def revents (events : Events) (mask : EpollMask) : Events :=
  if mask.epollerr || mask.epollhup then
    ⟨mask.epollin || events.read, mask.epollout || events.write⟩
  else ⟨mask.epollin, mask.epollout⟩

/-- `if (revents & ev)`, and its body in `IOManager::idle`. -/
def dispatchOne (h : Held σ φ κ) (revents : Events) (ev : Event) : Except Abort (Held σ φ κ) :=
  if revents.has ev then do
    let h ← h.handleEvent ev
    return h.decrement
  else .ok h

/-- What `IOManager::idle` does for a channel that `epoll_wait` reported. -/
def dispatch (h : Held σ φ κ) (mask : EpollMask) (fails : Bool) :
    Except Abort (Bool × Held σ φ κ) :=
  let revents := revents h.channel.events mask
  -- do nothing
  if h.channel.events.inter revents = .none then .ok (false, h)
  else if fails then .ok (false, h)
  else do
    let h ← (h.epollCtl (h.channel.events.diff revents)).dispatchOne revents .read
    let h ← h.dispatchOne revents .write
    return (true, h)

/-- The critical sections, with the arguments of each call. -/
inductive Op (σ φ κ : Type*)
  | addEvent (ev : Event) (cb : Option κ) (this : σ) (cur : φ) (fails : Bool)
  | removeEvent (ev : Event) (fails : Bool)
  | cancelEvent (ev : Event) (fails : Bool)
  | cancelAll (fails : Bool)
  | dispatch (mask : EpollMask) (fails : Bool)

def Op.exec (h : Held σ φ κ) : Op σ φ κ → Except Abort (Bool × Held σ φ κ)
  | .addEvent ev cb this cur fails => h.addEvent ev cb this cur fails
  | .removeEvent ev fails => h.removeEvent ev fails
  | .cancelEvent ev fails => h.cancelEvent ev fails
  | .cancelAll fails => h.cancelAll fails
  | .dispatch mask fails => h.dispatch mask fails

end Held

end Easy.Base
