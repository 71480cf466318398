import Easy.Lib.OrderedSet
import Mathlib.Logic.Function.Basic
import Mathlib.Tactic.Linarith

/-!
`Timer` and `TimerManager` of `easy/base/Timer.cc`, and the one-shot timer
descriptor they arm.

Timer objects live at addresses, which are numbers; `objs` is the memory, and `timers` the
`std::set` of pointers, in the order of its comparator. Every member function
runs under the manager's lock and is one function here. What it reads from the
system clock is an argument, one reading for each call of `Timestamp::now`.
A `Timestamp` is an integer, its microseconds since the epoch. Arithmetic on it is that of
`int64_t`: where it overflows, which the language leaves undefined, it wraps around as
the machine does. `cancel` and the locked part of `listExpiredCallback`
follow an iterator they have not checked; where it is the end of the set they
return `none`.
-/

namespace Easy.Base

open Lib

namespace Timestamp

def kMicroSecondsPerSecond : ℤ := 1000 * 1000
def kMillisecondPerSeond : ℤ := 1000
def kSecondsPerHour : ℤ := 60 * 60

def valid (t : ℤ) : Bool := 0 < t

end Timestamp

/-- The values of `int64_t`. -/
def FitsInt64 (v : ℤ) : Prop := -2 ^ 63 ≤ v ∧ v < 2 ^ 63

instance (v : ℤ) : Decidable (FitsInt64 v) := inferInstanceAs (Decidable (_ ∧ _))

/-- What arithmetic in `int64_t` makes of the result `v`. -/
def wrap64 (v : ℤ) : ℤ := (v + 2 ^ 63) % 2 ^ 64 - 2 ^ 63

theorem wrap64_eq_iff {v : ℤ} : wrap64 v = v ↔ FitsInt64 v := by
  simp only [wrap64, FitsInt64]
  omega

/-- `addTime`, with the difference in milliseconds. -/
def addTime (t ms : ℤ) : ℤ := wrap64 (t + wrap64 (ms * Timestamp.kMillisecondPerSeond))

/-- Only the sum matters: a difference that wraps around comes back with it. -/
theorem addTime_eq (t ms : ℤ) : addTime t ms = wrap64 (t + ms * 1000) := by
  simp only [addTime, wrap64, Timestamp.kMillisecondPerSeond]
  omega

theorem addTime_eq_iff {t ms : ℤ} : addTime t ms = t + ms * 1000 ↔ FitsInt64 (t + ms * 1000) := by
  rw [addTime_eq, wrap64_eq_iff]

theorem addTime_addTime (t ms ms' : ℤ) :
    addTime (addTime t ms) ms' = wrap64 (t + ms * 1000 + ms' * 1000) := by
  simp only [addTime_eq, wrap64]
  omega

/-- A `Timer` object; `cb` is empty after `cb_ = nullptr`. -/
structure Timer (κ : Type*) where
  repeats : Bool
  interval : ℤ
  expiration : ℤ
  cb : Option κ

/-- What the kernel holds for an armed timer descriptor: when it was armed and
when it expires. -/
structure Arming where
  armedAt : ℤ
  deadline : ℤ
  deriving DecidableEq, Repr

structure TimerManager (κ : Type*) where
  objs : ℕ → Timer κ
  timers : List ℕ
  timerfd : Option Arming
  previous : ℤ

/-- `Timer::Comparator` on pointers, of which `none` is null. -/
def comparator : Option (ℤ × ℕ) → Option (ℤ × ℕ) → Bool
  | none, none => false
  | none, some _ => true
  | some _, none => false
  | some (lexp, lget), some (rexp, rget) =>
    if lexp < rexp then true else if rexp < lexp then false else lget < rget

theorem comparator_some {a b : ℤ × ℕ} :
    comparator (some a) (some b) ↔ a.1 < b.1 ∨ a.1 = b.1 ∧ a.2 < b.2 := by
  simp only [comparator]
  split_ifs with h₁ h₂
  · simp [h₁]
  · simp [h₁, h₂.ne']
  · have heq : a.1 = b.1 := by omega
    simp [heq]

/-- `struct timespec` -/
structure Timespec where
  sec : ℤ
  nsec : ℤ

/-- `howMuchTimeFromNow` -/
def howMuchTimeFromNow (when_ now : ℤ) : Timespec :=
  let diff := wrap64 (when_ - now)
  let microseconds := if diff < 100 then 100 else diff
  ⟨microseconds / Timestamp.kMicroSecondsPerSecond,
    microseconds % Timestamp.kMicroSecondsPerSecond * 1000⟩

def Timespec.micros (t : Timespec) : ℤ :=
  t.sec * Timestamp.kMicroSecondsPerSecond + t.nsec / 1000

theorem micros_howMuchTimeFromNow (when_ now : ℤ) :
    (howMuchTimeFromNow when_ now).micros = max (wrap64 (when_ - now)) 100 := by
  simp only [howMuchTimeFromNow, Timespec.micros, Timestamp.kMicroSecondsPerSecond]
  split_ifs <;> omega

namespace TimerManager

variable {κ : Type*}

/-- What the comparator reads through a pointer. -/
def key (m : TimerManager κ) (t : ℕ) : ℤ × ℕ := ((m.objs t).expiration, t)

/-- The comparator on two timers of the set. -/
def less (m : TimerManager κ) (a b : ℕ) : Prop := comparator (some (m.key a)) (some (m.key b))

instance (m : TimerManager κ) : DecidableRel m.less := fun _ _ =>
  inferInstanceAs (Decidable (_ = true))

/-- A store to the timer object at `t`. -/
def store (m : TimerManager κ) (t : ℕ) (o : Timer κ) : TimerManager κ :=
  { m with objs := Function.update m.objs t o }

/-- `timers_.erase(timers_.find(t))` for a timer that is found. -/
def erase (m : TimerManager κ) (t : ℕ) : TimerManager κ :=
  { m with timers := m.timers.erase t }

/-- `resetTimerfd`: arms the descriptor, which drops what it was armed for. -/
def resetTimerfd (m : TimerManager κ) (expiration now : ℤ) : TimerManager κ :=
  { m with timerfd := some ⟨now, now + (howMuchTimeFromNow expiration now).micros⟩ }

/-- `addTimer(Timer::ptr)` -/
def addTimerPtr (m : TimerManager κ) (t : ℕ) (now : ℤ) : TimerManager κ :=
  let m' := { m with timers := OrderedSet.insert m.less t m.timers }
  if m'.timers.head? = some t then m'.resetTimerfd (m'.objs t).expiration now else m'

/-- `addTimer(interval, cb, repeat)`, with the object made at address `t`:
the constructor reads the clock at `now`, `resetTimerfd` at `now'`. -/
def addTimer (m : TimerManager κ) (t : ℕ) (interval : ℤ) (cb : Option κ) (repeats : Bool)
    (now now' : ℤ) : TimerManager κ :=
  (m.store t ⟨repeats, interval, addTime now interval, cb⟩).addTimerPtr t now'

/-- `Timer::cancel`; `none` is the erasure of the end of the set. -/
def cancel (m : TimerManager κ) (t : ℕ) : Option (Bool × TimerManager κ) :=
  if (m.objs t).cb.isSome then
    let m' := m.store t { m.objs t with cb := none }
    if t ∈ m'.timers then some (true, m'.erase t) else none
  else some (false, m)

/-- `Timer::refresh` -/
def refresh (m : TimerManager κ) (t : ℕ) (now : ℤ) : Bool × TimerManager κ :=
  if (m.objs t).cb.isNone then (false, m)
  else if t ∉ m.timers then (false, m)
  else
    let m₁ := m.erase t
    let m₂ := m₁.store t { m.objs t with expiration := addTime now (m.objs t).interval }
    (true, { m₂ with timers := OrderedSet.insert m₂.less t m₂.timers })

/-- `Timer::reset` -/
def reset (m : TimerManager κ) (t : ℕ) (interval : ℤ) (fromNow : Bool) (now now' : ℤ) :
    Bool × TimerManager κ :=
  if interval = (m.objs t).interval ∧ !fromNow then (true, m)
  else if (m.objs t).cb.isNone then (false, m)
  else if t ∉ m.timers then (false, m)
  else
    let start := if fromNow then now else addTime (m.objs t).expiration (-(m.objs t).interval)
    (true, ((m.erase t).store t
      { m.objs t with interval := interval, expiration := addTime start interval }).addTimerPtr
        t now')

/-- `detectClockRollover`. The hour is passed to `addTime`, which takes
milliseconds. -/
def detectClockRollover (m : TimerManager κ) (now : ℤ) : Bool × TimerManager κ :=
  (now < m.previous ∧ now < addTime m.previous (-Timestamp.kSecondsPerHour),
    { m with previous := now })

/-- The iterator `end` of `listExpiredCallback`, as an index: the lower bound
of a timer object that expires at `now` and lives at `nowTimer`, moved past
the timers that expire at `now`. -/
def expiredEnd (m : TimerManager κ) (rollover : Bool) (now : ℤ) (nowTimer : ℕ) : ℕ :=
  if rollover then m.timers.length
  else
    let lower := m.timers.findIdx fun t => !comparator (some (m.key t)) (some (now, nowTimer))
    lower + (m.timers.drop lower).findIdx fun t => (m.objs t).expiration ≠ now

/-- The body of the loop over the expired timers. -/
def handOut (m : TimerManager κ) (t : ℕ) (now now' : ℤ) : TimerManager κ :=
  if (m.objs t).repeats then
    (m.store t { m.objs t with expiration := addTime now (m.objs t).interval }).addTimerPtr t now'
  else m.store t { m.objs t with cb := none }

/-- The loop over the expired timers. `clock i` is what the clock shows in
round `i`. -/
def expireLoop (now : ℤ) (clock : ℕ → ℤ) :
    TimerManager κ → ℕ → List ℕ → List (Option κ) × TimerManager κ
  | m, _, [] => ([], m)
  | m, i, t :: ts =>
    let (cbs, m') := expireLoop now clock (m.handOut t now (clock i)) (i + 1) ts
    ((m.objs t).cb :: cbs, m')

/-- The end of `listExpiredCallback`: arms the descriptor for what is left. -/
def rearm (m : TimerManager κ) (now : ℤ) : TimerManager κ :=
  let nextExpire := match m.timers.head? with
    | some t => (m.objs t).expiration
    | none => 0
  if Timestamp.valid nextExpire then m.resetTimerfd nextExpire now else m

/-- The part of `listExpiredCallback` under the write lock. It returns the
callbacks it appends. -/
def processExpired (m : TimerManager κ) (now : ℤ) (nowTimer : ℕ)
    (clock : ℕ → ℤ) : Option (List (Option κ) × TimerManager κ) :=
  let (rollover, m₁) := m.detectClockRollover now
  let go := fun _ : Unit =>
    let e := m₁.expiredEnd rollover now nowTimer
    let (cbs, m₂) :=
      expireLoop now clock { m₁ with timers := m₁.timers.drop e } 0 (m₁.timers.take e)
    some (cbs, m₂.rearm (clock e))
  if rollover then go ()
  else
    match m₁.timers.head? with
    | none => none
    | some t =>
      -- nothing happened
      if now < (m₁.objs t).expiration then some ([], m₁) else go ()

/-- `listExpiredCallback`, when nothing comes between its two locked parts. -/
def listExpiredCallback (m : TimerManager κ) (now : ℤ) (nowTimer : ℕ)
    (clock : ℕ → ℤ) : Option (List (Option κ) × TimerManager κ) :=
  if m.timers.isEmpty then some ([], m) else m.processExpired now nowTimer clock

end TimerManager

end Easy.Base
