import Easy.Base.TimerExpiry
import Mathlib.Tactic.Ring

/-!
The hooked `sleep`, `usleep` and `nanosleep` (`easy/base/hook.cc`), in the machine types
they compute with.

Each converts its argument to milliseconds in a width of its own and has `addTimer` wake the
fiber after them: `sleep` multiplies in 32 bits, `usleep` and `nanosleep` round down. Then the
interval becomes signed, and `addTime` turns it into microseconds. Here signed arithmetic that
overflows yields `none`, so that a sleep of which something is said is one where none does.
-/

namespace Easy.Base

/-- The result of `int64_t` arithmetic. -/
def int64 (v : ℤ) : Option ℤ := if FitsInt64 v then some v else none

theorem int64_eq_some {v r : ℤ} : int64 v = some r ↔ (-2 ^ 63 ≤ v ∧ v < 2 ^ 63) ∧ v = r := by
  rw [int64, Option.ite_none_right_eq_some, Option.some_inj, FitsInt64]

/-- `addTime`, where it does not overflow. -/
def addTime64 (timestamp ms : ℤ) : Option ℤ := do
  let delta ← int64 (ms * Timestamp.kMillisecondPerSeond)
  int64 (timestamp + delta)

theorem addTime64_eq_some {timestamp ms r : ℤ} : addTime64 timestamp ms = some r ↔
    (-2 ^ 63 ≤ ms * 1000 ∧ ms * 1000 < 2 ^ 63) ∧
      (-2 ^ 63 ≤ timestamp + ms * 1000 ∧ timestamp + ms * 1000 < 2 ^ 63) ∧
        timestamp + ms * 1000 = r := by
  rw [addTime64, Option.bind_eq_bind, Option.bind_eq_some_iff]
  simp only [int64_eq_some, Timestamp.kMillisecondPerSeond]
  constructor
  · rintro ⟨delta, ⟨hdelta, rfl⟩, hr⟩
    exact ⟨hdelta, hr⟩
  · rintro ⟨hdelta, hr⟩
    exact ⟨ms * 1000, ⟨hdelta, rfl⟩, hr⟩

theorem addTime_of_addTime64 {timestamp ms r : ℤ} (h : addTime64 timestamp ms = some r) :
    addTime timestamp ms = r := by
  obtain ⟨-, hfits, rfl⟩ := addTime64_eq_some.mp h
  exact addTime_eq_iff.mpr hfits

/-- What a sleep does: it calls the original, or `addTimer` with an interval, and yields. -/
inductive Sleeping
  | origin
  | addTimer (interval : BitVec 64)
  deriving DecidableEq

def sleep (hook : Bool) (seconds : BitVec 32) : Sleeping :=
  if !hook then .origin else .addTimer ((seconds * 1000).setWidth 64)

def usleep (hook : Bool) (usec : BitVec 32) : Sleeping :=
  if !hook then .origin else .addTimer ((usec / 1000).setWidth 64)

def nanosleep (hook : Bool) (req : Timespec) : Option Sleeping :=
  if !hook then some .origin
  else do
    let ms ← int64 (req.sec * 1000)
    let timeout_ms ← int64 (ms + (req.nsec.tdiv 1000).tdiv 1000)
    return .addTimer (BitVec.ofInt 64 timeout_ms)

/-- `expiration_` of a timer made by `addTimer(interval, ...)` when the clock shows `now`. -/
def expires (interval : BitVec 64) (now : ℤ) : Option ℤ := addTime64 now interval.toInt

theorem expiration_addTimer {κ : Type*} (m : TimerManager κ) (t : ℕ) (cb : Option κ)
    (repeats : Bool) {interval : BitVec 64} {now now' e : ℤ} (h : expires interval now = some e) :
    ((m.addTimer t interval.toInt cb repeats now now').objs t).expiration = e := by
  rw [TimerManager.addTimer, TimerManager.objs_addTimerPtr, TimerManager.objs_store_self]
  exact addTime_of_addTime64 h

/-- The fiber is woken by a timer that expires no earlier than `nanos` nanoseconds after
`now`. -/
def WakesAfter (call : Option Sleeping) (now nanos : ℤ) : Prop :=
  ∃ interval expiration, call = some (.addTimer interval) ∧
    expires interval now = some expiration ∧ now * 1000 + nanos ≤ expiration * 1000

/-- The timer of such a call is not among the expired ones before that. -/
theorem WakesAfter.le_of_expired {κ : Type*} (m : TimerManager κ) (t : ℕ) (cb : Option κ)
    {interval : BitVec 64} {now now' nanos later : ℤ}
    (h : WakesAfter (some (.addTimer interval)) now nanos)
    (ht : t ∈ (m.addTimer t interval.toInt cb false now now').expired later) :
    now * 1000 + nanos ≤ later * 1000 := by
  obtain ⟨_, expiration, heq, hexpires, hle⟩ := h
  cases heq
  have hexpired := (TimerManager.mem_expired.mp ht).2
  rw [expiration_addTimer m t cb false hexpires] at hexpired
  omega

variable {now : BitVec 64}

/-- An interval in milliseconds is long enough for a duration. -/
theorem wakesAfter_iff {interval : BitVec 64} {nanos : ℤ} (hinterval : 0 ≤ interval.toInt) :
    WakesAfter (some (.addTimer interval)) now.toInt nanos ↔
      nanos ≤ interval.toInt * 1000000 ∧ interval.toInt * 1000 < 2 ^ 63 ∧
        now.toInt + interval.toInt * 1000 < 2 ^ 63 := by
  have hnow : -2 ^ 63 ≤ now.toInt := BitVec.le_toInt now
  simp only [WakesAfter, expires, addTime64_eq_some]
  constructor
  · rintro ⟨_, _, heq, ⟨hdelta, hr, rfl⟩, hle⟩
    cases heq
    omega
  · rintro ⟨hle, hdelta, hr⟩
    exact ⟨interval, now.toInt + interval.toInt * 1000, rfl, ⟨by omega, by omega, rfl⟩, by omega⟩

/-- The interval of `sleep` after its conversions. -/
theorem toInt_mul_thousand (seconds : BitVec 32) :
    ((seconds * 1000).setWidth 64).toInt = (seconds.toNat * 1000 % 2 ^ 32 : ℕ) := by
  have hlt : seconds.toNat * 1000 % 2 ^ 32 < 2 ^ 32 := Nat.mod_lt _ (by decide)
  have hnat : ((seconds * 1000).setWidth 64).toNat = seconds.toNat * 1000 % 2 ^ 32 := by
    rw [BitVec.toNat_setWidth, BitVec.toNat_mul]
    exact Nat.mod_eq_of_lt (by omega)
  rw [BitVec.toInt_eq_toNat_of_lt (by omega), hnat]

/-- **`sleep`** is long enough unless the milliseconds wrap around. -/
theorem sleep_wakesAfter_iff (now : BitVec 64) (seconds : BitVec 32) :
    WakesAfter (some (sleep true seconds)) now.toInt (seconds.toNat * 1000000000) ↔
      seconds.toNat * 1000 < 2 ^ 32 ∧ now.toInt + seconds.toNat * 1000000 < 2 ^ 63 := by
  have hinterval := toInt_mul_thousand seconds
  have hlt : seconds.toNat * 1000 % 2 ^ 32 < 2 ^ 32 := Nat.mod_lt _ (by decide)
  have hle : seconds.toNat * 1000 % 2 ^ 32 ≤ seconds.toNat * 1000 := Nat.mod_le _ _
  rw [sleep, Bool.not_true, if_neg Bool.false_ne_true, wakesAfter_iff (by omega), hinterval]
  constructor
  · omega
  · rintro ⟨hwrap, hr⟩
    rw [Nat.mod_eq_of_lt hwrap]
    omega

/-- **`usleep`** is long enough for whole milliseconds. -/
theorem usleep_wakesAfter_iff (now : BitVec 64) (usec : BitVec 32) :
    WakesAfter (some (usleep true usec)) now.toInt (usec.toNat * 1000) ↔
      usec.toNat % 1000 = 0 ∧ now.toInt + usec.toNat < 2 ^ 63 := by
  have husec := usec.isLt
  have hthousand : (1000 : BitVec 32).toNat = 1000 := rfl
  have hnat : ((usec / 1000).setWidth 64).toNat = usec.toNat / 1000 := by
    rw [BitVec.toNat_setWidth, BitVec.toNat_udiv, hthousand]
    exact Nat.mod_eq_of_lt (by omega)
  have hinterval : ((usec / 1000).setWidth 64).toInt = (usec.toNat / 1000 : ℕ) := by
    rw [BitVec.toInt_eq_toNat_of_lt (by omega), hnat]
  rw [usleep, Bool.not_true, if_neg Bool.false_ne_true, wakesAfter_iff (by omega), hinterval]
  omega

/-- **`nanosleep`** is long enough for whole milliseconds, unless it overflows. -/
theorem nanosleep_wakesAfter_iff (now : BitVec 64) {req : Timespec} (hsec : 0 ≤ req.sec)
    (hnsec : 0 ≤ req.nsec) (hlt : req.nsec < 1000000000) :
    WakesAfter (nanosleep true req) now.toInt (req.sec * 1000000000 + req.nsec) ↔
      req.nsec % 1000000 = 0 ∧ req.sec * 1000000 + req.nsec / 1000 < 2 ^ 63 ∧
        now.toInt + (req.sec * 1000000 + req.nsec / 1000) < 2 ^ 63 := by
  have hdiv : (req.nsec.tdiv 1000).tdiv 1000 = req.nsec / 1000000 := by
    rw [Int.tdiv_eq_ediv_of_nonneg hnsec, Int.tdiv_eq_ediv_of_nonneg (by omega)]
    omega
  by_cases hfits : req.sec * 1000 + req.nsec / 1000000 < 2 ^ 63
  · have hms : int64 (req.sec * 1000) = some (req.sec * 1000) :=
      int64_eq_some.mpr ⟨by omega, rfl⟩
    have htimeout : int64 (req.sec * 1000 + req.nsec / 1000000) =
        some (req.sec * 1000 + req.nsec / 1000000) := int64_eq_some.mpr ⟨by omega, rfl⟩
    have hcall : nanosleep true req =
        some (.addTimer (BitVec.ofInt 64 (req.sec * 1000 + req.nsec / 1000000))) := by
      simp [nanosleep, hdiv, hms, htimeout]
    have hinterval : (BitVec.ofInt 64 (req.sec * 1000 + req.nsec / 1000000)).toInt =
        req.sec * 1000 + req.nsec / 1000000 := by
      rw [BitVec.toInt_ofInt]
      exact Int.bmod_eq_of_le (by omega) (by omega)
    rw [hcall, wakesAfter_iff (by omega), hinterval]
    omega
  · refine iff_of_false ?_ (by omega)
    rintro ⟨interval, _, hcall, -⟩
    simp only [nanosleep, hdiv, Bool.not_true, Bool.false_eq_true, if_false, Option.bind_eq_bind,
      Option.bind_eq_some_iff, int64_eq_some] at hcall
    obtain ⟨ms, ⟨-, rfl⟩, timeout, ⟨hrange, rfl⟩, -⟩ := hcall
    omega

/-- **Sleeps** in hooked threads, at any reading of the clock. -/
theorem sleeps_wakesAfter_iff (now : BitVec 64) :
    (∀ seconds : BitVec 32,
      WakesAfter (some (sleep true seconds)) now.toInt (seconds.toNat * 1000000000) ↔
        seconds.toNat * 1000 < 2 ^ 32 ∧ now.toInt + seconds.toNat * 1000000 < 2 ^ 63) ∧
    (∀ usec : BitVec 32, WakesAfter (some (usleep true usec)) now.toInt (usec.toNat * 1000) ↔
      usec.toNat % 1000 = 0 ∧ now.toInt + usec.toNat < 2 ^ 63) ∧
    ∀ req : Timespec, 0 ≤ req.sec → 0 ≤ req.nsec → req.nsec < 1000000000 →
      (WakesAfter (nanosleep true req) now.toInt (req.sec * 1000000000 + req.nsec) ↔
        req.nsec % 1000000 = 0 ∧ req.sec * 1000000 + req.nsec / 1000 < 2 ^ 63 ∧
          now.toInt + (req.sec * 1000000 + req.nsec / 1000) < 2 ^ 63) :=
  ⟨sleep_wakesAfter_iff now, usleep_wakesAfter_iff now,
    fun _ hsec hnsec hlt => nanosleep_wakesAfter_iff now hsec hnsec hlt⟩

/-- Two seconds and a half. -/
theorem sleeps_wakesAfter_half : WakesAfter (nanosleep true ⟨2, 500000000⟩) 0 2500000000 :=
  ((sleeps_wakesAfter_iff 0).2.2 ⟨2, 500000000⟩ (by decide) (by decide) (by decide)).mpr (by decide)

/-- Fifty days, half a millisecond, and a nanosecond. -/
theorem sleeps_wakesAfter_false :
    ¬ WakesAfter (some (sleep true 4320000)) 0 4320000000000000 ∧
      ¬ WakesAfter (some (usleep true 500)) 0 500000 ∧
        ¬ WakesAfter (nanosleep true ⟨0, 1⟩) 0 1 := by
  refine ⟨fun h => ?_, fun h => ?_, fun h => ?_⟩
  · have hiff := (sleep_wakesAfter_iff 0 4320000).mp h
    exact absurd hiff (by decide)
  · have hiff := (usleep_wakesAfter_iff 0 500).mp h
    exact absurd hiff (by decide)
  · have hiff := (nanosleep_wakesAfter_iff 0 (by decide) (by decide) (by decide)).mp h
    exact absurd hiff (by decide)

end Easy.Base
