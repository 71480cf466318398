import Easy.Base.TimerExpiry

/-!
Timers that `listExpiredCallback` hands out before they expire.

It does so where `detectClockRollover` takes the clock to have gone back by more than an hour.
The detector passes the seconds of an hour to `addTime`, which takes milliseconds, so that it
is an hour in name only: 3.6 seconds are enough.
-/

namespace Easy.Base

open Lib

/-- An hour in microseconds. -/
def Timestamp.hour : ℤ := Timestamp.kSecondsPerHour * Timestamp.kMicroSecondsPerSecond

namespace TimerRun

open TimerManager (RollsOver mem_handed detectClockRollover_iff)

variable {κ : Type*} {s : TimerRun κ}

/-- A timer that has not expired is handed out only by a call that reads a time more than an
hour before the last reading the detector has seen. -/
def Punctual (s : TimerRun κ) : TimerCall κ → Prop
  | .listExpiredCallback now nowTimer clock =>
    ∀ cbs m, s.manager.listExpiredCallback now nowTimer clock = some (cbs, m) →
      ∀ t ∈ s.manager.timers, (s.manager.objs t).cb ∈ cbs →
        now < (s.manager.objs t).expiration → now < s.manager.previous - Timestamp.hour
  | _ => True

/-- The clock has gone back by more than 3.6 seconds, which the detector takes for a rollover, and
by no more than an hour. -/
def WentBack (previous now : ℤ) : Prop :=
  previous - Timestamp.hour ≤ now ∧ RollsOver previous now

instance (previous now : ℤ) : Decidable (WentBack previous now) :=
  inferInstanceAs (Decidable (_ ∧ _))

/-- A call made when the clock has gone back so finds no timer that has not expired. -/
def Expired (s : TimerRun κ) : TimerCall κ → Prop
  | .listExpiredCallback now _ _ => WentBack s.manager.previous now →
      ∀ t ∈ s.manager.timers, (s.manager.objs t).expiration ≤ now
  | _ => True

instance (s : TimerRun κ) : DecidablePred s.Expired
  | .listExpiredCallback now _ _ => inferInstanceAs
      (Decidable (WentBack s.manager.previous now → ∀ t ∈ s.manager.timers, _))
  | .addTimer .. | .cancel _ | .refresh .. | .reset .. => inferInstanceAs (Decidable True)

/-- Each timer of the set is recognised by its callback. -/
theorem Inv.mem_handed_of_cb (h : s.Inv) {now : ℤ} {t : ℕ} (ht : t ∈ s.manager.timers)
    (hcb : (s.manager.objs t).cb ∈ (s.manager.handed now).map fun u => (s.manager.objs u).cb) :
    t ∈ s.manager.handed now := by
  obtain ⟨u, hu, heq⟩ := List.mem_map.mp hcb
  have hsome : (s.manager.objs t).cb.isSome := (h.in_step.armed t).mpr (.inl ht)
  obtain ⟨x, hx⟩ := Option.isSome_iff_exists.mp hsome
  rwa [h.unique t u x x hx (heq.trans hx) rfl]

/-- **One call** is punctual if and only if it finds no timer to hand out early when the clock
has gone back by less than it should have. -/
theorem Inv.punctual_iff (h : s.Inv) (c : TimerCall κ) : s.Punctual c ↔ s.Expired c := by
  cases c with
  | listExpiredCallback now nowTimer clock =>
      obtain ⟨m, hm⟩ := h.in_step.sorted.listExpiredCallback_handed now nowTimer clock
      constructor
      · intro hpunctual hback t ht
        by_contra hlate
        have hhanded : t ∈ s.manager.handed now :=
          mem_handed.mpr ⟨ht, .inl (detectClockRollover_iff.mpr hback.2)⟩
        have := hpunctual _ m hm t ht (List.mem_map_of_mem hhanded) (not_le.mp hlate)
        have := hback.1
        omega
      · intro hexpired cbs m' hm' t ht hcb hlate
        obtain ⟨rfl, -⟩ := Prod.mk.inj (Option.some.inj (hm.symm.trans hm'))
        obtain ⟨-, hdetect | hle⟩ := mem_handed.mp (h.mem_handed_of_cb ht hcb)
        · by_contra hhour
          have := hexpired ⟨not_lt.mp hhour, detectClockRollover_iff.mp hdetect⟩ t ht
          omega
        · omega
  | _ => exact Iff.rfl

/-- **Punctuality.** In a run, no timer fires early except after more than an hour back, if and
only if no call that finds the clock back by less, but by more than 3.6 seconds, finds a timer
that has not expired. -/
theorem punctual_along_iff (h : machine.Reachable s) (cs : List (TimerCall κ)) :
    machine.Meets Punctual s cs ↔ machine.Meets Expired s cs :=
  h.meets_congr (fun _ c _ hr _ => (inv hr).punctual_iff c) cs

theorem init_fresh (now : ℤ) : (machine (κ := κ)).init (fresh κ now) :=
  ⟨fun _ => rfl, rfl, rfl, rfl⟩

/-- The clock goes back by two hours, and later by a second. -/
theorem punctual_two_hours :
    machine.Meets Punctual (fresh Unit 7200000000) [.addTimer 3 10 () true 7200000000 7200000000,
      .listExpiredCallback 0 9 fun _ => 0, .addTimer 5 20000 () false 0 0,
      .listExpiredCallback 9000000 9 fun _ => 9000000,
      .listExpiredCallback 8000000 9 fun _ => 8000000] :=
  (punctual_along_iff (.init (init_fresh 7200000000)) _).mpr (by decide)

/-- Four seconds back, and a timer of ten seconds is handed out at once. -/
theorem punctual_false :
    ∃ s : TimerRun Unit, machine.Reachable s ∧ s.manager.previous = 10000000 ∧
      3 ∈ s.manager.timers ∧ (s.manager.objs 3).expiration = 20000000 ∧
      ∃ cbs m, s.manager.listExpiredCallback 6000000 9 (fun _ => 6000000) = some (cbs, m) ∧
        (s.manager.objs 3).cb ∈ cbs := by
  have hrun : (machine.run (fresh Unit 10000000)
      [.addTimer 3 10000 () false 10000000 10000000]).map
        (fun s => (s.manager.previous, s.manager.timers, s.manager.objs 3,
          (s.manager.listExpiredCallback 6000000 9 fun _ => 6000000).map Prod.fst)) =
      some (10000000, [3], ⟨false, 10000, 20000000, some (0, ())⟩, some [some (0, ())]) := by
    rfl
  obtain ⟨s, hr, hs⟩ := Lts.Reachable.of_map_run hrun (.init (init_fresh 10000000))
  simp only [Prod.mk.injEq] at hs
  obtain ⟨hprevious, htimers, hobj, hcbs⟩ := hs
  obtain ⟨⟨cbs, m⟩, hm, rfl⟩ := Option.map_eq_some_iff.mp hcbs
  exact ⟨s, hr, hprevious, by simp [htimers], by rw [hobj], [some (0, ())], m, hm, by simp [hobj]⟩

end TimerRun

end Easy.Base
