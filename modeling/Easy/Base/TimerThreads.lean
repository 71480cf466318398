import Easy.Base.TimerExpiry
import Easy.Lib.Threads

/-!
The functions of a timer manager on several threads.

`addTimer`, `cancel`, `refresh` and `reset` go through one lock section each,
`listExpiredCallback` goes through two: under the read lock it looks whether there is a
timer, and under the write lock it follows the iterator to the first one. Between them
another thread may take out the last timer.
-/

namespace Easy.Base

open Lib

variable {ι : Type} {κ : Type*}

/-- Where a thread is: in no function, or in `listExpiredCallback` between the two
lock sections, with the reading of the clock that it came with. -/
inductive TimerPc
  | idle
  | checked (now : ℤ)
  deriving DecidableEq

/-- The reading of a thread between the two sections. -/
def TimerPc.reading : TimerPc → Option ℤ
  | .idle => none
  | .checked now => some now

/-- The lock sections. `addTimer` makes its object at an address the set does not
hold. -/
inductive TimerAct (κ : Type*)
  | addTimer (t : ℕ) (interval : ℤ) (cb : Option κ) (repeats : Bool) (now now' : ℤ)
  | cancel (t : ℕ)
  | refresh (t : ℕ) (now : ℤ)
  | reset (t : ℕ) (interval : ℤ) (fromNow : Bool) (now now' : ℤ)
  | check (now : ℤ)
  | process (nowTimer : ℕ) (clock : ℕ → ℤ)

namespace TimerManager

variable {m m' : TimerManager κ} {i : ι} {p p' : TimerPc} {a : TimerAct κ} {now : ℤ}

/-- A manager just constructed, and any threads that call its functions and those of
its timers. -/
def threads (ι : Type) (κ : Type*) : Threads ι (TimerManager κ) TimerPc (TimerAct κ) where
  init m pc := (∀ t, (m.objs t).cb = none) ∧ m.timers = [] ∧ pc = fun _ => .idle
  act _ m p a := match p, a with
    | .idle, .addTimer t interval cb repeats now now' =>
      if t ∈ m.timers then none else some (m.addTimer t interval cb repeats now now', .idle)
    | .idle, .cancel t => (m.cancel t).map fun r => (r.2, .idle)
    | .idle, .refresh t now => some ((m.refresh t now).2, .idle)
    | .idle, .reset t interval fromNow now now' =>
      some ((m.reset t interval fromNow now now').2, .idle)
    | .idle, .check now => some (m, if m.timers.isEmpty then .idle else .checked now)
    | .checked now, .process nowTimer clock =>
      (m.processExpired now nowTimer clock).map fun r => (r.2, .idle)
    | _, _ => none

/-- The lock sections with the state each one leaves. -/
inductive Section (m : TimerManager κ) : TimerPc → TimerAct κ → TimerManager κ → TimerPc → Prop
  | addTimer {t : ℕ} {interval : ℤ} {cb : Option κ} {repeats : Bool} {now now' : ℤ}
      (ht : t ∉ m.timers) : Section m .idle (.addTimer t interval cb repeats now now')
        (m.addTimer t interval cb repeats now now') .idle
  | cancel {t : ℕ} {r : Bool} {m' : TimerManager κ} (hcancel : m.cancel t = some (r, m')) :
      Section m .idle (.cancel t) m' .idle
  | refresh {t : ℕ} {now : ℤ} : Section m .idle (.refresh t now) (m.refresh t now).2 .idle
  | reset {t : ℕ} {interval : ℤ} {fromNow : Bool} {now now' : ℤ} :
      Section m .idle (.reset t interval fromNow now now')
        (m.reset t interval fromNow now now').2 .idle
  | check {now : ℤ} :
      Section m .idle (.check now) m (if m.timers.isEmpty then .idle else .checked now)
  | process {now : ℤ} {nowTimer : ℕ} {clock : ℕ → ℤ} {cbs : List (Option κ)}
      {m' : TimerManager κ} (hprocess : m.processExpired now nowTimer clock = some (cbs, m')) :
      Section m (.checked now) (.process nowTimer clock) m' .idle

/-- There are no other steps. -/
theorem section_of_act (hact : (threads ι κ).act i m p a = some (m', p')) :
    m.Section p a m' p' := by
  cases p with
  | idle =>
      cases a with
      | addTimer t interval cb repeats now now' =>
          obtain ⟨ht, heq⟩ := Option.ite_none_left_eq_some.mp hact
          obtain ⟨rfl, rfl⟩ := Prod.mk.inj (Option.some.inj heq)
          exact .addTimer ht
      | cancel t =>
          obtain ⟨⟨r, m₁⟩, hm₁, hpair⟩ := Option.map_eq_some_iff.mp hact
          obtain ⟨rfl, rfl⟩ := Prod.mk.inj hpair
          exact .cancel hm₁
      | refresh t now =>
          obtain ⟨rfl, rfl⟩ := Prod.mk.inj (Option.some.inj hact)
          exact .refresh
      | reset t interval fromNow now now' =>
          obtain ⟨rfl, rfl⟩ := Prod.mk.inj (Option.some.inj hact)
          exact .reset
      | check now =>
          obtain ⟨rfl, rfl⟩ := Prod.mk.inj (Option.some.inj hact)
          exact .check
      | process nowTimer clock => cases hact
  | checked now =>
      cases a with
      | process nowTimer clock =>
          obtain ⟨⟨cbs, m₁⟩, hm₁, hpair⟩ := Option.map_eq_some_iff.mp hact
          obtain ⟨rfl, rfl⟩ := Prod.mk.inj hpair
          exact .process hm₁
      | _ => cases hact

/-! ### The cases of the member functions -/

section

variable {t : ℕ} {interval : ℤ} {fromNow : Bool} {now' : ℤ}

/-- `cancel` drops the callback and takes the timer out, or finds no callback. -/
theorem cancel_cases {r : Bool} (h : m.cancel t = some (r, m')) :
    ((m.objs t).cb.isSome ∧ t ∈ m.timers ∧ r = true ∧
      m' = (m.erase t).store t { m.objs t with cb := none }) ∨
    ((m.objs t).cb = none ∧ r = false ∧ m' = m) := by
  simp only [cancel] at h
  split at h
  case isTrue hcb =>
    split at h
    case isTrue ht =>
      obtain ⟨rfl, rfl⟩ := Prod.mk.inj (Option.some.inj h)
      exact .inl ⟨hcb, ht, rfl, rfl⟩
    case isFalse => cases h
  case isFalse hcb =>
    obtain ⟨rfl, rfl⟩ := Prod.mk.inj (Option.some.inj h)
    exact .inr ⟨by simpa using hcb, rfl, rfl⟩

/-- The timer object after `refresh`. -/
def refreshed (o : Timer κ) (now : ℤ) : Timer κ := { o with expiration := addTime now o.interval }

theorem refresh_cases (m : TimerManager κ) (t : ℕ) (now : ℤ) :
    ((m.objs t).cb.isSome ∧ t ∈ m.timers ∧ (m.refresh t now).1 = true ∧
      (m.refresh t now).2.objs = ((m.erase t).store t (refreshed (m.objs t) now)).objs ∧
      (m.refresh t now).2.timers = OrderedSet.insert
        ((m.erase t).store t (refreshed (m.objs t) now)).less t (m.erase t).timers ∧
      (m.refresh t now).2.previous = m.previous) ∨
    (((m.objs t).cb = none ∨ t ∉ m.timers) ∧ m.refresh t now = (false, m)) := by
  simp only [refresh]
  split_ifs with hcb ht
  · exact .inr ⟨.inl (by simpa using hcb), rfl⟩
  · exact .inl ⟨by simpa [Option.isSome_iff_ne_none] using hcb, ht, rfl, rfl, rfl, rfl⟩
  · exact .inr ⟨.inr ht, rfl⟩

/-- The timer object after `reset`. -/
def resetTo (o : Timer κ) (interval : ℤ) (fromNow : Bool) (now : ℤ) : Timer κ :=
  { o with
    interval := interval
    expiration := addTime (if fromNow then now else addTime o.expiration (-o.interval)) interval }

theorem reset_cases (m : TimerManager κ) (t : ℕ) (interval : ℤ) (fromNow : Bool) (now now' : ℤ) :
    (interval = (m.objs t).interval ∧ fromNow = false ∧
      m.reset t interval fromNow now now' = (true, m)) ∨
    (¬ (interval = (m.objs t).interval ∧ fromNow = false) ∧ (m.objs t).cb.isSome ∧ t ∈ m.timers ∧
      m.reset t interval fromNow now now' =
        (true, ((m.erase t).store t (resetTo (m.objs t) interval fromNow now)).addTimerPtr t
          now')) ∨
    (¬ (interval = (m.objs t).interval ∧ fromNow = false) ∧
      ((m.objs t).cb = none ∨ t ∉ m.timers) ∧
      m.reset t interval fromNow now now' = (false, m)) := by
  simp only [reset, Bool.not_eq_true']
  by_cases hsame : interval = (m.objs t).interval ∧ fromNow = false
  · rw [if_pos hsame]
    exact .inl ⟨hsame.1, hsame.2, rfl⟩
  rw [if_neg hsame]
  by_cases hcb : (m.objs t).cb.isNone
  · rw [if_pos hcb]
    exact .inr (.inr ⟨hsame, .inl (by simpa using hcb), rfl⟩)
  rw [if_neg hcb]
  by_cases ht : t ∈ m.timers
  · rw [if_neg (not_not.mpr ht)]
    exact .inr (.inl ⟨hsame, by simpa [Option.isSome_iff_ne_none] using hcb, ht, rfl⟩)
  · rw [if_pos ht]
    exact .inr (.inr ⟨hsame, .inr ht, rfl⟩)

end

/-! ### Where the iterator is followed -/

theorem Sorted.isSome_processExpired (h : m.Sorted) {nowTimer : ℕ} {clock : ℕ → ℤ} :
    (m.processExpired now nowTimer clock).isSome ↔
      RollsOver m.previous now ∨ m.timers ≠ [] := by
  rw [← detectClockRollover_iff]
  by_cases hok : (m.detectClockRollover now).1 = true ∨ m.timers ≠ []
  · obtain ⟨m', hm', -⟩ := h.processExpired_handed hok nowTimer clock
    simp [hm', hok]
  · obtain ⟨hroll, hnil⟩ := not_or.mp hok
    rw [processExpired_empty (by simpa using hroll) (not_not.mp hnil)]
    simpa using hok

/-- No thread follows the iterator to the first timer of an empty set if it goes on. -/
def Safe (s : Threads.State ι (TimerManager κ) TimerPc) : Prop :=
  ∀ j, ∀ now ∈ (s.pc j).reading, ∀ nowTimer clock,
    (s.shared.processExpired now nowTimer clock).isSome

theorem safe_iff {s : Threads.State ι (TimerManager κ) TimerPc} (h : s.shared.Sorted) :
    Safe s ↔ ∀ j, ∀ now ∈ (s.pc j).reading,
      RollsOver s.shared.previous now ∨ s.shared.timers ≠ [] := by
  refine forall₃_congr fun j now _ => ?_
  constructor
  · exact fun hsafe => h.isSome_processExpired.mp (hsafe 0 fun _ => 0)
  · exact fun hok nowTimer clock => h.isSome_processExpired.mpr hok

/-! ### One lock section -/

/-- The section takes out all timers there are and puts none back. -/
def TakesLast (m : TimerManager κ) : TimerPc → TimerAct κ → Prop
  | .idle, .cancel t => m.timers = [t] ∧ (m.objs t).cb.isSome
  | .checked now, .process _ _ => ∀ t ∈ m.timers,
      (RollsOver m.previous now ∨ (m.objs t).expiration ≤ now) ∧ (m.objs t).repeats = false
  | _, _ => False

instance (m : TimerManager κ) : ∀ p a, Decidable (m.TakesLast p a)
  | .idle, .cancel _ => inferInstanceAs (Decidable (_ ∧ _))
  | .checked _, .process _ _ => inferInstanceAs (Decidable (∀ t ∈ m.timers, _))
  | .idle, .addTimer .. | .idle, .refresh .. | .idle, .reset .. | .idle, .check _
  | .idle, .process .. | .checked _, .addTimer .. | .checked _, .cancel _
  | .checked _, .refresh .. | .checked _, .reset .. | .checked _, .check _ =>
    inferInstanceAs (Decidable False)

/-- `previous_` after a section of a thread at `p`. -/
def previousAfter (m : TimerManager κ) : TimerPc → ℤ
  | .idle => m.previous
  | .checked now => now

/-- What a section does to the emptiness of the set, and to `previous_` where the set
is empty after it. -/
inductive Effect (m : TimerManager κ) (p : TimerPc) (a : TimerAct κ) (m' : TimerManager κ)
    (p' : TimerPc) : Prop
  | some_left (hleft : m'.timers ≠ []) (htakes : ¬ m.TakesLast p a)
  | last_taken (hnil : m'.timers = []) (htakes : m.TakesLast p a)
      (hprevious : m'.previous = m.previousAfter p) (hidle : p' = .idle)
  | none_there (hnil : m'.timers = []) (hnil' : m.timers = []) (htakes : ¬ m.TakesLast p a)
      (hprevious : m'.previous = m.previous) (hidle : p' = .idle)

theorem insert_ne_nil {t : ℕ} {l : List ℕ} : OrderedSet.insert m.less t l ≠ [] := by
  cases l with
  | nil => simp [OrderedSet.insert]
  | cons u us =>
      rw [OrderedSet.insert]
      split_ifs <;> simp

/-- A section that returns without a change. -/
theorem Effect.same (htakes : ¬ m.TakesLast p a) : m.Effect p a m .idle := by
  by_cases hnil : m.timers = []
  · exact .none_there hnil hnil htakes rfl rfl
  · exact .some_left hnil htakes

theorem effect_cancel {t : ℕ} {r : Bool} (h : m.cancel t = some (r, m')) :
    m.Effect .idle (.cancel t) m' .idle := by
  rcases cancel_cases h with ⟨hcb, ht, -, rfl⟩ | ⟨hcb, -, rfl⟩
  · by_cases hlast : m.timers = [t]
    · refine .last_taken ?_ ⟨hlast, hcb⟩ rfl rfl
      change m.timers.erase t = []
      simp [hlast]
    · refine .some_left ?_ fun htakes => hlast htakes.1
      change m.timers.erase t ≠ []
      rw [ne_eq, List.erase_eq_nil_iff, not_or]
      exact ⟨List.ne_nil_of_mem ht, hlast⟩
  · have hnone : ¬ (m'.objs t).cb.isSome := by simp [hcb]
    exact .same fun htakes => hnone htakes.2

theorem effect_refresh (t : ℕ) (now : ℤ) :
    m.Effect .idle (.refresh t now) (m.refresh t now).2 .idle := by
  rcases refresh_cases m t now with ⟨-, -, -, -, htimers, -⟩ | ⟨-, heq⟩
  · refine .some_left ?_ id
    rw [htimers]
    exact insert_ne_nil
  · rw [heq]
    exact .same id

theorem effect_reset (t : ℕ) (interval : ℤ) (fromNow : Bool) (now now' : ℤ) :
    m.Effect .idle (.reset t interval fromNow now now') (m.reset t interval fromNow now now').2
      .idle := by
  rcases reset_cases m t interval fromNow now now' with ⟨-, -, heq⟩ | ⟨-, -, -, heq⟩ | ⟨-, -, heq⟩
  · rw [heq]
    exact .same id
  · rw [heq]
    refine .some_left ?_ id
    rw [timers_addTimerPtr]
    exact insert_ne_nil
  · rw [heq]
    exact .same id

/-- What a run of the second section of `listExpiredCallback` does. -/
theorem Sorted.processed (h : m.Sorted) {nowTimer : ℕ} {clock : ℕ → ℤ} {cbs : List (Option κ)}
    (hp : m.processExpired now nowTimer clock = some (cbs, m')) : m.Processed now m' := by
  have hok := h.isSome_processExpired.mp (Option.isSome_of_mem hp)
  rw [← detectClockRollover_iff] at hok
  obtain ⟨m₁, hm₁, hprocessed⟩ := h.processExpired_handed hok nowTimer clock
  obtain ⟨-, rfl⟩ := Prod.mk.inj (Option.some.inj (hm₁.symm.trans hp))
  exact hprocessed

theorem Sorted.effect_process (h : m.Sorted) {nowTimer : ℕ} {clock : ℕ → ℤ}
    {cbs : List (Option κ)} (hp : m.processExpired now nowTimer clock = some (cbs, m')) :
    m.Effect (.checked now) (.process nowTimer clock) m' .idle := by
  have hprocessed := h.processed hp
  have htakes : m.TakesLast (.checked now) (.process nowTimer clock) ↔ m'.timers = [] := by
    rw [List.eq_nil_iff_forall_not_mem, TakesLast]
    refine forall_congr' fun t => ?_
    rw [hprocessed.mem_timers, mem_handed, detectClockRollover_iff]
    simp
    tauto
  by_cases hnil : m'.timers = []
  · exact .last_taken hnil (htakes.mpr hnil) hprocessed.previous_eq rfl
  · exact .some_left hnil fun ht => hnil (htakes.mp ht)

theorem effect_act (h : m.Sorted) (hact : (threads ι κ).act i m p a = some (m', p')) :
    m.Effect p a m' p' := by
  cases section_of_act hact with
  | addTimer ht =>
      refine .some_left ?_ id
      rw [addTimer, timers_addTimerPtr]
      exact insert_ne_nil
  | cancel hcancel => exact effect_cancel hcancel
  | refresh => exact effect_refresh _ _
  | reset => exact effect_reset ..
  | check =>
      split
      case isTrue => exact .same id
      case isFalse hne => exact .some_left (by simpa using hne) id
  | process hprocess => exact h.effect_process hprocess

/-! ### Timers with a callback -/

/-- The set is in order, and every timer that has a callback is in it. -/
structure Holds (m : TimerManager κ) : Prop where
  sorted : m.Sorted
  of_cb : ∀ t, (m.objs t).cb.isSome → t ∈ m.timers

/-- A timer that is in no set, or has been taken out, is put into it. -/
theorem Holds.insert {t : ℕ} {o : Timer κ} (hsorted : m.Sorted) (ht : t ∉ m.timers)
    (hof : ∀ u ≠ t, (m.objs u).cb.isSome → u ∈ m.timers) (hobjs : m'.objs = (m.store t o).objs)
    (htimers : m'.timers = OrderedSet.insert (m.store t o).less t m.timers) : m'.Holds := by
  constructor
  · rw [Sorted, htimers, less_congr hobjs]
    exact (hsorted.store o ht).insert t
  · intro u hu
    rw [htimers]
    refine (mem_insert (m := m.store t o)).mpr ?_
    by_cases hut : u = t
    · exact .inl hut
    · rw [hobjs, objs_store_ne o hut] at hu
      exact .inr (hof u hut hu)

theorem Holds.of_erase (h : m.Holds) (t : ℕ) :
    ∀ u ≠ t, ((m.erase t).objs u).cb.isSome → u ∈ (m.erase t).timers :=
  fun u hut hu => h.sorted.mem_erase.mpr ⟨hut, h.of_cb u hu⟩

theorem Holds.cancel (h : m.Holds) {t : ℕ} {r : Bool} (hc : m.cancel t = some (r, m')) :
    m'.Holds := by
  rcases cancel_cases hc with ⟨-, -, -, rfl⟩ | ⟨-, -, rfl⟩
  · refine ⟨(h.sorted.erase t).store _ (h.sorted.not_mem_erase t), fun u hu => ?_⟩
    by_cases hut : u = t
    · subst hut
      simp at hu
    · rw [objs_store_ne _ hut] at hu
      exact h.of_erase t u hut hu
  · exact h

theorem Holds.refresh (h : m.Holds) (t : ℕ) (now : ℤ) : (m.refresh t now).2.Holds := by
  rcases refresh_cases m t now with ⟨-, -, -, hobjs, htimers, -⟩ | ⟨-, heq⟩
  · exact .insert (h.sorted.erase t) (h.sorted.not_mem_erase t) (h.of_erase t) hobjs htimers
  · rwa [heq]

theorem Holds.reset (h : m.Holds) (t : ℕ) (interval : ℤ) (fromNow : Bool) (now now' : ℤ) :
    (m.reset t interval fromNow now now').2.Holds := by
  rcases reset_cases m t interval fromNow now now' with ⟨-, -, heq⟩ | ⟨-, -, -, heq⟩ | ⟨-, -, heq⟩
  · rwa [heq]
  · rw [heq]
    exact .insert (h.sorted.erase t) (h.sorted.not_mem_erase t) (h.of_erase t)
      (objs_addTimerPtr ..) (timers_addTimerPtr ..)
  · rwa [heq]

/-- A timer that is handed out and not put back has lost its callback. -/
theorem Processed.of_cb (h : m.Processed now m') (hof : ∀ t, (m.objs t).cb.isSome → t ∈ m.timers) :
    ∀ t, (m'.objs t).cb.isSome → t ∈ m'.timers := by
  intro t ht
  rw [h.mem_timers]
  rw [h.objs_eq] at ht
  split at ht
  case isTrue hout =>
    rw [handedOut] at ht
    split at ht
    case isTrue hrep => exact ⟨(mem_handed.mp hout).1, fun _ => hrep⟩
    case isFalse => cases ht
  case isFalse hout => exact ⟨hof t ht, fun hmem => absurd hmem hout⟩

theorem Holds.of_act (h : m.Holds)
    (hact : (threads ι κ).act i m p a = some (m', p')) : m'.Holds := by
  cases section_of_act hact with
  | addTimer ht =>
      exact .insert h.sorted ht (fun u _ hu => h.of_cb u hu) (objs_addTimerPtr ..)
        (timers_addTimerPtr ..)
  | cancel hcancel => exact h.cancel hcancel
  | refresh => exact h.refresh _ _
  | reset => exact h.reset ..
  | check => exact h
  | process hprocess =>
      have hprocessed := h.sorted.processed hprocess
      exact ⟨hprocessed.sorted, hprocessed.of_cb h.of_cb⟩

/-! ### Runs -/

section Runs

variable [DecidableEq ι] {s s' : Threads.State ι (TimerManager κ) TimerPc}

/-- A section that takes out the last timer comes between the two sections of another
thread only if the reading of that one will be taken for a rollover. -/
def Spares (s : Threads.State ι (TimerManager κ) TimerPc) (l : ι × TimerAct κ) : Prop :=
  s.shared.TakesLast (s.pc l.1) l.2 →
    ∀ j ≠ l.1, ∀ now ∈ (s.pc j).reading, RollsOver (s.shared.previousAfter (s.pc l.1)) now

instance [Fintype ι] (s : Threads.State ι (TimerManager κ) TimerPc) (l : ι × TimerAct κ) :
    Decidable (Spares s l) := inferInstanceAs (Decidable (_ → ∀ j ≠ l.1, _))

theorem holds_of_reachable (h : (threads ι κ).lts.Reachable s) : s.shared.Holds := by
  refine h.invariant (I := fun s => s.shared.Holds) (fun s hs => ?_) fun s l s' hstep hs => ?_
  · obtain ⟨hcb, hnil, -⟩ := hs
    refine ⟨?_, fun t ht => ?_⟩
    · rw [Sorted, hnil]
      exact List.Pairwise.nil
    · simp [hcb] at ht
  · obtain ⟨m', p', hact, rfl⟩ := Threads.step_eq_some.mp hstep
    exact hs.of_act hact

/-- The thread that has gone through a section is between none. -/
theorem forall_reading_update {pc : ι → TimerPc} {P : ℤ → Prop} :
    (∀ j, ∀ now ∈ (Function.update pc i .idle j).reading, P now) ↔
      ∀ j ≠ i, ∀ now ∈ (pc j).reading, P now := by
  refine forall_congr' fun j => ?_
  by_cases hj : j = i
  · subst hj
    simp [TimerPc.reading]
  · simp [hj]

/-- **One lock section** keeps all threads safe if and only if it spares the last timer
of those that have seen one. -/
theorem safe_step {l : ι × TimerAct κ} (hstep : (threads ι κ).lts.step s l = some s')
    (hholds : s.shared.Holds) (hsafe : Safe s) : Safe s' ↔ Spares s l := by
  obtain ⟨m', p', hact, rfl⟩ := Threads.step_eq_some.mp hstep
  rw [safe_iff (hholds.of_act hact).sorted, Spares]
  rw [safe_iff hholds.sorted] at hsafe
  cases effect_act hholds.sorted hact with
  | some_left hleft htakes => exact iff_of_true (fun _ _ _ => .inr hleft) fun h => absurd h htakes
  | last_taken hnil htakes hprevious hidle =>
      rw [imp_iff_right htakes, hidle, forall_reading_update]
      simp only [hnil, hprevious, ne_eq, not_true_eq_false, or_false]
  | none_there hnil hnil' htakes hprevious hidle =>
      simp only [hnil', ne_eq, not_true_eq_false, or_false] at hsafe
      refine iff_of_true ?_ fun h => absurd h htakes
      rw [hidle, forall_reading_update, hprevious]
      exact fun j _ now hpc => .inl (hsafe j now hpc)

/-- **The first timer of an empty set** is looked for in no state of a run if and only if
each section of the run spares the last timer of the threads that have seen one. -/
theorem safe_along_iff (h : (threads ι κ).lts.init s) (as : List (ι × TimerAct κ)) :
    (threads ι κ).lts.Along Safe s as ↔ (threads ι κ).lts.Meets Spares s as := by
  refine Lts.along_iff_meets (I := fun s => s.shared.Holds) ?_ ?_
    (holds_of_reachable (.init h)) ?_ as
  · intro s l s' hstep hholds _
    obtain ⟨m', p', hact, rfl⟩ := Threads.step_eq_some.mp hstep
    exact hholds.of_act hact
  · exact fun s l s' hstep hholds hsafe => safe_step hstep hholds hsafe
  · obtain ⟨-, -, hpc⟩ := h
    intro j now hj
    rw [hpc] at hj
    cases hj

end Runs

/-- Two threads, the manager constructed at `0`. -/
def twoThreads : Threads.State Bool (TimerManager Unit) TimerPc :=
  ⟨⟨fun _ => ⟨false, 0, 0, none⟩, [], none, 0⟩, fun _ => .idle⟩

theorem init_twoThreads : (threads Bool Unit).lts.init twoThreads := ⟨fun _ => rfl, rfl, rfl⟩

/-- A timer is handed out by a thread that is alone, and a second one is cancelled. -/
theorem safe_along_alone :
    (threads Bool Unit).lts.Along Safe twoThreads [(true, .addTimer 3 1 (some ()) false 0 0),
      (false, .check 2000), (false, .process 5 fun _ => 2000),
      (true, .addTimer 3 1 (some ()) false 0 0), (false, .cancel 3), (true, .check 3000)] :=
  (safe_along_iff init_twoThreads _).mpr (by decide)

/-- A thread sees the only timer, and the other one cancels it. -/
theorem safe_false :
    ∃ s : Threads.State Bool (TimerManager Unit) TimerPc, (threads Bool Unit).lts.Reachable s ∧
      s.pc true = .checked 2000 ∧ s.shared.timers = [] ∧
      s.shared.processExpired 2000 5 (fun _ => 2000) = none := by
  have hrun : ((threads Bool Unit).lts.run twoThreads [(true, .addTimer 3 1 (some ()) false 0 0),
      (true, .check 2000), (false, .cancel 3)]).map
        (fun s => (s.pc true, s.shared.timers, s.shared.previous)) =
      some (.checked 2000, [], 0) := by
    decide
  obtain ⟨s, hr, hs⟩ := Lts.Reachable.of_map_run hrun (.init init_twoThreads)
  obtain ⟨hpc, hnil, hprevious⟩ : s.pc true = .checked 2000 ∧ s.shared.timers = [] ∧
      s.shared.previous = 0 := by simpa using hs
  refine ⟨s, hr, hpc, hnil, processExpired_empty ?_ hnil 5 _⟩
  rw [Bool.eq_false_iff, ne_eq, detectClockRollover_iff, hprevious]
  decide

end TimerManager

end Easy.Base
