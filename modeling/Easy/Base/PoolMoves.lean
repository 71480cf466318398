import Easy.Base.Pool

/-!
What one action of a pool thread can do.

`Move` lists the actions of `PoolConfig.act` with the state each one leaves, and
`act_move` says that there are no others. The proofs about all runs go by cases
on it. A call of `schedule` is known by what it appends to the queue.
-/

namespace Easy.Base

open Lib

variable {ι : Type*}

namespace Shared

/-- `g` with tasks at the end of the queue. -/
def append (g : Shared ι) (new : List (Task ι)) : Shared ι :=
  { g with tasks := g.tasks ++ new, nextTask := g.nextTask + new.length }

/-- What a call of `schedule` appends: tasks with the next numbers, and if it
wakes nobody then nothing, or to a queue that was not empty. -/
structure Appends (g : Shared ι) (new : List (Task ι)) (need_weakup : Bool) : Prop where
  ids : ∀ n, (∃ t ∈ new, t.id = n) ↔ g.nextTask ≤ n ∧ n < g.nextTask + new.length
  quiet : need_weakup = false → new = [] ∨ g.tasks ≠ []

/-- The fibers of a list of tasks are among `fs`. -/
def FibersIn (new : List (Task ι)) (fs : List ℕ) : Prop := ∀ t ∈ new, ∀ f ∈ t.fiber, f ∈ fs

theorem push_eq (g : Shared ι) (items : List (Item ι)) :
    ∃ need new, g.push items = (need, g.append new) ∧ g.Appends new need ∧
      ∀ t ∈ new, t.MadeOf items := by
  obtain ⟨new, hq, hfrom, hids⟩ := scheduleRange_eq items (Queue.mk g.tasks g.nextTask) false
  refine ⟨_, new, by simp only [push, hq, append]; rfl, ⟨hids, fun hneed => ?_⟩, hfrom⟩
  by_cases hnil : items = []
  · subst hnil
    simp only [Queue.scheduleRange, Queue.mk.injEq] at hq
    exact .inl (by simpa using hq.1)
  · exact .inr (scheduleRange_false (q := ⟨g.tasks, g.nextTask⟩) hneed hnil)

/-- `schedule` is given pointers that are out. -/
theorem mem_of_release {handed rest : List ℕ} {items : List (Item ι)}
    (h : release handed items = some rest) :
    (∀ f ∈ rest, f ∈ handed) ∧
      ∀ item ∈ items, ∀ f, item.work = some (.fiber f) → f ∈ handed := by
  induction items generalizing handed with
  | nil =>
      simp only [release, Option.some.injEq] at h
      simp [h]
  | cons item items ih =>
      rcases item with ⟨_ | ⟨k | f⟩, pin⟩
      · obtain ⟨h₁, h₂⟩ := ih h
        exact ⟨h₁, by simpa using h₂⟩
      · obtain ⟨h₁, h₂⟩ := ih h
        exact ⟨h₁, by simpa using h₂⟩
      · simp only [release] at h
        split at h
        · rename_i hf
          obtain ⟨h₁, h₂⟩ := ih h
          refine ⟨fun f' hf' => List.mem_of_mem_erase (h₁ f' hf'), ?_⟩
          simp only [List.forall_mem_cons, Option.some.injEq, Work.fiber.injEq, forall_eq']
          exact ⟨hf, fun item hitem f' hw => List.mem_of_mem_erase (h₂ item hitem f' hw)⟩
        · cases h

end Shared

/-- Where a thread may call `schedule`: in code that is not the scheduler's, in
a fiber, and in the event of a channel. -/
inductive Loc.Calls : Loc ι → Prop
  | outside : Calls .outside
  | exec (t f : ℕ) : Calls (.exec t f)
  | channel (es : List Ready) : Calls (.events (.channel :: es))

/-- Where the count of timers and of pending events may change: in a fiber and
in the event of a channel. -/
inductive Loc.Accounts : Loc ι → Prop
  | exec (t f : ℕ) : Accounts (.exec t f)
  | channel (es : List Ready) : Accounts (.events (.channel :: es))

/-- What `take` leaves and hands out to thread `i`: the first eligible task, or
nothing if there is none. -/
inductive Takes (i : ι) (g : Shared ι) : Option (Task ι) → List (Task ι) → Prop
  | none (h : ∀ t ∈ g.tasks, ¬ t.Eligible g.state i) : Takes i g none g.tasks
  | some {t : Task ι} {l l' : List (Task ι)} (h : g.tasks = l ++ t :: l')
      (he : t.Eligible g.state i) (hw : t.fiber.isSome ∨ t.cb.isSome)
      (hl : ∀ u ∈ l, ¬ u.Eligible g.state i) : Takes i g (some t) (l ++ l')

theorem takes_of_take [DecidableEq ι] {i : ι} {g : Shared ι} {r : Option (Task ι)}
    {rest : List (Task ι)} (h : take g.state i g.tasks = .ok (r, rest)) : Takes i g r rest := by
  rcases take_ok h with ⟨rfl, rfl, hall⟩ | ⟨t, l, l', rfl, hsplit, rfl, he, hw, hl⟩
  · exact .none hall
  · exact .some hsplit he hw hl

/-- A task that was taken and leaves nothing was the only one. -/
theorem eq_singleton_of_takes {i : ι} {g : Shared ι} {task : Task ι}
    (h : Takes i g (some task) []) : g.tasks = [task] ∧ task.Eligible g.state i := by
  generalize hr : some task = r at h
  generalize hl : ([] : List (Task ι)) = rest at h
  cases h with
  | none => cases hr
  | some hsplit he hw hbefore =>
      obtain rfl := Option.some.inj hr
      obtain ⟨rfl, rfl⟩ := List.append_eq_nil_iff.mp hl.symm
      exact ⟨hsplit, he⟩

/-- The only task, if it may be taken, is. -/
theorem takes_singleton {i : ι} {g : Shared ι} {task : Task ι} {r : Option (Task ι)}
    {rest : List (Task ι)} (h : Takes i g r rest) (ht : g.tasks = [task])
    (he : task.Eligible g.state i) : r = some task ∧ rest = [] := by
  cases h with
  | none hnot => exact absurd he (hnot task (by simp [ht]))
  | some hsplit =>
      rw [ht] at hsplit
      rcases List.append_eq_singleton_iff.mp hsplit.symm with ⟨rfl, h⟩ | ⟨-, h⟩
      · obtain ⟨rfl, rfl⟩ := List.cons.inj h
        exact ⟨rfl, rfl⟩
      · cases h

/-- The actions of thread `i`, by what they leave. -/
inductive Move (c : PoolConfig ι) (i : ι) (g : Shared ι) :
    Pc ι → Act ι → Shared ι → Pc ι → Prop
  | schedule {k : Loc ι} (hk : k.Calls) {items : List (Item ι)} {handed : List ℕ}
      {new : List (Task ι)} {need : Bool} (hsub : ∀ f ∈ handed, f ∈ g.handed)
      (happ : g.Appends new need) (hfrom : ∀ t ∈ new, t.MadeOf items)
      (hfib : Shared.FibersIn new g.handed) :
      Move c i g (.to k) (.schedule items) ({ g with handed := handed }.append new)
        (c.weakup need k)
  | newFiber {k : Loc ι} (hk : k = .outside ∨ ∃ t f, k = .exec t f) :
      Move c i g (.to k) .newFiber
        { g with nextFiber := g.nextFiber + 1, handed := g.handed ++ [g.nextFiber] } (.to k)
  | addTimer :
      Move c i g (.to .outside) .addTimer { g with timers := g.timers + 1 } (.to .outside)
  | stopEarly (hrun : g.running = true) (hc : c.caller.isSome) (ht : c.threads = []) :
      Move c i g (.to .outside) .stop { g with running := false }
        (.to (.stopCheck true c.canStop))
  | stop (hrun : g.running = true) (hc : c.caller.isSome → c.threads ≠ []) :
      Move c i g (.to .outside) .stop { g with running := false }
        (.to (.stopLoop c.threads.length))
  | takeSome {task : Task ι} {rest : List (Task ι)} (h : Takes i g (some task) rest) :
      Move c i g (.to .top) .step { g with tasks := rest } (.to (.taken task))
  | takeNone (h : ∀ t ∈ g.tasks, ¬ t.Eligible g.state i) :
      Move c i g (.to .top) .step g (.to .null)
  | prepareCb {task : Task ι} (hf : task.fiber = none) :
      Move c i g (.to (.taken task)) .step { g with nextFiber := g.nextFiber + 1 }
        (.to (.prepared task.id g.nextFiber))
  | prepareFiber {task : Task ι} {f : ℕ} (hf : task.fiber = some f) :
      Move c i g (.to (.taken task)) .step g (.to (.prepared task.id f))
  | skipEmpty {task : Task ι} (hf : task.fiber = none) (hcb : task.cb = none) :
      Move c i g (.to (.taken task)) .step g (.to .top)
  | skip {t f : ℕ} :
      Move c i g (.to (.prepared t f)) .step { g with skipped := g.skipped ++ [t] } (.to .top)
  | unfinished {t f : ℕ} : Move c i g (.to (.prepared t f)) .step g (.to (.unfinished t f))
  | increment {t f : ℕ} :
      Move c i g (.to (.unfinished t f)) .step
        { g with activeThreadNums := g.activeThreadNums + 1 } (.to (.counted t f))
  | resumable {t f : ℕ} : Move c i g (.to (.counted t f)) .step g (.to (.asserted t f))
  | resume {t f : ℕ} :
      Move c i g (.to (.asserted t f)) .step (g.store f .exec) (.to (.exec t f))
  | handOver {t f : ℕ} :
      Move c i g (.to (.exec t f)) .handOver { g with handed := g.handed ++ [f] }
        (.to (.exec t f))
  | account {k : Loc ι} (hk : k.Accounts) {timers : ℕ} {pending : ℤ} :
      Move c i g (.to k) (.account timers pending)
        { g with timers := timers, pendingEventCount := pending } (.to k)
  | yieldToHold {t f : ℕ} :
      Move c i g (.to (.exec t f)) .yieldToHold (g.store f .hold) (.to (.stored t f))
  | schedYield {t f : ℕ} :
      Move c i g (.to (.exec t f)) .schedYield g (.to (.stored t f))
  | finish {t f : ℕ} {except : Bool} {s : FiberState} :
      Move c i g (.to (.exec t f)) (.finish except) (g.store f s) (.to (.stored t f))
  | switchOut {t f : ℕ} : Move c i g (.to (.stored t f)) .step g (.to (.switched t f))
  | settle {t f : ℕ} {state : FiberState} :
      Move c i g (.to (.switched t f)) .step g (.to (.settling t f state))
  | settleHold {t f : ℕ} {state : FiberState} :
      Move c i g (.to (.settling t f state)) .step
        (Shared.store { g with handled := g.handled ++ [t] } f .hold) (.to .handled)
  | settleReady {t f : ℕ} {state : FiberState} {new : List (Task ι)} {need : Bool}
      (happ : g.Appends new need) (hfib : Shared.FibersIn new [f]) :
      Move c i g (.to (.settling t f state)) .step
        (Shared.append { g with handled := g.handled ++ [t] } new) (c.weakup need .handled)
  | settleDone {t f : ℕ} {state : FiberState} :
      Move c i g (.to (.settling t f state)) .step { g with handled := g.handled ++ [t] }
        (.to .handled)
  | decrement :
      Move c i g (.to .handled) .step { g with activeThreadNums := g.activeThreadNums - 1 }
        (.to .top)
  | idle :
      Move c i g (.to .null) .step { g with idleThreadNums := g.idleThreadNums + 1 }
        (.to (.check c.canStop))
  | checkNext {stage stage' : CanStop} (h : stage.eval g = .inl stage') :
      Move c i g (.to (.check stage)) .step g (.to (.check stage'))
  | checkTrue {stage : CanStop} (h : stage.eval g = .inr true) :
      Move c i g (.to (.check stage)) .step g (.to .finishing)
  | checkFalse {stage : CanStop} (h : stage.eval g = .inr false) (hio : c.io = true) :
      Move c i g (.to (.check stage)) .step g (.to .parked)
  | checkYield {stage : CanStop} (h : stage.eval g = .inr false) (hio : c.io = false) :
      Move c i g (.to (.check stage)) .step g (.to .leaving)
  | block : Move c i g (.to .parked) .step g (.to .waiting)
  | wake {es : List Ready} (hne : es ≠ []) (hpipe : .weakup ∈ es → 0 < g.pipe) :
      Move c i g (.to .waiting) (.wake es) g (.to (.events es))
  | eventsNil : Move c i g (.to (.events [])) .step g (.to .leaving)
  | drain {es : List Ready} :
      Move c i g (.to (.events (.weakup :: es))) .step { g with pipe := 0 } (.to (.events es))
  | expire {es : List Ready} {timers : ℕ} {cbs : List (Option ℕ)} :
      Move c i g (.to (.events (.timerfd :: es))) (.expire timers cbs) { g with timers := timers }
        (.to (.expired cbs es))
  | expiredNil {es : List Ready} :
      Move c i g (.to (.expired [] es)) .step g (.to (.events es))
  | expiredPush {cbs : List (Option ℕ)} {es : List Ready} {new : List (Task ι)} {need : Bool}
      (happ : g.Appends new need) (hfib : Shared.FibersIn new []) :
      Move c i g (.to (.expired cbs es)) .step (g.append new) (c.weakup need (.events es))
  | dispatched {es : List Ready} :
      Move c i g (.to (.events (.channel :: es))) .step g (.to (.events es))
  | leave :
      Move c i g (.to .leaving) .step { g with idleThreadNums := g.idleThreadNums - 1 } (.to .top)
  | finished :
      Move c i g (.to .finishing) .step { g with idleThreadNums := g.idleThreadNums - 1 }
        (.to .last)
  | lastSome {task : Task ι} {rest : List (Task ι)} (h : Takes i g (some task) rest) :
      Move c i g (.to .last) .step { g with tasks := rest } (.to (.left (some task)))
  | lastNone (h : ∀ t ∈ g.tasks, ¬ t.Eligible g.state i) :
      Move c i g (.to .last) .step g (.to (.left none))
  | exitCaller {r : Option (Task ι)} : Move c i g (.to (.left r)) .step g (.to .join)
  | exit {r : Option (Task ι)} :
      Move c i g (.to (.left r)) .step { g with exited := g.exited ++ [i] } (.to .returned)
  | stopLoop {k : ℕ} :
      Move c i g (.to (.stopLoop (k + 1))) .step g (c.weakup true (.stopLoop k))
  | stopJoin (hc : c.caller = none) : Move c i g (.to (.stopLoop 0)) .step g (.to .join)
  | stopCaller (hc : c.caller.isSome) :
      Move c i g (.to (.stopLoop 0)) .step g (c.weakup true (.stopCheck false c.canStop))
  | stopNext {early : Bool} {stage stage' : CanStop} (h : stage.eval g = .inl stage') :
      Move c i g (.to (.stopCheck early stage)) .step g (.to (.stopCheck early stage'))
  | stopTrue {early : Bool} {stage : CanStop} (h : stage.eval g = .inr true) :
      Move c i g (.to (.stopCheck early stage)) .step g (.to (if early then .returned else .join))
  | stopFalse {early : Bool} {stage : CanStop} (h : stage.eval g = .inr false) :
      Move c i g (.to (.stopCheck early stage)) .step g
        (.to (if early then .stopLoop c.threads.length else .top))
  | joined : Move c i g (.to .join) .step g (.to .returned)
  | weakupRead {k : Loc ι} (hidle : 0 < g.idleThreadNums) :
      Move c i g ⟨k, some .read⟩ .step g ⟨k, some .write⟩
  | weakupNone {k : Loc ι} (hidle : ¬ 0 < g.idleThreadNums) :
      Move c i g ⟨k, some .read⟩ .step g (.to k)
  | weakupWrite {k : Loc ι} :
      Move c i g ⟨k, some .write⟩ .step { g with pipe := g.pipe + 1 } (.to k)

namespace PoolConfig

variable {c : PoolConfig ι} {i : ι} {g g' : Shared ι} {p p' : Pc ι} {a : Act ι}

theorem move_schedule {k : Loc ι} {items : List (Item ι)} (hk : k.Calls)
    (h : c.schedule g items k = some (g', p')) : Move c i g (.to k) (.schedule items) g' p' := by
  obtain ⟨handed, hrel, -⟩ := Option.map_eq_some_iff.mp h
  obtain ⟨hsub, hitems⟩ := Shared.mem_of_release hrel
  obtain ⟨need, new, hpush, happ, hfrom⟩ := Shared.push_eq { g with handed := handed } items
  simp only [PoolConfig.schedule, hrel, hpush, Option.map_some, Option.some.injEq,
    Prod.mk.injEq] at h
  obtain ⟨rfl, rfl⟩ := h
  refine .schedule hk hsub ⟨happ.ids, happ.quiet⟩ hfrom fun t ht f hf => ?_
  obtain ⟨item, hitem, hw⟩ := (hfrom t ht).fiber hf
  exact hitems item hitem f hw

theorem takes_of_takeTask [DecidableEq ι] {k : Option (Task ι) → Loc ι}
    (h : takeTask i g k = some (g', p')) :
    ∃ r rest, Takes i g r rest ∧ g' = { g with tasks := rest } ∧ p' = .to (k r) := by
  simp only [takeTask] at h
  split at h
  · rename_i r rest heq
    obtain ⟨rfl, rfl⟩ := Prod.mk.inj (Option.some.inj h)
    exact ⟨r, rest, takes_of_take heq, rfl, rfl⟩
  · cases h

theorem move_settling [DecidableEq ι] {t f : ℕ} {state : FiberState}
    (h : c.locAct i g (.settling t f state) .step = some (g', p')) :
    Move c i g (.to (.settling t f state)) .step g' p' := by
  cases state with
  | init | exec | hold =>
      cases h
      exact .settleHold
  | term | except =>
      cases h
      exact .settleDone
  | ready =>
      obtain ⟨need, new, hpush, happ, hfrom⟩ :=
        Shared.push_eq { g with handled := g.handled ++ [t] } [⟨some (.fiber f), none⟩]
      simp only [locAct, hpush, Option.some.injEq, Prod.mk.injEq] at h
      obtain ⟨rfl, rfl⟩ := h
      refine .settleReady ⟨happ.ids, happ.quiet⟩ fun t ht f' hf' => ?_
      obtain ⟨item, hitem, hw⟩ := (hfrom t ht).fiber hf'
      obtain rfl := List.mem_singleton.mp hitem
      simpa using hw.symm

theorem move_expired [DecidableEq ι] {cbs : List (Option ℕ)} {es : List Ready}
    (h : c.locAct i g (.expired cbs es) .step = some (g', p')) :
    Move c i g (.to (.expired cbs es)) .step g' p' := by
  simp only [locAct] at h
  split at h
  · rename_i hnil
    cases h
    subst hnil
    exact .expiredNil
  · obtain ⟨need, new, hpush, happ, hfrom⟩ := Shared.push_eq g (items cbs)
    simp only [hpush, Option.some.injEq, Prod.mk.injEq] at h
    obtain ⟨rfl, rfl⟩ := h
    refine .expiredPush happ fun t ht f hf => ?_
    obtain ⟨item, hitem, hw⟩ := (hfrom t ht).fiber hf
    obtain ⟨cb, -, rfl⟩ := List.mem_map.mp hitem
    cases cb <;> cases hw

theorem move_outside [DecidableEq ι] (h : c.locAct i g .outside .stop = some (g', p')) :
    Move c i g (.to .outside) .stop g' p' := by
  simp only [locAct] at h
  split at h
  · rename_i hstop
    cases h
    split
    · rename_i hearly
      exact .stopEarly hstop.1 hearly.1 hearly.2
    · exact .stop hstop.1 (by tauto)
  · cases h

theorem move_events [DecidableEq ι] {es : List Ready}
    (h : c.locAct i g (.events es) a = some (g', p')) : Move c i g (.to (.events es)) a g' p' := by
  cases es with
  | nil =>
      cases a <;> cases h
      exact .eventsNil
  | cons e es =>
      cases e with
      | weakup =>
          cases a <;> cases h
          exact .drain
      | timerfd =>
          cases a <;> cases h
          exact .expire
      | channel =>
          cases a with
          | schedule items => exact move_schedule (.channel _) h
          | account timers pending =>
              cases h
              exact .account (.channel _)
          | step =>
              cases h
              exact .dispatched
          | _ => cases h

theorem move_exec [DecidableEq ι] {t f : ℕ} (h : c.locAct i g (.exec t f) a = some (g', p')) :
    Move c i g (.to (.exec t f)) a g' p' := by
  cases a with
  | schedule items => exact move_schedule (.exec _ _) h
  | newFiber =>
      cases h
      exact .newFiber (.inr ⟨_, _, rfl⟩)
  | account timers pending =>
      cases h
      exact .account (.exec _ _)
  | _ =>
      cases h
      try constructor

theorem move_take [DecidableEq ι] (h : c.locAct i g .top .step = some (g', p')) :
    Move c i g (.to .top) .step g' p' := by
  obtain ⟨r, rest, ht, rfl, rfl⟩ := takes_of_takeTask h
  cases r with
  | none =>
      cases ht with
      | none hnot => exact .takeNone hnot
  | some task => exact .takeSome ht

theorem move_takeLast [DecidableEq ι] (h : c.locAct i g .last .step = some (g', p')) :
    Move c i g (.to .last) .step g' p' := by
  obtain ⟨r, rest, ht, rfl, rfl⟩ := takes_of_takeTask h
  cases r with
  | none =>
      cases ht with
      | none hnot => exact .lastNone hnot
  | some task => exact .lastSome ht

theorem move_check [DecidableEq ι] {stage : CanStop}
    (h : c.locAct i g (.check stage) .step = some (g', p')) :
    Move c i g (.to (.check stage)) .step g' p' := by
  simp only [locAct] at h
  split at h <;> cases h
  · exact .checkNext ‹_›
  · exact .checkTrue ‹_›
  · split
    · exact .checkFalse ‹_› ‹_›
    · rename_i hio
      exact .checkYield ‹_› (by simpa using hio)

theorem move_stopLoop [DecidableEq ι] {k : ℕ}
    (h : c.locAct i g (.stopLoop k) .step = some (g', p')) :
    Move c i g (.to (.stopLoop k)) .step g' p' := by
  cases k with
  | zero =>
      cases h
      split
      · exact .stopJoin (Option.isNone_iff_eq_none.mp ‹_›)
      · rename_i hc
        exact .stopCaller (by simpa [Option.isSome_iff_ne_none] using hc)
  | succ k =>
      cases h
      exact .stopLoop

theorem move_stopCheck [DecidableEq ι] {early : Bool} {stage : CanStop}
    (h : c.locAct i g (.stopCheck early stage) .step = some (g', p')) :
    Move c i g (.to (.stopCheck early stage)) .step g' p' := by
  simp only [locAct] at h
  split at h <;> cases h
  · exact .stopNext ‹_›
  · rw [← apply_ite Pc.to]
    exact .stopTrue ‹_›
  · rw [← apply_ite Pc.to]
    exact .stopFalse ‹_›

theorem locAct_move [DecidableEq ι] {l : Loc ι} (h : c.locAct i g l a = some (g', p')) :
    Move c i g (.to l) a g' p' := by
  cases l with
  | outside =>
      cases a with
      | schedule items => exact move_schedule .outside h
      | newFiber =>
          cases h
          exact .newFiber (.inl rfl)
      | addTimer =>
          cases h
          exact .addTimer
      | stop => exact move_outside h
      | _ => cases h
  | exec t f => exact move_exec h
  | events es => exact move_events h
  | waiting =>
      cases a with
      | wake es =>
          simp only [locAct] at h
          split at h
          · rename_i hes
            cases h
            exact .wake hes.1 hes.2
          · cases h
      | _ => cases h
  | top =>
      cases a with
      | step => exact move_take h
      | _ => cases h
  | last =>
      cases a with
      | step => exact move_takeLast h
      | _ => cases h
  | taken task =>
      cases a with
      | step =>
          simp only [locAct] at h
          split at h <;> cases h
          · exact .prepareCb ‹_›
          · exact .prepareFiber ‹_›
          · exact .skipEmpty ‹_› ‹_›
      | _ => cases h
  | prepared t f =>
      cases a with
      | step =>
          simp only [locAct] at h
          split at h <;> cases h
          · exact .skip
          · exact .unfinished
      | _ => cases h
  | counted t f =>
      cases a with
      | step =>
          simp only [locAct] at h
          split at h <;> cases h
          exact .resumable
      | _ => cases h
  | settling t f state =>
      cases a with
      | step => exact move_settling h
      | _ => cases h
  | check stage =>
      cases a with
      | step => exact move_check h
      | _ => cases h
  | expired cbs es =>
      cases a with
      | step => exact move_expired h
      | _ => cases h
  | left r =>
      cases a with
      | step =>
          simp only [locAct] at h
          split at h <;> cases h
          · exact .exitCaller
          · exact .exit
      | _ => cases h
  | stopLoop k =>
      cases a with
      | step => exact move_stopLoop h
      | _ => cases k <;> cases h
  | stopCheck early stage =>
      cases a with
      | step => exact move_stopCheck h
      | _ => cases h
  | join =>
      cases a with
      | step =>
          simp only [locAct] at h
          split at h <;> cases h
          exact .joined
      | _ => cases h
  | returned => cases a <;> cases h
  -- the places with one thing to do, whose result needs no case split
  | _ =>
      cases a <;> cases h
      constructor

/-- **What an action can do.** -/
theorem act_move [DecidableEq ι] (h : c.act i g p a = some (g', p')) : Move c i g p a g' p' := by
  obtain ⟨l, w⟩ := p
  unfold act at h
  split at h
  · rename_i hw
    obtain rfl : w = none := hw
    exact locAct_move h
  · rename_i hw
    obtain rfl : w = some .read := hw
    cases h
    split
    · exact .weakupRead ‹_›
    · exact .weakupNone ‹_›
  · rename_i hw
    obtain rfl : w = some .write := hw
    cases h
    exact .weakupWrite
  · cases h

/-- Every step of the pool is a move of one thread. -/
theorem step_move [DecidableEq ι] {s s' : Threads.State ι (Shared ι) (Pc ι)} {l : ι × Act ι}
    (h : c.pool.lts.step s l = some s') : ∃ g p, Move c l.1 s.shared (s.pc l.1) l.2 g p ∧
      s' = ⟨g, Function.update s.pc l.1 p⟩ := by
  obtain ⟨g, p, hact, rfl⟩ := Threads.step_eq_some.mp h
  exact ⟨g, p, act_move hact, rfl⟩

end PoolConfig

end Easy.Base
