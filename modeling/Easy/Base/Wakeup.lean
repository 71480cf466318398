import Easy.Base.Exclusive

/-!
Whether a task finds a worker that is up.

A worker that found nothing to take sleeps until a descriptor is ready, and does
not look at the queue again before. `schedule` writes to the wake pipe only if the
queue was empty, and only if `idleThreadNums_` says that somebody idles. A worker
that calls `schedule` looks at the queue later by itself, so it need not write.
For a thread outside the pool there are two ways to stay silent: the queue was not
empty, or no idle worker is counted yet. After either somebody has to be up.
-/

namespace Easy.Base

open Lib

variable {ι : Type*}

/-- A worker here will call `take` before it blocks. -/
def Loc.awake : Loc ι → Bool
  | .top | .taken _ | .prepared .. | .unfinished .. | .counted .. | .asserted .. | .exec ..
  | .stored .. | .switched .. | .settling .. | .handled | .events _ | .expired .. | .leaving => true
  | _ => false

/-- A thread that will write to the pipe or call `take` before it blocks. -/
def Pc.awake (p : Pc ι) : Bool := p.weakup.isSome || p.loc.awake

/-- `take` has returned null, and `epoll_wait` has not returned since. -/
def Pc.dozing (p : Pc ι) : Bool :=
  match p.loc with
  | .null | .check _ | .parked | .waiting => true
  | _ => false

/-- A task that any thread may run. -/
def Task.ForAny (state : ℕ → FiberState) (t : Task ι) : Prop :=
  t.threadId = none ∧ ∀ f ∈ t.fiber, state f ≠ .exec

instance [DecidableEq ι] (state : ℕ → FiberState) (t : Task ι) : Decidable (t.ForAny state) :=
  inferInstanceAs (Decidable (_ ∧ _))

/-- An argument of `schedule` that makes a task any thread may run. -/
def Item.ForAny (state : ℕ → FiberState) (item : Item ι) : Prop :=
  item.work.isSome ∧ (Task.make 0 item).ForAny state

instance [DecidableEq ι] (state : ℕ → FiberState) (item : Item ι) :
    Decidable (item.ForAny state) :=
  inferInstanceAs (Decidable (_ ∧ _))

/-- The arguments of a call of `schedule`. -/
def Act.items : Act ι → List (Item ι)
  | .schedule items => items
  | _ => []

/-- The queue has a task that any thread may run. -/
def Shared.Runnable (g : Shared ι) : Prop := ∃ t ∈ g.tasks, t.ForAny g.state

instance [DecidableEq ι] (g : Shared ι) : Decidable g.Runnable :=
  inferInstanceAs (Decidable (∃ t ∈ g.tasks, _))

/-- `schedule` stays silent about a task: it was pushed to a queue that was not
empty, and before it there was none that any thread may run; or `weakup` reads
that nobody idles, and goes back to code that never calls `take`. -/
def Silent (g : Shared ι) (p : Pc ι) (a : Act ι) : Prop :=
  (p.loc = .outside ∧ p.weakup = none ∧ g.tasks ≠ [] ∧ ¬ g.Runnable ∧
    ∃ item ∈ a.items, item.ForAny g.state) ∨
  (p.loc.awake = false ∧ p.weakup = some .read ∧ g.idleThreadNums ≤ 0 ∧ g.Runnable)

instance [DecidableEq ι] (g : Shared ι) (p : Pc ι) (a : Act ι) : Decidable (Silent g p a) :=
  inferInstanceAs (Decidable (_ ∨ _))

namespace PoolConfig

variable {c : PoolConfig ι} {i : ι} {g g' : Shared ι} {p p' : Pc ι} {a : Act ι}

theorem move_running (h : Move c i g p a g' p') (hrun : g'.running = true) : g.running = true := by
  cases h with
  | stopEarly | stop => cases hrun
  | _ => exact hrun

theorem runnable_append {new : List (Task ι)} {items : List (Item ι)}
    (hfrom : ∀ t ∈ new, t.MadeOf items) (h : (g.append new).Runnable) :
    g.Runnable ∨ ∃ item ∈ items, item.ForAny g.state := by
  obtain ⟨t, ht, hany⟩ := h
  rcases List.mem_append.mp ht with ht | ht
  · exact .inl ⟨t, ht, hany⟩
  · obtain ⟨n, item, hitem, hw, rfl⟩ := hfrom t ht
    exact .inr ⟨item, hitem, hw, hany⟩

theorem eligible_of_forAny {t : Task ι} (h : t.ForAny g.state) : t.Eligible g.state i :=
  ⟨.inl h.1, h.2⟩

theorem runnable_takes {r : Option (Task ι)} {rest : List (Task ι)} (h : Takes i g r rest)
    (hrun : Shared.Runnable { g with tasks := rest }) : g.Runnable := by
  obtain ⟨t, ht, hany⟩ := hrun
  refine ⟨t, ?_, hany⟩
  cases h with
  | none => exact ht
  | some hsplit =>
      rw [hsplit, List.mem_append, List.mem_cons]
      rcases List.mem_append.mp ht with ht | ht
      · exact .inl ht
      · exact .inr (.inr ht)

/-- How an action leaves a task that any thread may run: its thread awake, or the
pipe with a byte, or it kept silent about the task; or the task was there before
and the thread not awake. -/
inductive Attends (g : Shared ι) (p : Pc ι) (a : Act ι) (g' : Shared ι) (p' : Pc ι) : Prop
  | awake (h : p'.awake = true)
  | byte (h : 0 < g'.pipe)
  | silent (hpipe : g'.pipe = g.pipe) (hdoze : p'.dozing ≤ p.dozing) (h : Silent g p a)
  | before (hpipe : g'.pipe = g.pipe) (hdoze : p'.dozing ≤ p.dozing) (h : g.Runnable)
      (hp : p.awake = false)

theorem move_attends (h : Move c i g p a g' p') (hio : c.io = true) (hrun : g'.running = true)
    (htask : g'.Runnable) : Attends g p a g' p' := by
  cases h with
  | @schedule k hk items handed new need hsub happ hfrom hfib =>
      cases hk with
      | outside =>
          by_cases hneed : need
          · exact .awake (by simp [Pc.awake, weakup, hneed, hio])
          by_cases hold : g.Runnable
          · exact .before rfl le_rfl hold rfl
          · have hitem : ∃ item ∈ items, item.ForAny g.state :=
              (runnable_append hfrom htask).resolve_left hold
            have hne : g.tasks ≠ [] := by
              rcases happ.quiet (by simpa using hneed) with rfl | hne
              · simp only [Shared.append, List.append_nil] at htask
                exact absurd htask hold
              · exact hne
            exact .silent rfl le_rfl (.inl ⟨rfl, rfl, hne, hold, hitem⟩)
      | exec | channel => exact .awake (by simp [Pc.awake, weakup, Loc.awake])
  | newFiber hk =>
      rcases hk with rfl | ⟨t, f, rfl⟩
      · exact .before rfl le_rfl htask rfl
      · exact .awake rfl
  | account hk =>
      cases hk with
      | exec | channel => exact .awake rfl
  | stopEarly | stop => cases hrun
  | takeNone hnot =>
      obtain ⟨t, ht, hany⟩ := htask
      exact absurd (eligible_of_forAny hany) (hnot t ht)
  | lastSome h => exact .before rfl le_rfl (runnable_takes h htask) rfl
  | stopTrue => split <;> exact .before rfl le_rfl htask rfl
  | stopFalse =>
      split
      · exact .before rfl le_rfl htask rfl
      · exact .awake rfl
  | settleReady | expiredPush => exact .awake (by simp [Pc.awake, weakup, Loc.awake])
  | stopLoop | stopCaller => exact .awake (by simp [Pc.awake, weakup, hio])
  | @weakupNone k hidle =>
      by_cases hk : k.awake
      · exact .awake (by simpa [Pc.awake, Pc.to] using hk)
      · exact .silent rfl le_rfl (.inr ⟨by simpa using hk, rfl, by simpa using hidle, htask⟩)
  | weakupWrite => exact .byte (Nat.succ_pos _)
  | checkTrue | checkYield => exact .before rfl (Bool.false_le _) htask rfl
  | _ => first | exact .awake rfl | exact .before rfl le_rfl htask rfl

variable {s s' : Threads.State ι (Shared ι) (Pc ι)} {l : ι × Act ι}

/-- The pipe has a byte, or some thread other than `i` is awake, or none dozes. -/
def Attended (s : Threads.State ι (Shared ι) (Pc ι)) (i : ι) : Prop :=
  0 < s.shared.pipe ∨ Threads.CoversBut Pc.awake Pc.dozing s.pc i

/-- `schedule` stays silent only if it may. -/
def SilentIfAttended (s : Threads.State ι (Shared ι) (Pc ι)) (l : ι × Act ι) : Prop :=
  s.shared.running = true → Silent s.shared (s.pc l.1) l.2 → Attended s l.1

instance [DecidableEq ι] [Fintype ι] (s : Threads.State ι (Shared ι) (Pc ι)) (i : ι) :
    Decidable (Attended s i) :=
  inferInstanceAs (Decidable (_ ∨ _))

instance [DecidableEq ι] [Fintype ι] (s : Threads.State ι (Shared ι) (Pc ι)) (l : ι × Act ι) :
    Decidable (SilentIfAttended s l) :=
  inferInstanceAs (Decidable (_ → _ → _))

/-- With a task that any thread may run, the pipe has a byte, or some thread is
awake, or none dozes. -/
def Covered (s : Threads.State ι (Shared ι) (Pc ι)) : Prop :=
  s.shared.running = true → s.shared.Runnable →
    0 < s.shared.pipe ∨ Threads.Covers Pc.awake Pc.dozing s.pc

variable [DecidableEq ι]

/-- An action that leaves the pipe as it is and its thread not further down leaves
the duty with the byte or the other threads. -/
theorem byte_or_covers {up down : Pc ι → Bool} {i : ι}
    (h : 0 < s.shared.pipe ∨ Threads.CoversBut up down s.pc i) (hpipe : g.pipe = s.shared.pipe)
    (hdown : down p ≤ down (s.pc i)) :
    0 < g.pipe ∨ Threads.Covers up down (Function.update s.pc i p) :=
  h.imp (hpipe ▸ ·) fun hcov => hcov.update hdown

theorem step_covered (hio : c.io = true) (hg : SilentIfAttended s l)
    (h : c.pool.lts.step s l = some s') (hs : Covered s) : Covered s' := by
  obtain ⟨g, p, hm, rfl⟩ := step_move h
  intro hrun htask
  have hrun' := move_running hm hrun
  cases move_attends hm hio hrun htask with
  | awake hp => exact .inr (Threads.covers_update hp)
  | byte hpipe => exact .inl hpipe
  | silent hpipe hdoze hsilent => exact byte_or_covers (hg hrun' hsilent) hpipe hdoze
  | before hpipe hdoze htask' hp =>
      have hatt : Attended s l.1 := (hs hrun' htask').imp_right fun hcov => hcov.but hp
      exact byte_or_covers hatt hpipe hdoze

theorem covered (hio : c.io = true) (h : c.pool.lts.Guarded SilentIfAttended s) : Covered s := by
  refine h.invariant ?_ fun s l s' _ hg hstep hs => step_covered hio hg hstep hs
  rintro ⟨g, pc⟩ ⟨rfl, rfl⟩ - ⟨t, ht, -⟩
  cases ht

/-- Until `stop`, the threads outside the pool run other code. -/
theorem outside_of_running (h : c.pool.lts.Reachable s) (hrun : s.shared.running = true) :
    ∀ i, i ∉ c.threads → (s.pc i).loc = .outside := by
  have hinv : ∀ i, s.shared.running = true → i ∉ c.threads → (s.pc i).loc = .outside := by
    refine Threads.local_invariant (J := fun i g p => g.running = true → i ∉ c.threads →
      p.loc = .outside) ?_ ?_ ?_ h
    · rintro g pc ⟨rfl, rfl⟩ i - hi
      simp [startPc, hi, Pc.to]
    · intro i g p a g' p' hact hJ hrun hi
      have hm := act_move hact
      have hp := hJ (move_running hm hrun) hi
      cases hm with
      | stopEarly | stop => cases hrun
      | schedule | newFiber | account | addTimer | weakupRead | weakupNone | weakupWrite => exact hp
      | _ => cases hp
    · exact fun i j g p a g' p' q hact _ _ hJ hrun => hJ (move_running (act_move hact) hrun)
  exact fun i => hinv i hrun

/-- A wake-up was lost: the scheduler runs, there is a task that any thread may
run, all workers are blocked in `epoll_wait`, the pipe is empty and nobody is in
a call of `schedule`. -/
structure LostWakeup (c : PoolConfig ι) (s : Threads.State ι (Shared ι) (Pc ι)) : Prop where
  running : s.shared.running = true
  task : s.shared.Runnable
  workers : c.threads ≠ []
  blocked : ∀ i ∈ c.threads, (s.pc i).loc = .waiting
  pipe : s.shared.pipe = 0
  calls : ∀ i, (s.pc i).weakup = none

theorem not_lostWakeup (hio : c.io = true) (h : c.pool.lts.Guarded SilentIfAttended s) :
    ¬ LostWakeup c s := by
  intro hlost
  rcases covered hio h hlost.running hlost.task with hp | ⟨j, hj⟩ | hnone
  · exact absurd hlost.pipe (Nat.ne_of_gt hp)
  · have hloc : (s.pc j).loc.awake = true := by simpa [Pc.awake, hlost.calls j] using hj
    by_cases hmem : j ∈ c.threads
    · simp [hlost.blocked j hmem, Loc.awake] at hloc
    · simp [outside_of_running h.reachable hlost.running j hmem, Loc.awake] at hloc
  · obtain ⟨i, hi⟩ := List.exists_mem_of_ne_nil _ hlost.workers
    exact hnone i (by simp [hlost.blocked i hi, Pc.dozing])

/-- **No wake-up is lost** along a run in which `schedule` stays silent only if some
other thread is up, or no worker dozes. -/
theorem no_lost_wakeup_along (hio : c.io = true) (ls : List (ι × Act ι))
    (h : c.pool.lts.Meets SilentIfAttended c.start ls) :
    c.pool.lts.Along (fun s => ¬ LostWakeup c s) c.start ls :=
  Lts.Guarded.along (fun _ => not_lostWakeup hio) (.init ⟨rfl, rfl⟩) h

/-- The worker blocks, and a call of `schedule` wakes it. -/
theorem no_lost_wakeup_along_blocked :
    oneWorker.pool.lts.Along (fun s => ¬ LostWakeup oneWorker s) oneWorker.start
      [(0, .step), (0, .step), (0, .step), (0, .step), (0, .step), (0, .step),
        (1, .schedule [anyCallback 0]), (1, .step), (1, .step), (0, .wake [.weakup])] :=
  no_lost_wakeup_along rfl _ (by decide)

/-- `weakup` reads `idleThreadNums_` after `take` has returned null and before the
worker has counted itself. -/
theorem no_lost_wakeup_false : ∃ s, oneWorker.pool.lts.Reachable s ∧ LostWakeup oneWorker s := by
  have hrun : ((oneWorker.pool.lts.run oneWorker.start
      [(0, .step), (1, .schedule [anyCallback 0]), (1, .step), (0, .step), (0, .step), (0, .step),
        (0, .step), (0, .step)]).map fun s =>
          (s.shared.running, s.shared.tasks, s.shared.pipe, s.pc 0, s.pc 1)) =
      some (true, [⟨0, none, some 0, none⟩], 0, .to .waiting, .to .outside) := by decide
  obtain ⟨s, hr, heq⟩ := reachable_start.of_map_run hrun
  simp only [Prod.mk.injEq] at heq
  obtain ⟨hrun, htasks, hpipe, h₀, h₁⟩ := heq
  refine ⟨s, hr, hrun, ⟨⟨0, none, some 0, none⟩, by simp [htasks], rfl, by simp⟩,
    by decide, ?_, hpipe, ?_⟩
  · intro i hi
    obtain rfl : i = 0 := by simpa [oneWorker] using hi
    simp [h₀, Pc.to]
  · exact Fin.forall_fin_two.mpr ⟨by simp [h₀, Pc.to], by simp [h₁, Pc.to]⟩

end PoolConfig

end Easy.Base
