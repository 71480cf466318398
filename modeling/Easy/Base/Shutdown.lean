import Easy.Base.Wakeup

/-!
Whether `stop` reaches every worker.

`stop` writes a byte for each worker, as long as somebody idles, and a worker that
wakes reads all of them. What is left to do may keep it from stopping, and then it
sleeps again: who wakes it when the rest is done? A worker in its loop that is not
asleep will still look at `canStop`. The one that finds it true leaves without a
word to the others.
-/

namespace Easy.Base

open Lib

variable {ι : Type*}

/-- In the loop of `run` and not in `epoll_wait`, or with a call of `weakup` to
make in `stop`. -/
def PoolConfig.deciding (c : PoolConfig ι) (p : Pc ι) : Bool :=
  match p.loc with
  | .top | .taken _ | .prepared .. | .unfinished .. | .counted .. | .asserted .. | .exec ..
  | .stored .. | .switched .. | .settling .. | .handled | .null | .check _ | .events _ | .expired ..
  | .leaving => true
  | .stopLoop k => 0 < k || p.weakup.isSome || c.caller.isSome
  | .stopCheck .. => p.weakup.isSome
  | _ => false

/-- In `epoll_wait`, or about to call it. -/
def Pc.asleep (p : Pc ι) : Bool :=
  match p.loc with
  | .parked | .waiting => true
  | _ => false

/-- In the loop of `run`. -/
def Loc.inRun : Loc ι → Bool
  | .outside | .left _ | .stopLoop _ | .stopCheck .. | .join | .returned => false
  | _ => true

/-- In `stop`, before its `join`. -/
def Loc.inStop : Loc ι → Bool
  | .stopLoop _ | .stopCheck .. => true
  | _ => false

theorem Pc.idling_of_asleep {p : Pc ι} (h : p.asleep) : p.idling := by
  obtain ⟨l, w⟩ := p
  cases l <;> simp_all [asleep, idling]

/-- Stopped, with nothing left to do: no timer, no pending event, and settled. -/
def Shared.Quiet (g : Shared ι) : Prop := g.timers = 0 ∧ g.pendingEventCount = 0 ∧ g.Settled

instance [DecidableEq ι] (g : Shared ι) : Decidable g.Quiet :=
  inferInstanceAs (Decidable (_ ∧ _))

theorem CanStop.eval_of_quiet {g : Shared ι} (h : g.Quiet) {stage : CanStop} :
    stage.eval g ≠ .inr false := by
  obtain ⟨htimers, hpending, hset⟩ := h
  cases stage with
  | timers => simp [eval, htimers]
  | pending => simp [eval, hpending]
  | sched => simp [eval, Shared.canStop_iff.mpr hset]

theorem CanStop.eval_true {g : Shared ι} {stage : CanStop} (h : stage.eval g = .inr true) :
    stage = .sched := by
  cases stage with
  | sched => rfl
  | timers | pending =>
      simp only [eval] at h
      split at h <;> cases h

/-- A worker that leaves nothing to do stops looking: it reads that it can stop,
or its `idle` has finished and it takes the last task. -/
def Finishes [DecidableEq ι] (i : ι) (g : Shared ι) (p : Pc ι) : Prop :=
  (p = .to (.check .sched) ∧ g.Quiet) ∨
  (p = .to .last ∧ (∃ t ∈ g.tasks, g.tasks = [t] ∧ t.Eligible g.state i) ∧
    Shared.Quiet { g with tasks := [] })

instance [DecidableEq ι] (i : ι) (g : Shared ι) (p : Pc ι) : Decidable (Finishes i g p) :=
  inferInstanceAs (Decidable (_ ∨ _))

namespace PoolConfig

variable {c : PoolConfig ι} {i : ι} {g g' : Shared ι} {p p' : Pc ι} {a : Act ι}

theorem finishes_of_takes [DecidableEq ι] {task : Task ι} {rest : List (Task ι)}
    (h : Takes i g (some task) rest) (hq : Shared.Quiet { g with tasks := rest }) :
    Finishes i g (.to .last) := by
  obtain rfl : rest = [] := hq.2.2.2.1
  obtain ⟨hsplit, he⟩ := eq_singleton_of_takes h
  exact .inr ⟨rfl, ⟨_, by simp [hsplit], hsplit, he⟩, hq⟩

theorem threads_ne_nil (hc : c.caller.isSome → c.threads ≠ []) : c.threads ≠ [] :=
  c.workers.elim id hc

theorem quiet_of_append {new : List (Task ι)} (h : (g.append new).Quiet) : g.Quiet :=
  ⟨h.1, h.2.1, settled_of_append h.2.2⟩

/-- How an action leaves nothing to do: its thread deciding, or the pipe with a
byte, or it was the call of `stop` in a scheduler without threads, or read that
nobody idles, or finished; or there was nothing to do before and the thread not
deciding. -/
inductive Decides [DecidableEq ι] (c : PoolConfig ι) (i : ι) (g : Shared ι) (p : Pc ι)
    (g' : Shared ι) (p' : Pc ι) : Prop
  | deciding (h : c.deciding p' = true)
  | byte (h : 0 < g'.pipe)
  | alone (hrun : g.running = true) (ht : c.threads = []) (hp : p'.asleep = false)
  | nobody (hg : g' = g) (hidle : g.idleThreadNums ≤ 0) (hloc : p'.loc = p.loc)
  | finishes (hpipe : g'.pipe = g.pipe) (hasleep : p'.asleep ≤ p.asleep) (h : Finishes i g p)
  | before (hpipe : g'.pipe = g.pipe) (hasleep : p'.asleep ≤ p.asleep) (h : g.Quiet)
      (hp : c.deciding p = false)

theorem move_decides [DecidableEq ι] (h : Move c i g p a g' p') (hio : c.io = true)
    (hq : g'.Quiet) : Decides c i g p g' p' := by
  cases h with
  | schedule hk =>
      cases hk with
      | outside => exact .before rfl le_rfl (quiet_of_append hq) rfl
      | exec | channel => exact .deciding rfl
  | newFiber hk =>
      rcases hk with rfl | ⟨t, f, rfl⟩
      · exact .before rfl le_rfl hq rfl
      · exact .deciding rfl
  | account hk =>
      cases hk with
      | exec | channel => exact .deciding rfl
  | addTimer => exact absurd hq.1 (Nat.succ_ne_zero _)
  | stopEarly hrun hc ht => exact .alone hrun ht rfl
  | stop hrun hc =>
      have hlen := List.length_pos_iff.mpr (threads_ne_nil hc)
      exact .deciding (by simp [PoolConfig.deciding, Pc.to, hlen])
  | lastSome h => exact .finishes rfl le_rfl (finishes_of_takes h hq)
  | checkTrue h =>
      obtain rfl := CanStop.eval_true h
      exact .finishes rfl le_rfl (.inl ⟨rfl, hq⟩)
  | checkFalse h | checkYield h | stopFalse h => exact absurd h (CanStop.eval_of_quiet hq)
  | stopLoop | stopCaller => exact .deciding (by simp [PoolConfig.deciding, weakup, hio])
  | stopJoin hc => exact .before rfl le_rfl hq (by simp [PoolConfig.deciding, Pc.to, hc])
  | stopTrue => split <;> exact .before rfl le_rfl hq rfl
  | @weakupRead k =>
      by_cases hk : c.deciding ⟨k, some .write⟩
      · exact .deciding hk
      · exact .before rfl le_rfl hq (by simpa [PoolConfig.deciding] using hk)
  | weakupNone hidle => exact .nobody rfl (by simpa using hidle) rfl
  | weakupWrite => exact .byte (Nat.succ_pos _)
  | _ => first | exact .deciding rfl | exact .before rfl le_rfl hq rfl

variable {s s' : Threads.State ι (Shared ι) (Pc ι)} {l : ι × Act ι}

/-- A worker that leaves nothing to do stops looking only if the pipe has a byte,
or some other thread is deciding, or none is asleep. -/
def FinishesIfRelayed [DecidableEq ι] (c : PoolConfig ι) (s : Threads.State ι (Shared ι) (Pc ι))
    (l : ι × Act ι) : Prop :=
  Finishes l.1 s.shared (s.pc l.1) →
    0 < s.shared.pipe ∨ Threads.CoversBut c.deciding Pc.asleep s.pc l.1

instance [DecidableEq ι] [Fintype ι] (s : Threads.State ι (Shared ι) (Pc ι)) (l : ι × Act ι) :
    Decidable (FinishesIfRelayed c s l) :=
  inferInstanceAs (Decidable (_ → _))

/-- With nothing left to do, the pipe has a byte, or some thread is deciding, or
none is asleep. -/
def Relayed (c : PoolConfig ι) (s : Threads.State ι (Shared ι) (Pc ι)) : Prop :=
  s.shared.Quiet → 0 < s.shared.pipe ∨ Threads.Covers c.deciding Pc.asleep s.pc

variable [DecidableEq ι]

theorem asleep_of_running (h : c.pool.lts.Reachable s) (hrun : s.shared.running = true)
    (ht : c.threads = []) (j : ι) : ¬ (s.pc j).asleep := by
  have := outside_of_running h hrun j (by simp [ht])
  simp [Pc.asleep, this]

variable [Fintype ι]

theorem asleep_of_idle (h : c.pool.lts.Reachable s) (hidle : s.shared.idleThreadNums ≤ 0) (j : ι) :
    ¬ (s.pc j).asleep := by
  rw [idleThreadNums_eq h] at hidle
  have hzero := count_eq_zero_iff.mp (le_antisymm hidle (count_nonneg _ _)) j
  exact fun hj => by simp [Pc.idling_of_asleep hj] at hzero

theorem step_relayed (hio : c.io = true) (hr : c.pool.lts.Reachable s)
    (hg : FinishesIfRelayed c s l) (h : c.pool.lts.step s l = some s') (hs : Relayed c s) :
    Relayed c s' := by
  obtain ⟨g, p, hm, rfl⟩ := step_move h
  intro hq
  cases move_decides hm hio hq with
  | deciding hp => exact .inr (Threads.covers_update hp)
  | byte hpipe => exact .inl hpipe
  | alone hrun ht hp =>
      have hnone : Threads.CoversBut c.deciding Pc.asleep s.pc l.1 :=
        .inr (asleep_of_running hr hrun ht)
      exact .inr (hnone.update (hp ▸ Bool.false_le _))
  | nobody hg hidle hloc =>
      have hnone : Threads.CoversBut c.deciding Pc.asleep s.pc l.1 :=
        .inr (asleep_of_idle hr hidle)
      exact .inr (hnone.update (by simp [Pc.asleep, hloc]))
  | finishes hpipe hasleep hfin => exact byte_or_covers (hg hfin) hpipe hasleep
  | before hpipe hasleep hq' hp =>
      exact byte_or_covers ((hs hq').imp_right fun hcov => hcov.but hp) hpipe hasleep

theorem relayed (hio : c.io = true) (h : c.pool.lts.Guarded (FinishesIfRelayed c) s) :
    Relayed c s := by
  refine h.invariant ?_ fun s l s' hr hg hstep hs => step_relayed hio hr hg hstep hs
  rintro ⟨g, pc⟩ ⟨rfl, rfl⟩ ⟨-, -, hrun, -⟩
  cases hrun

/-- A worker is stranded: `stop` waits in `join` and nobody is in the part of it
before, nothing is left to do, the pipe is empty, every thread in the loop of
`run` is blocked in `epoll_wait`, and some thread is. -/
structure Stranded (s : Threads.State ι (Shared ι) (Pc ι)) : Prop where
  join : ∃ i, s.pc i = .to .join
  past : ∀ i, (s.pc i).loc.inStop = false
  quiet : s.shared.Quiet
  pipe : s.shared.pipe = 0
  blocked : ∀ i, (s.pc i).loc.inRun → (s.pc i).loc = .waiting
  waiting : ∃ i, (s.pc i).loc = .waiting

theorem not_stranded (hio : c.io = true) (h : c.pool.lts.Guarded (FinishesIfRelayed c) s) :
    ¬ Stranded s := by
  intro hs
  rcases relayed hio h hs.quiet with hp | ⟨j, hj⟩ | hnone
  · exact absurd hs.pipe (Nat.ne_of_gt hp)
  · have hblocked := hs.blocked j
    have hpast := hs.past j
    cases hloc : (s.pc j).loc <;> simp_all [deciding, Loc.inRun, Loc.inStop]
  · obtain ⟨i, hi⟩ := hs.waiting
    exact hnone i (by simp [Pc.asleep, hi])

/-- **Shutdown strands no worker** along a run in which a worker that leaves nothing
to do stops looking only if some other thread is deciding, or none is asleep. -/
theorem no_stranded_along (hio : c.io = true) (ls : List (ι × Act ι))
    (h : c.pool.lts.Meets (FinishesIfRelayed c) c.start ls) :
    c.pool.lts.Along (fun s => ¬ Stranded s) c.start ls :=
  Lts.Guarded.along (fun _ => not_stranded hio) (.init ⟨rfl, rfl⟩) h

/-- The worker sleeps when `stop` is called, wakes for its byte and leaves. -/
theorem no_stranded_along_left :
    oneWorker.pool.lts.Along (fun s => ¬ Stranded s) oneWorker.start
      [(0, .step), (0, .step), (0, .step), (0, .step), (0, .step), (0, .step), (1, .stop),
        (1, .step), (1, .step), (1, .step), (1, .step), (0, .wake [.weakup]), (0, .step),
        (0, .step), (0, .step), (0, .step), (0, .step), (0, .step), (0, .step), (0, .step),
        (0, .step), (0, .step), (0, .step), (1, .step)] :=
  no_stranded_along rfl _ (by decide)

/-- Worker 1 wakes for the bytes of `stop` while worker 0 runs a task, and sleeps
again; worker 0 leaves. -/
theorem no_stranded_false : ∃ s, twoWorkers.pool.lts.Reachable s ∧ Stranded s := by
  have hrun : ((twoWorkers.pool.lts.run twoWorkers.start
      [(2, .schedule [anyCallback 0]), (2, .step), (0, .step), (0, .step), (0, .step), (0, .step),
        (0, .step), (0, .step), (1, .step), (1, .step), (1, .step), (1, .step), (1, .step),
        (1, .step), (2, .stop), (2, .step), (2, .step), (2, .step), (2, .step), (2, .step),
        (2, .step), (2, .step), (1, .wake [.weakup]), (1, .step), (1, .step), (1, .step),
        (1, .step), (1, .step), (1, .step), (1, .step), (1, .step), (1, .step), (0, .finish false),
        (0, .step), (0, .step), (0, .step), (0, .step), (0, .step), (0, .step), (0, .step),
        (0, .step), (0, .step), (0, .step), (0, .step), (0, .step)]).map fun s =>
          (decide s.shared.Quiet, s.shared.pipe, s.pc 0, s.pc 1, s.pc 2)) =
      some (true, 0, .to .returned, .to .waiting, .to .join) := by decide
  obtain ⟨s, hr, heq⟩ := reachable_start.of_map_run hrun
  simp only [Prod.mk.injEq, decide_eq_true_eq] at heq
  obtain ⟨hquiet, hpipe, h₀, h₁, h₂⟩ := heq
  refine ⟨s, hr, ⟨2, h₂⟩, ?_, hquiet, hpipe, ?_, ⟨1, by simp [h₁, Pc.to]⟩⟩
  · simp [Fin.forall_fin_succ, h₀, h₁, h₂, Pc.to, Loc.inStop]
  · simp [Fin.forall_fin_succ, h₀, h₁, h₂, Pc.to, Loc.inRun]

end PoolConfig

end Easy.Base
