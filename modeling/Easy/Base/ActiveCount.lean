import Easy.Base.PoolMoves

/-!
The two thread counts of a pool, and what `canStop` knows.

`activeThreadNums_` and `idleThreadNums_` count the workers between the two
updates of each. A worker that `take` has handed a task is not counted as
active yet, and this is the one way in which `canStop` can be wrong about work
that is under way.
-/

namespace Easy.Base

open Lib

variable {ι : Type*}

namespace Pc

/-- Between the two updates of `activeThreadNums_`. -/
def active (p : Pc ι) : Bool :=
  match p.loc with
  | .counted .. | .asserted .. | .exec .. | .stored .. | .switched .. | .settling .. | .handled =>
    true
  | _ => false

/-- Between the two updates of `idleThreadNums_`. -/
def idling (p : Pc ι) : Bool :=
  match p.loc with
  | .check _ | .parked | .waiting | .events _ | .expired .. | .leaving | .finishing => true
  | _ => false

/-- A task was taken and has not been passed through `handleFiber`. -/
def holding (p : Pc ι) : Bool :=
  match p.loc with
  | .taken _ | .prepared .. | .unfinished .. | .counted .. | .asserted .. | .exec .. | .stored ..
  | .switched .. | .settling .. => true
  | .left o => o.isSome
  | _ => false

/-- A task was taken and the worker is not counted as active. -/
def uncounted (p : Pc ι) : Bool :=
  match p.loc with
  | .taken _ | .prepared .. | .unfinished .. => true
  | .left o => o.isSome
  | _ => false

theorem uncounted_or_active {p : Pc ι} (h : p.holding) : p.uncounted ∨ p.active := by
  simp only [holding, uncounted, active] at h ⊢
  cases hp : p.loc <;> simp_all

theorem holding_of_uncounted {p : Pc ι} (h : p.uncounted) : p.holding := by
  simp only [holding, uncounted] at h ⊢
  cases hp : p.loc <;> simp_all

end Pc

/-- Stopped, the queue empty, and no worker counted as active. -/
def Shared.Settled (g : Shared ι) : Prop :=
  g.running = false ∧ g.tasks = [] ∧ g.activeThreadNums = 0

instance [DecidableEq ι] (g : Shared ι) : Decidable g.Settled :=
  inferInstanceAs (Decidable (_ ∧ _))

theorem Shared.canStop_iff {g : Shared ι} : g.canStop ↔ g.Settled := by
  simp [canStop, Settled, and_assoc]

/-- The one task of the queue, if a worker at `p` is going to take it. -/
def Pc.TakesLast [DecidableEq ι] (p : Pc ι) (i : ι) (g : Shared ι) : Prop :=
  (p = .to .top ∨ p = .to .last) ∧ ∃ t ∈ g.tasks, g.tasks = [t] ∧ t.Eligible g.state i

namespace PoolConfig

variable {c : PoolConfig ι} {i : ι} {g g' : Shared ι} {p p' : Pc ι} {a : Act ι}

theorem move_active (h : Move c i g p a g' p') :
    g'.activeThreadNums - g.activeThreadNums = p'.active.toInt - p.active.toInt := by
  cases h with
  | stopTrue | stopFalse => split <;> simp [Pc.active, Pc.to]
  | _ => simp [Pc.active, Pc.to, weakup, Shared.append, Shared.store]

theorem move_idling (h : Move c i g p a g' p') :
    g'.idleThreadNums - g.idleThreadNums = p'.idling.toInt - p.idling.toInt := by
  cases h with
  | stopTrue | stopFalse => split <;> simp [Pc.idling, Pc.to]
  | _ => simp [Pc.idling, Pc.to, weakup, Shared.append, Shared.store]

/-- How an action settles the scheduler: it takes the last task, or is the call of
`stop`, or counts a worker out; or the scheduler was settled before. -/
inductive Settles [DecidableEq ι] (i : ι) (g : Shared ι) (p : Pc ι) (a : Act ι) (p' : Pc ι) : Prop
  | take (h : p.TakesLast i g) (hrun : g.running = false) (hactive : g.activeThreadNums = 0)
  | stop (hp : p = .to .outside) (ha : a = .stop) (ht : g.tasks = [])
      (hactive : g.activeThreadNums = 0) (hp' : p'.uncounted = false)
  | countOut (hp : p = .to .handled) (hrun : g.running = false) (ht : g.tasks = [])
      (hactive : g.activeThreadNums = 1) (hp' : p'.uncounted = false)
  | before (h : g.Settled) (hp' : p'.uncounted ≤ p.uncounted)

theorem settled_of_append {new : List (Task ι)} (h : (g.append new).Settled) : g.Settled :=
  ⟨h.1, (List.append_eq_nil_iff.mp h.2.1).1, h.2.2⟩

theorem move_settles [DecidableEq ι] (h : Move c i g p a g' p') (hpos : 0 ≤ g.activeThreadNums)
    (hs : g'.Settled) : Settles i g p a p' := by
  obtain ⟨hrun, ht, hactive⟩ := hs
  cases h with
  | schedule hk =>
      exact .before (settled_of_append ⟨hrun, ht, hactive⟩) le_rfl
  | expiredPush | settleReady =>
      exact .before (settled_of_append ⟨hrun, ht, hactive⟩) le_rfl
  | takeSome h =>
      obtain rfl : _ = [] := ht
      obtain ⟨hsplit, he⟩ := eq_singleton_of_takes h
      exact .take ⟨.inl rfl, _, by simp [hsplit], hsplit, he⟩ hrun hactive
  | lastSome h =>
      obtain rfl : _ = [] := ht
      obtain ⟨hsplit, he⟩ := eq_singleton_of_takes h
      exact .take ⟨.inr rfl, _, by simp [hsplit], hsplit, he⟩ hrun hactive
  | stopEarly | stop => exact .stop rfl rfl ht hactive rfl
  | increment =>
      change g.activeThreadNums + 1 = 0 at hactive
      omega
  | decrement =>
      change g.activeThreadNums - 1 = 0 at hactive
      exact .countOut rfl hrun ht (by omega) rfl
  | stopTrue | stopFalse => split <;> exact .before ⟨hrun, ht, hactive⟩ le_rfl
  | _ => exact .before ⟨hrun, ht, hactive⟩ (by first | exact le_rfl | exact Bool.false_le _)

theorem move_takesLast [DecidableEq ι] (h : Move c i g p a g' p') (hp : p.TakesLast i g) :
    g' = { g with tasks := [] } ∧ p'.uncounted = true := by
  obtain ⟨hloc, t, -, ht, he⟩ := hp
  cases h with
  | takeSome h | lastSome h =>
      obtain ⟨-, rfl⟩ := takes_singleton h ht he
      exact ⟨rfl, rfl⟩
  | takeNone hnot | lastNone hnot => exact absurd he (hnot t (by simp [ht]))
  | schedule hk | account hk => rcases hloc with hloc | hloc <;> cases hloc <;> cases hk
  | newFiber hk => rcases hloc with hloc | hloc <;> cases hloc <;> simp at hk
  | _ => rcases hloc with hloc | hloc <;> cases hloc

theorem move_stop (h : Move c i g p .stop g' p') : g' = { g with running := false } := by
  cases h with
  | stopEarly | stop => rfl

theorem move_countOut (h : Move c i g (.to .handled) a g' p') :
    g' = { g with activeThreadNums := g.activeThreadNums - 1 } := by
  generalize hp : (Pc.to .handled : Pc ι) = p at h
  cases h with
  | decrement => rfl
  | schedule hk | account hk => cases hp; cases hk
  | newFiber hk => cases hp; simp at hk
  | _ => cases hp

variable [DecidableEq ι] [Fintype ι] {s s' : Threads.State ι (Shared ι) (Pc ι)}
  {l : ι × Act ι}

/-- `activeThreadNums_` counts the workers between its two updates. -/
theorem activeThreadNums_eq (h : c.pool.lts.Reachable s) :
    s.shared.activeThreadNums = count Pc.active s.pc := by
  refine Threads.count_invariant (c := fun g => g.activeThreadNums) ?_
    (fun i g p a g' p' hact => move_active (act_move hact)) h
  rintro g pc ⟨rfl, rfl⟩
  exact ⟨rfl, fun i => by rcases c.startPc_eq i with h | h <;> rw [h] <;> rfl⟩

/-- `idleThreadNums_` counts the workers between its two updates. -/
theorem idleThreadNums_eq (h : c.pool.lts.Reachable s) :
    s.shared.idleThreadNums = count Pc.idling s.pc := by
  refine Threads.count_invariant (c := fun g => g.idleThreadNums) ?_
    (fun i g p a g' p' hact => move_idling (act_move hact)) h
  rintro g pc ⟨rfl, rfl⟩
  exact ⟨rfl, fun i => by rcases c.startPc_eq i with h | h <;> rw [h] <;> rfl⟩

/-- `canStop` does not lie: it is true only if nothing is queued and no worker has
a task. -/
def Truthful (s : Threads.State ι (Shared ι) (Pc ι)) : Prop :=
  s.shared.canStop → s.shared.running = false ∧ s.shared.tasks = [] ∧ ∀ i, ¬ (s.pc i).holding

/-- A step that settles the scheduler while a worker has a task that it is not
counted for: taking the last task, `stop`, or counting a worker out. -/
def SettlesBeside (s : Threads.State ι (Shared ι) (Pc ι)) (l : ι × Act ι) : Prop :=
  ((s.pc l.1).TakesLast l.1 s.shared ∧ s.shared.running = false ∧ s.shared.activeThreadNums = 0) ∨
  (s.shared.tasks = [] ∧ (∃ j, (s.pc j).uncounted) ∧
    (s.pc l.1 = .to .outside ∧ l.2 = .stop ∧ s.shared.activeThreadNums = 0 ∨
      s.pc l.1 = .to .handled ∧ s.shared.running = false ∧ s.shared.activeThreadNums = 1))

instance (s : Threads.State ι (Shared ι) (Pc ι)) (l : ι × Act ι) : Decidable (SettlesBeside s l) :=
  inferInstanceAs (Decidable (((_ ∨ _) ∧ ∃ t ∈ s.shared.tasks, _) ∧ _ ∨ _))

/-- What `canStop` knows: only a worker that is not counted can make it lie. -/
theorem truthful_iff (h : c.pool.lts.Reachable s) :
    Truthful s ↔ (s.shared.Settled → ∀ i, ¬ (s.pc i).uncounted) := by
  simp only [Truthful, Shared.canStop_iff]
  constructor
  · intro htrue hset i hun
    exact (htrue hset).2.2 i (Pc.holding_of_uncounted hun)
  · intro hcond hset
    refine ⟨hset.1, hset.2.1, fun i hhold => ?_⟩
    have hidle := hset.2.2
    rw [activeThreadNums_eq h, count_eq_zero_iff] at hidle
    rcases Pc.uncounted_or_active hhold with hun | hact
    · exact hcond hset i hun
    · simp [hidle i] at hact

theorem step_truthful (hr : c.pool.lts.Reachable s) (h : c.pool.lts.step s l = some s')
    (hs : Truthful s) : Truthful s' ↔ ¬ SettlesBeside s l := by
  have hpos : 0 ≤ s.shared.activeThreadNums := activeThreadNums_eq hr ▸ count_nonneg _ _
  rw [truthful_iff hr] at hs
  rw [truthful_iff (hr.step h)]
  obtain ⟨g, p, hm, rfl⟩ := step_move h
  -- what another thread has is as before
  have hother : ∀ j, (s.pc j).uncounted → (s.pc l.1).uncounted = false →
      (Function.update s.pc l.1 p j).uncounted := by
    intro j hj hl
    have hne : j ≠ l.1 := fun heq => by simp [← heq, hj] at hl
    simpa [hne] using hj
  constructor
  · rintro hcond (⟨hlast, hrun, hactive⟩ | ⟨ht, ⟨j, hj⟩, ⟨hp, ha, hactive⟩ | ⟨hp, hrun, hactive⟩⟩)
    · obtain ⟨rfl, hun⟩ := move_takesLast hm hlast
      exact hcond ⟨hrun, rfl, hactive⟩ l.1 (by simpa using hun)
    · rw [ha] at hm
      obtain rfl := move_stop hm
      exact hcond ⟨rfl, ht, hactive⟩ j (hother j hj (by rw [hp]; rfl))
    · rw [hp] at hm
      obtain rfl := move_countOut hm
      exact hcond ⟨hrun, ht, by simp [hactive]⟩ j (hother j hj (by rw [hp]; rfl))
  · intro hnot hset i hi
    have hback : p.uncounted = false → (s.pc i).uncounted := by
      intro hp
      have hne : i ≠ l.1 := by
        rintro rfl
        simp [hp] at hi
      simpa [hne] using hi
    cases move_settles hm hpos hset with
    | take hlast hrun hactive => exact hnot (.inl ⟨hlast, hrun, hactive⟩)
    | stop hp ha ht hactive hp' =>
        exact hnot (.inr ⟨ht, ⟨i, hback hp'⟩, .inl ⟨hp, ha, hactive⟩⟩)
    | countOut hp hrun ht hactive hp' =>
        exact hnot (.inr ⟨ht, ⟨i, hback hp'⟩, .inr ⟨hp, hrun, hactive⟩⟩)
    | before hset' hp' =>
        by_cases hil : i = l.1
        · subst hil
          exact hs hset' l.1 (Bool.le_iff_imp.mp hp' (by simpa using hi))
        · exact hs hset' i (by simpa [hil] using hi)

/-- **`canStop` never lies** along a run of the pool if and only if no step of it
settles the scheduler while a worker has a task that it is not counted for. -/
theorem truthful_along_iff (ls : List (ι × Act ι)) :
    c.pool.lts.Along Truthful c.start ls ↔
      c.pool.lts.Meets (fun s l => ¬ SettlesBeside s l) c.start ls := by
  refine Lts.along_iff_meets (I := c.pool.lts.Reachable) (fun _ _ _ h hr _ => hr.step h)
    (fun _ _ _ h hr hs => step_truthful hr h hs) (.init ⟨rfl, rfl⟩) ?_ ls
  exact fun h => by simp [start, started, Shared.canStop] at h

/-- A worker, and a thread outside the pool. -/
def oneWorker : PoolConfig (Fin 2) := ⟨true, [0], none, .inl (by decide)⟩

/-- A callback for any thread. -/
def anyCallback (n : ℕ) : Item ι := ⟨some (.cb n), none⟩

/-- A task runs while the scheduler is stopped. -/
theorem truthful_along_stopped :
    oneWorker.pool.lts.Along Truthful oneWorker.start
      [(1, .schedule [anyCallback 0]), (0, .step), (0, .step), (0, .step), (0, .step), (0, .step),
        (0, .step), (1, .step), (1, .stop), (0, .finish false), (0, .step), (0, .step), (0, .step),
        (0, .step)] :=
  (truthful_along_iff _).mpr (by decide)

/-- The worker has taken the task and is not counted yet when `stop` is called. -/
theorem truthful_false : ∃ s, oneWorker.pool.lts.Reachable s ∧ ¬ Truthful s := by
  have hrun : ((oneWorker.pool.lts.run oneWorker.start
      [(1, .schedule [anyCallback 0]), (0, .step), (1, .step), (1, .stop)]).map fun s =>
        (s.shared.canStop, (s.pc 0).holding)) = some (true, true) := by decide
  obtain ⟨s, hr, heq⟩ := reachable_start.of_map_run hrun
  obtain ⟨hcan, hhold⟩ := Prod.mk.inj heq
  exact ⟨s, hr, fun h => (h hcan).2.2 0 hhold⟩

end PoolConfig

end Easy.Base
