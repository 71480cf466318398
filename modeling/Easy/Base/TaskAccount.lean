import Easy.Base.ActiveCount

/-!
Where the tasks of a pool are.

A task that was pushed is in the queue, with a worker on its way through
`handleFiber`, past it, or it was a fiber that had finished. Every action passes
on what it has, except one: a worker whose `idle` has finished still calls
`take`, and leaves the loop with what it gets.
-/

namespace Easy.Base

open Lib

variable {ι : Type*}

/-- The task a worker will pass to `handleFiber`, or is passing. -/
def Pc.task (p : Pc ι) : Option ℕ :=
  match p.loc with
  | .taken task => some task.id
  | .prepared t _ | .unfinished t _ | .counted t _ | .asserted t _ | .exec t _ | .stored t _
  | .switched t _ | .settling t _ _ => some t
  | _ => none

/-- A thread at `p` and the shared state account for task `n`. -/
def Accounted (g : Shared ι) (p : Pc ι) (n : ℕ) : Prop :=
  (∃ t ∈ g.tasks, t.id = n) ∨ p.task = some n ∨ n ∈ g.handled ∨ n ∈ g.skipped

namespace PoolConfig

variable {c : PoolConfig ι}

theorem accounted_append {g : Shared ι} {new : List (Task ι)} {need : Bool} {p : Pc ι} {n : ℕ}
    (happ : g.Appends new need) (hlt : n < g.nextTask + new.length)
    (h : n < g.nextTask → Accounted g p n) : Accounted (g.append new) p n := by
  by_cases hn : n < g.nextTask
  · rcases h hn with ⟨t, ht, rfl⟩ | h
    · exact .inl ⟨t, List.mem_append_left _ ht, rfl⟩
    · exact .inr h
  · obtain ⟨t, ht, rfl⟩ := (happ.ids n).mpr ⟨by omega, hlt⟩
    exact .inl ⟨t, List.mem_append_right _ ht, rfl⟩

/-- **One action** accounts for all tasks it was left and all it pushes, unless
it takes a task after `idle` has finished. -/
theorem move_accounted {i : ι} {g g' : Shared ι} {p p' : Pc ι} {a : Act ι}
    (h : Move c i g p a g' p') (hwork : ∀ task, p.loc = .taken task → task.HasWork)
    (hleft : ∀ task, p'.loc ≠ .left (some task)) {n : ℕ} (hn : n < g'.nextTask)
    (hacc : n < g.nextTask → Accounted g p n) : Accounted g' p' n := by
  cases h with
  | @schedule k hk items handed new need hsub happ hfrom hfib =>
      exact accounted_append (g := { g with handed := handed }) ⟨happ.ids, happ.quiet⟩ hn hacc
  | expiredPush happ hfib => exact accounted_append happ hn hacc
  | settleReady happ hfib =>
      rcases accounted_append happ hn hacc with hk | hk | hk | hk
      · exact .inl hk
      · exact .inr (.inr (.inl (by simp_all [Pc.task, Pc.to, Shared.append])))
      · exact .inr (.inr (.inl (List.mem_append_left _ hk)))
      · exact .inr (.inr (.inr hk))
  | takeSome h =>
      cases h with
      | some hsplit he hw hl =>
          rcases hacc hn with ⟨t, ht, rfl⟩ | hk | hk
          · rw [hsplit, List.mem_append, List.mem_cons] at ht
            rcases ht with ht | rfl | ht
            · exact .inl ⟨t, List.mem_append_left _ ht, rfl⟩
            · exact .inr (.inl rfl)
            · exact .inl ⟨t, List.mem_append_right _ ht, rfl⟩
          · cases hk
          · exact .inr (.inr hk)
  | lastSome h => exact absurd rfl (hleft _)
  | @skipEmpty task hf hcb =>
      exact absurd (hwork task rfl) (by simp [Task.HasWork, hf, hcb])
  | skip =>
      rcases hacc hn with hk | hk | hk | hk
      · exact .inl hk
      · exact .inr (.inr (.inr (by simp_all [Pc.task, Pc.to])))
      · exact .inr (.inr (.inl hk))
      · exact .inr (.inr (.inr (List.mem_append_left _ hk)))
  | settleHold | settleDone =>
      rcases hacc hn with hk | hk | hk | hk
      · exact .inl hk
      · exact .inr (.inr (.inl (by simp_all [Pc.task, Pc.to, Shared.store])))
      · exact .inr (.inr (.inl (List.mem_append_left _ hk)))
      · exact .inr (.inr (.inr hk))
  | stopTrue | stopFalse => split <;> exact hacc hn
  | _ => exact hacc hn

/-- The task in a worker's hand has a callback or a fiber. -/
theorem move_hasWork {i : ι} {g g' : Shared ι} {p p' : Pc ι} {a : Act ι} {task : Task ι}
    (h : Move c i g p a g' p') (hp : p'.loc = .taken task) :
    p.loc = .taken task ∨ task.HasWork := by
  cases h with
  | takeSome h =>
      cases hp
      cases h with
      | some hsplit he hw hl => exact .inr hw
  | stopTrue | stopFalse => split at hp <;> cases hp
  | schedule | newFiber | account | weakupRead | weakupNone | weakupWrite => exact .inl hp
  | _ => cases hp

/-- A worker leaves its loop with a task if it takes one after `idle` has
finished. -/
theorem move_left {i : ι} {g g' : Shared ι} {p p' : Pc ι} {a : Act ι} {task : Task ι}
    (h : Move c i g p a g' p') (hp : p'.loc = .left (some task)) :
    p.loc = .left (some task) ∨ p = .to .last ∧ ∃ rest, Takes i g (some task) rest := by
  cases h with
  | lastSome h =>
      cases hp
      exact .inr ⟨rfl, _, h⟩
  | stopTrue | stopFalse => split at hp <;> cases hp
  | schedule | newFiber | account | weakupRead | weakupNone | weakupWrite => exact .inl hp
  | _ => cases hp

/-- After `idle` has finished a worker leaves its loop, with the first task it
could take if there is one. -/
theorem move_last {i : ι} {g g' : Shared ι} {p' : Pc ι} {a : Act ι}
    (h : Move c i g (.to .last) a g' p') : (∃ task, p' = .to (.left (some task))) ∨
      p' = .to (.left none) ∧ ∀ t ∈ g.tasks, ¬ t.Eligible g.state i := by
  generalize hp : (Pc.to .last : Pc ι) = p at h
  cases h with
  | lastSome h => exact .inl ⟨_, rfl⟩
  | lastNone hnot => exact .inr ⟨rfl, hnot⟩
  | schedule hk => cases hp; cases hk
  | account hk => cases hp; cases hk
  | newFiber hk => cases hp; simp at hk
  | _ => cases hp

variable [DecidableEq ι] {s s' : Threads.State ι (Shared ι) (Pc ι)} {l : ι × Act ι}

/-- No accepted task is dropped: each that was pushed is in the queue, with a
worker, handled, or skipped because its fiber had finished; and no worker has
left its loop with a task. -/
structure NoneDropped (s : Threads.State ι (Shared ι) (Pc ι)) : Prop where
  kept : ∀ n < s.shared.nextTask, (∃ t ∈ s.shared.tasks, t.id = n) ∨
    (∃ i, (s.pc i).task = some n) ∨ n ∈ s.shared.handled ∨ n ∈ s.shared.skipped
  none_left : ∀ i task, (s.pc i).loc ≠ .left (some task)

/-- A worker whose `idle` has finished finds no task that it could take. -/
def NothingToTake (s : Threads.State ι (Shared ι) (Pc ι)) (l : ι × Act ι) : Prop :=
  s.pc l.1 = .to .last → ∀ t ∈ s.shared.tasks, ¬ t.Eligible s.shared.state l.1

instance (s : Threads.State ι (Shared ι) (Pc ι)) (l : ι × Act ι) : Decidable (NothingToTake s l) :=
  inferInstanceAs (Decidable (_ → _))

theorem hasWork (h : c.pool.lts.Reachable s) :
    ∀ i task, (s.pc i).loc = .taken task → task.HasWork := by
  refine Threads.local_invariant (J := fun _ _ p => ∀ task, p.loc = .taken task → task.HasWork)
    ?_ ?_ ?_ h
  · rintro g pc ⟨rfl, rfl⟩ i task hi
    rcases c.startPc_eq i with h | h <;> rw [h] at hi <;> cases hi
  · intro i g p a g' p' hact hJ task hp
    rcases move_hasWork (act_move hact) hp with hp | hw
    · exact hJ task hp
    · exact hw
  · exact fun _ _ _ _ _ _ _ _ _ _ _ hJ => hJ

/-- **One step** keeps the tasks if and only if it is not a worker whose `idle` has
finished taking one. -/
theorem step_noneDropped (hr : c.pool.lts.Reachable s) (h : c.pool.lts.step s l = some s')
    (hs : NoneDropped s) : NoneDropped s' ↔ NothingToTake s l := by
  obtain ⟨g, p, hm, rfl⟩ := step_move h
  obtain ⟨hall, hleft⟩ := hs
  constructor
  · rintro ⟨-, hleft'⟩ hlast
    rw [hlast] at hm
    rcases move_last hm with ⟨task, rfl⟩ | ⟨-, hnot⟩
    · exact absurd (by simp [Pc.to]) (hleft' l.1 task)
    · exact hnot
  · intro hnothing
    have hp : ∀ task, p.loc ≠ .left (some task) := by
      intro task hp
      rcases move_left hm hp with hloc | ⟨hpc, rest, htake⟩
      · exact hleft l.1 task hloc
      · cases htake with
        | some hsplit he hw hl => exact hnothing hpc task (by simp [hsplit]) he
    constructor
    · intro n hn
      by_cases hold : n < s.shared.nextTask → Accounted s.shared (s.pc l.1) n
      · rcases move_accounted hm (hasWork hr l.1) hp hn hold with h | h | h
        · exact .inl h
        · exact .inr (.inl ⟨l.1, by simpa using h⟩)
        · exact .inr (.inr h)
      · -- another thread has the task, and keeps it
        rw [Classical.not_imp] at hold
        obtain ⟨hn', hnot⟩ := hold
        simp only [Accounted, not_or] at hnot
        rcases hall n hn' with h | ⟨j, hj⟩ | h | h
        · exact absurd h hnot.1
        · have hne : j ≠ l.1 := fun heq => hnot.2.1 (heq ▸ hj)
          exact .inr (.inl ⟨j, by simpa [hne] using hj⟩)
        · exact absurd h hnot.2.2.1
        · exact absurd h hnot.2.2.2
    · intro i task
      by_cases hi : i = l.1
      · subst hi
        simpa using hp task
      · simpa [hi] using hleft i task

/-- **No accepted task is dropped** along a run of the pool if and only if, whenever
a worker whose `idle` has finished calls `take`, there is no task for it. -/
theorem noneDropped_along_iff (ls : List (ι × Act ι)) :
    c.pool.lts.Along NoneDropped c.start ls ↔ c.pool.lts.Meets NothingToTake c.start ls := by
  refine Lts.along_iff_meets (I := c.pool.lts.Reachable) (fun _ _ _ h hr _ => hr.step h)
    (fun _ _ _ h hr hs => step_noneDropped hr h hs) (.init ⟨rfl, rfl⟩) ⟨?_, ?_⟩ ls
  · intro n hn
    exact absurd hn (Nat.not_lt_zero n)
  · intro i task
    rcases c.startPc_eq i with h | h <;> simp [start, h, Pc.to]

/-- Two workers, and a thread outside the pool. -/
def twoWorkers : PoolConfig (Fin 3) := ⟨true, [0, 1], none, .inl (by decide)⟩

/-- Worker 0 has collected the callback of the last timer when `stop` is called;
worker 1 finds that it can stop, and then takes the callback. -/
theorem noneDropped_false : ∃ s, twoWorkers.pool.lts.Reachable s ∧ ¬ NoneDropped s := by
  have hrun : ((twoWorkers.pool.lts.run twoWorkers.start
      [(2, .addTimer), (0, .step), (0, .step), (0, .step), (0, .step), (0, .wake [.timerfd]),
        (0, .expire 0 [some 7]), (2, .stop), (1, .step), (1, .step), (1, .step), (1, .step),
        (1, .step), (1, .step), (0, .step), (1, .step)]).map fun s => (s.pc 1).loc) =
      some (.left (some ⟨0, none, some 7, none⟩)) := by decide
  obtain ⟨s, hr, hloc⟩ := reachable_start.of_map_run hrun
  exact ⟨s, hr, fun h => h.none_left 1 _ hloc⟩

end PoolConfig

end Easy.Base
