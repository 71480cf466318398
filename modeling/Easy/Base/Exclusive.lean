import Easy.Base.TaskAccount

/-!
Who runs a fiber.

`take` passes over a task whose fiber is in the state `EXEC`. The state word is
stored by the fiber before its context is saved, and by its worker some time
after the task was taken, so it is no lock. What it guards is exclusive as long
as no task of a fiber is taken while another worker has the fiber in hand, from
its own `take` to the switch that saves the context.
-/

namespace Easy.Base

open Lib

variable {ι : Type*}

namespace Pc

/-- The fiber of the task a worker has. -/
def fiber (p : Pc ι) : Option ℕ :=
  match p.loc with
  | .taken task => task.fiber
  | .prepared _ f | .unfinished _ f | .counted _ f | .asserted _ f | .exec _ f | .stored _ f
  | .switched _ f | .settling _ f _ => some f
  | _ => none

/-- The fiber a worker has taken and not switched out of. -/
def inHand (p : Pc ι) : Option ℕ :=
  match p.loc with
  | .switched .. | .settling .. => none
  | _ => p.fiber

/-- The fiber a worker executes, up to the switch that saves its context. -/
def executing (p : Pc ι) : Option ℕ :=
  match p.loc with
  | .exec _ f | .stored _ f => some f
  | _ => none

/-- The fiber a worker calls `sched_resume` on, before it switches to it. -/
def resuming (p : Pc ι) : Option ℕ :=
  match p.loc with
  | .counted _ f | .asserted _ f => some f
  | _ => none

theorem fiber_of_inHand {p : Pc ι} {f : ℕ} (h : p.inHand = some f) : p.fiber = some f := by
  unfold inHand at h
  split at h
  · cases h
  · cases h
  · exact h

theorem inHand_of_executing {p : Pc ι} {f : ℕ} (h : p.executing = some f) :
    p.inHand = some f := by
  obtain ⟨l, w⟩ := p
  cases l <;> simp_all [executing, inHand, fiber]

theorem inHand_of_resuming {p : Pc ι} {f : ℕ} (h : p.resuming = some f) :
    p.inHand = some f := by
  obtain ⟨l, w⟩ := p
  cases l <;> simp_all [resuming, inHand, fiber]

theorem not_executing_of_resuming {p : Pc ι} {f : ℕ} (h : p.resuming = some f) :
    p.executing = none := by
  obtain ⟨l, w⟩ := p
  cases l <;> simp_all [resuming, executing]

end Pc

/-- The fibers a thread at `p` and the shared state know of have been made. -/
structure Fibers (g : Shared ι) (p : Pc ι) : Prop where
  handed : ∀ f ∈ g.handed, f < g.nextFiber
  tasks : ∀ t ∈ g.tasks, ∀ f ∈ t.fiber, f < g.nextFiber
  own : ∀ f ∈ p.fiber, f < g.nextFiber

namespace PoolConfig

variable {c : PoolConfig ι} {i : ι} {g g' : Shared ι} {p p' : Pc ι} {a : Act ι} {f : ℕ}

theorem move_nextFiber (h : Move c i g p a g' p') : g.nextFiber ≤ g'.nextFiber := by
  cases h with
  | newFiber | prepareCb => exact Nat.le_succ _
  | _ => exact Nat.le_refl _

/-- Where a pointer that is out comes from. -/
theorem move_handed (h : Move c i g p a g' p') (hf : f ∈ g'.handed) :
    f ∈ g.handed ∨ p.fiber = some f ∨ f < g'.nextFiber := by
  cases h with
  | schedule _ hsub => exact .inl (hsub f hf)
  | newFiber =>
      rcases List.mem_append.mp hf with hf | hf
      · exact .inl hf
      · rw [List.mem_singleton.mp hf]
        exact .inr (.inr (Nat.lt_succ_self _))
  | handOver =>
      rcases List.mem_append.mp hf with hf | hf
      · exact .inl hf
      · rw [List.mem_singleton.mp hf]
        exact .inr (.inl rfl)
  | _ => exact .inl hf

theorem fiber_of_append {new : List (Task ι)} {fs : List ℕ} {t : Task ι}
    (hnew : Shared.FibersIn new fs) (ht : t ∈ (g.append new).tasks) (hf : f ∈ t.fiber) :
    (∃ t ∈ g.tasks, f ∈ t.fiber) ∨ f ∈ fs := by
  rcases List.mem_append.mp ht with ht | ht
  · exact .inl ⟨t, ht, hf⟩
  · exact .inr (hnew t ht f hf)

/-- Where the fiber of a task comes from. -/
theorem move_tasks {t : Task ι} (h : Move c i g p a g' p') (ht : t ∈ g'.tasks)
    (hf : f ∈ t.fiber) : (∃ t ∈ g.tasks, f ∈ t.fiber) ∨ f ∈ g.handed ∨ p.fiber = some f := by
  cases h with
  | schedule _ _ _ _ hfib =>
      rcases fiber_of_append hfib ht hf with h | h
      · exact .inl h
      · exact .inr (.inl h)
  | expiredPush _ hfib =>
      rcases fiber_of_append hfib ht hf with h | h
      · exact .inl h
      · cases h
  | settleReady _ hfib =>
      rcases fiber_of_append hfib ht hf with h | h
      · exact .inl h
      · rw [List.mem_singleton.mp h]
        exact .inr (.inr rfl)
  | takeSome htake | lastSome htake =>
      cases htake with
      | some hsplit =>
          refine .inl ⟨t, ?_, hf⟩
          rw [hsplit, List.mem_append, List.mem_cons]
          rcases List.mem_append.mp ht with ht | ht
          · exact .inl ht
          · exact .inr (.inr ht)
  | _ => exact .inl ⟨t, ht, hf⟩

/-- Where the fiber a thread has comes from. -/
theorem move_fiber (h : Move c i g p a g' p') (hf : p'.fiber = some f) :
    p.fiber = some f ∨ (∃ t ∈ g.tasks, f ∈ t.fiber) ∨ f < g'.nextFiber := by
  cases h with
  | takeSome htake =>
      cases htake with
      | some hsplit => exact .inr (.inl ⟨_, by simp [hsplit], hf⟩)
  | prepareCb =>
      cases hf
      exact .inr (.inr (Nat.lt_succ_self _))
  | prepareFiber hfib =>
      cases hf
      exact .inl hfib
  | stopTrue | stopFalse => split at hf <;> cases hf
  | _ => first | exact .inl hf | cases hf

/-- A fiber comes into a worker's hand by `take`, or is new. -/
theorem move_inHand (h : Move c i g p a g' p') (hf : p'.inHand = some f) :
    p.inHand = some f ∨
      (p = .to .top ∧ ∃ task rest, Takes i g (some task) rest ∧ task.fiber = some f) ∨
      f = g.nextFiber := by
  cases h with
  | takeSome htake => exact .inr (.inl ⟨rfl, _, _, htake, hf⟩)
  | prepareCb =>
      cases hf
      exact .inr (.inr rfl)
  | prepareFiber hfib =>
      cases hf
      exact .inl hfib
  | stopTrue | stopFalse => split at hf <;> cases hf
  | _ => first | exact .inl hf | cases hf

theorem move_fibers (h : Move c i g p a g' p') (hg : Fibers g p) : Fibers g' p' := by
  have hmono := move_nextFiber h
  have htask : ∀ f, (∃ t ∈ g.tasks, f ∈ t.fiber) → f < g'.nextFiber := by
    rintro f ⟨t, ht, hf⟩
    exact (hg.tasks t ht f hf).trans_le hmono
  refine ⟨fun f hf => ?_, fun t ht f hf => ?_, fun f hf => ?_⟩
  · rcases move_handed h hf with hf | hf | hf
    · exact (hg.handed f hf).trans_le hmono
    · exact (hg.own f hf).trans_le hmono
    · exact hf
  · rcases move_tasks h ht hf with hf | hf | hf
    · exact htask f hf
    · exact (hg.handed f hf).trans_le hmono
    · exact (hg.own f hf).trans_le hmono
  · rcases move_fiber h hf with hf | hf | hf
    · exact (hg.own f hf).trans_le hmono
    · exact htask f hf
    · exact hf

variable [DecidableEq ι] {s : Threads.State ι (Shared ι) (Pc ι)}

theorem fibers (h : c.pool.lts.Reachable s) : ∀ i, Fibers s.shared (s.pc i) := by
  refine Threads.local_invariant (J := fun _ g p => Fibers g p) ?_ ?_ ?_ h
  · rintro g pc ⟨rfl, rfl⟩ i
    refine ⟨by simp [started], by simp [started], fun f hf => ?_⟩
    rcases c.startPc_eq i with h | h <;> rw [h] at hf <;> cases hf
  · exact fun i g p a g' p' hact hg => move_fibers (act_move hact) hg
  · intro i j g p a g' p' q hact _ hp hq
    obtain ⟨hhanded, htasks, -⟩ := move_fibers (act_move hact) hp
    exact ⟨hhanded, htasks, fun f hf => (hq.own f hf).trans_le (move_nextFiber (act_move hact))⟩

/-- A fiber is run by one worker at a time: at most one executes it, and none
while a worker is about to resume it. -/
structure Exclusive (s : Threads.State ι (Shared ι) (Pc ι)) : Prop where
  executing : ∀ i j f, (s.pc i).executing = some f → (s.pc j).executing = some f → i = j
  resuming : ∀ i j f, (s.pc i).resuming = some f → (s.pc j).executing ≠ some f

/-- `take` hands out no task of a fiber that a worker has in hand. -/
def NotInHand (s : Threads.State ι (Shared ι) (Pc ι)) (l : ι × Act ι) : Prop :=
  s.pc l.1 = .to .top → ∀ task ∈ s.shared.tasks.find? (·.Eligible s.shared.state l.1),
    ∀ f ∈ task.fiber, ∀ j, (s.pc j).inHand ≠ some f

instance [Fintype ι] (s : Threads.State ι (Shared ι) (Pc ι)) (l : ι × Act ι) :
    Decidable (NotInHand s l) :=
  inferInstanceAs (Decidable (_ → _))

theorem find_takes {i : ι} {g : Shared ι} {task : Task ι} {rest : List (Task ι)}
    (h : Takes i g (some task) rest) :
    g.tasks.find? (·.Eligible g.state i) = some task := by
  cases h with
  | some hsplit he _ hl =>
      rw [List.find?_eq_some_iff_append]
      exact ⟨by simpa using he, _, _, hsplit, fun u hu => by simpa using hl u hu⟩

/-- No two workers have a fiber in hand. -/
theorem inHand_unique (h : c.pool.lts.Guarded NotInHand s) :
    ∀ i j f, (s.pc i).inHand = some f → (s.pc j).inHand = some f → i = j := by
  refine h.invariant (I := fun s => ∀ i j f, (s.pc i).inHand = some f →
    (s.pc j).inHand = some f → i = j) ?_ ?_
  · rintro ⟨g, pc⟩ ⟨rfl, rfl⟩ i j f hi
    rcases c.startPc_eq i with h | h <;> simp [h, Pc.inHand, Pc.fiber, Pc.to] at hi
  · intro s l s' hr hg hstep hI
    obtain ⟨g, p, hm, rfl⟩ := step_move hstep
    -- the thread that moves has in hand what no other has
    have hown : ∀ f, p.inHand = some f → ∀ j, j ≠ l.1 → (s.pc j).inHand ≠ some f := by
      intro f hf j hj hjf
      rcases move_inHand hm hf with hf | ⟨htop, task, rest, htake, hfib⟩ | rfl
      · exact hj (hI _ _ f hjf hf)
      · exact hg htop task (find_takes htake) f hfib j hjf
      · exact (Nat.lt_irrefl _ ((fibers hr j).own _ (Pc.fiber_of_inHand hjf)))
    intro i j f hi hj
    by_cases hil : i = l.1 <;> by_cases hjl : j = l.1
    · rw [hil, hjl]
    · subst hil
      simp only [Function.update_self] at hi
      simp only [Function.update_of_ne hjl] at hj
      exact absurd hj (hown f hi j hjl)
    · subst hjl
      simp only [Function.update_self] at hj
      simp only [Function.update_of_ne hil] at hi
      exact absurd hi (hown f hj i hil)
    · simp only [Function.update_of_ne hil] at hi
      simp only [Function.update_of_ne hjl] at hj
      exact hI i j f hi hj

theorem exclusive_of_guarded (h : c.pool.lts.Guarded NotInHand s) : Exclusive s := by
  refine ⟨fun i j f hi hj => ?_, fun i j f hi hj => ?_⟩
  · exact inHand_unique h i j f (Pc.inHand_of_executing hi) (Pc.inHand_of_executing hj)
  · obtain rfl :=
      inHand_unique h i j f (Pc.inHand_of_resuming hi) (Pc.inHand_of_executing hj)
    simp [Pc.not_executing_of_resuming hi] at hj

/-- **A fiber is never run by two workers at once** along a run in which `take` hands
out no task of a fiber that another worker has taken and not switched out of. -/
theorem exclusive_along (ls : List (ι × Act ι))
    (h : c.pool.lts.Meets NotInHand c.start ls) : c.pool.lts.Along Exclusive c.start ls :=
  Lts.Guarded.along (fun _ => exclusive_of_guarded) (.init ⟨rfl, rfl⟩) h

/-- A fiber is scheduled again after it has been switched out of, and resumed by
the other worker. -/
theorem exclusive_along_resumed : twoWorkers.pool.lts.Along Exclusive twoWorkers.start
    [(2, .schedule [anyCallback 0]), (2, .step), (0, .step), (0, .step), (0, .step), (0, .step),
      (0, .step), (0, .step), (0, .handOver), (0, .yieldToHold), (0, .step), (0, .step), (0, .step),
      (2, .schedule [⟨some (.fiber 0), none⟩]), (1, .step), (1, .step), (1, .step), (1, .step),
      (1, .step), (1, .step)] :=
  exclusive_along _ (by decide)

/-- The fiber of worker 0 gives itself to thread 2, which schedules it, and stores
`HOLD`; worker 1 resumes it before worker 0 has switched out. -/
theorem exclusive_false : ∃ s, twoWorkers.pool.lts.Reachable s ∧ ¬ Exclusive s := by
  have hrun : ((twoWorkers.pool.lts.run twoWorkers.start
      [(2, .schedule [anyCallback 0]), (2, .step), (0, .step), (0, .step), (0, .step), (0, .step),
        (0, .step), (0, .step), (0, .handOver), (2, .schedule [⟨some (.fiber 0), none⟩]),
        (0, .yieldToHold), (1, .step), (1, .step), (1, .step), (1, .step), (1, .step),
        (1, .step)]).map fun s =>
          ((s.pc 0).executing, (s.pc 1).executing)) = some (some 0, some 0) := by decide
  obtain ⟨s, hr, heq⟩ := reachable_start.of_map_run hrun
  obtain ⟨h₀, h₁⟩ := Prod.mk.inj heq
  exact ⟨s, hr, fun h => absurd (h.executing 0 1 0 h₀ h₁) (by decide)⟩

end PoolConfig

end Easy.Base
