import Easy.Base.Channel
import Mathlib.Tactic.Tauto

/-!
The task queue of `Scheduler` (`easy/base/Scheduler.h`, `Scheduler.cc`) and the
state word of a `Fiber` (`easy/base/Fiber.h`): what one critical section of
`lock_` does to `tasks_`.

Fibers and callbacks are named by numbers. `ι` is the type of threads, by which
tasks are pinned; a task with `threadId_ == -1` has no pin. A task carries the
number of its `push_back`, which no function of the source reads.
-/

namespace Easy.Base

/-- `Fiber::State` -/
inductive FiberState
  | init
  | ready
  | hold
  | exec
  | term
  | except
  deriving DecidableEq, Repr

/-- `Fiber::finish` -/
def FiberState.finish (s : FiberState) : Bool := s = .term || s = .except

/-- `Scheduler::Task` -/
structure Task (ι : Type*) where
  id : ℕ
  fiber : Option ℕ
  cb : Option ℕ
  threadId : Option ι
  deriving DecidableEq

/-- The arguments of `schedule`. Without `work` it is an empty function or a
null fiber. -/
structure Item (ι : Type*) where
  work : Option (Work ℕ ℕ)
  threadId : Option ι
  deriving DecidableEq

/-- `tasks_`, and the number of the next task. -/
structure Queue (ι : Type*) where
  tasks : List (Task ι)
  nextTask : ℕ
  deriving DecidableEq

variable {ι : Type*}

/-- The constructors of `Task`. -/
def Task.make (id : ℕ) (item : Item ι) : Task ι where
  id := id
  fiber := match item.work with | some (.fiber f) => some f | _ => none
  cb := match item.work with | some (.cb k) => some k | _ => none
  threadId := item.threadId

/-- A task with a callback or a fiber. -/
def Task.HasWork (t : Task ι) : Prop := t.fiber.isSome ∨ t.cb.isSome

namespace Queue

/-- `Scheduler::scheduleNonBlock` -/
def scheduleNonBlock (q : Queue ι) (item : Item ι) : Bool × Queue ι :=
  let should_weakup := q.tasks.isEmpty
  let task := Task.make q.nextTask item
  if task.fiber.isSome || task.cb.isSome then
    (should_weakup, ⟨q.tasks ++ [task], q.nextTask + 1⟩)
  else (should_weakup, q)

/-- The loop of `schedule` over a range, which for a single task runs once. -/
def scheduleRange (q : Queue ι) (need_weakup : Bool) : List (Item ι) → Bool × Queue ι
  | [] => (need_weakup, q)
  | item :: items =>
    let (should_weakup, q) := q.scheduleNonBlock item
    q.scheduleRange (should_weakup || need_weakup) items

end Queue

section Take

variable [DecidableEq ι]

/-- A task that `take` may hand to thread `me`. -/
def Task.Eligible (state : ℕ → FiberState) (me : ι) (t : Task ι) : Prop :=
  (t.threadId = none ∨ t.threadId = some me) ∧ ∀ f ∈ t.fiber, state f ≠ .exec

instance (state : ℕ → FiberState) (me : ι) : DecidablePred (Task.Eligible state me) := fun _ =>
  inferInstanceAs (Decidable (_ ∧ _))

/-- `Scheduler::take` on thread `me`: the task handed out, and what is left of
`tasks_`. An error is its assertion. -/
def take (state : ℕ → FiberState) (me : ι) : List (Task ι) →
    Except Unit (Option (Task ι) × List (Task ι))
  | [] => .ok (none, [])
  | task :: tasks =>
    let next := match take state me tasks with
      | .ok (r, rest) => .ok (r, task :: rest)
      | .error e => .error e
    -- designate thread
    if task.threadId ≠ none ∧ task.threadId ≠ some me then next
    else if !(task.fiber.isSome || task.cb.isSome) then .error ()
    else if ∃ f ∈ task.fiber, state f = .exec then next
    else .ok (some task, tasks)

end Take

/-! ### Scheduling -/

theorem work_of_make {n : ℕ} {item : Item ι}
    (h : ((Task.make n item).fiber.isSome || (Task.make n item).cb.isSome) = true) :
    item.work.isSome := by
  rcases item with ⟨_ | _, _⟩
  · cases h
  · rfl

theorem scheduleNonBlock_eq (q : Queue ι) (item : Item ι) :
    (q.scheduleNonBlock item).2 = q ∨ item.work.isSome ∧
      (q.scheduleNonBlock item).2 = ⟨q.tasks ++ [Task.make q.nextTask item], q.nextTask + 1⟩ := by
  simp only [Queue.scheduleNonBlock]
  split
  · exact .inr ⟨work_of_make ‹_›, rfl⟩
  · exact .inl rfl

/-- Tasks made of some of the items, those that are not empty. -/
def Task.MadeOf (items : List (Item ι)) (t : Task ι) : Prop :=
  ∃ n, ∃ item ∈ items, item.work.isSome ∧ t = .make n item

theorem Task.MadeOf.cons {items : List (Item ι)} {t : Task ι} (h : t.MadeOf items)
    (item : Item ι) : t.MadeOf (item :: items) := by
  obtain ⟨n, it, hit, hw, rfl⟩ := h
  exact ⟨n, it, List.mem_cons_of_mem _ hit, hw, rfl⟩

theorem Task.MadeOf.fiber {items : List (Item ι)} {t : Task ι} (h : t.MadeOf items) {f : ℕ}
    (hf : f ∈ t.fiber) : ∃ item ∈ items, item.work = some (.fiber f) := by
  obtain ⟨n, item, hitem, -, rfl⟩ := h
  refine ⟨item, hitem, ?_⟩
  rcases item with ⟨_ | ⟨_ | f'⟩, pin⟩ <;> simp_all [Task.make]

/-- Scheduling appends tasks with numbers of their own. -/
theorem scheduleRange_eq (items : List (Item ι)) (q : Queue ι) (need : Bool) :
    ∃ new : List (Task ι), (q.scheduleRange need items).2 =
        ⟨q.tasks ++ new, q.nextTask + new.length⟩ ∧
      (∀ t ∈ new, t.MadeOf items) ∧
      ∀ n, (∃ t ∈ new, t.id = n) ↔ q.nextTask ≤ n ∧ n < q.nextTask + new.length := by
  induction items generalizing q need with
  | nil => exact ⟨[], by simp [Queue.scheduleRange], by simp, by simp⟩
  | cons item items ih =>
      obtain ⟨new, hq, hfrom, hids⟩ :=
        ih (q.scheduleNonBlock item).2 ((q.scheduleNonBlock item).1 || need)
      simp only [Queue.scheduleRange]
      rcases scheduleNonBlock_eq q item with h | ⟨hwork, h⟩
      · rw [h] at hq hids ⊢
        exact ⟨new, hq, fun t ht => (hfrom t ht).cons item, hids⟩
      · rw [h] at hq hids ⊢
        refine ⟨Task.make q.nextTask item :: new, ?_, ?_, ?_⟩
        · rw [hq]
          simp
          omega
        · intro t ht
          rcases List.mem_cons.mp ht with rfl | ht
          · exact ⟨_, item, by simp, hwork, rfl⟩
          · exact (hfrom t ht).cons item
        · intro n
          have := hids n
          simp only [List.mem_cons, exists_eq_or_imp, this, Task.make, List.length_cons]
          omega

theorem scheduleRange_true (items : List (Item ι)) (q : Queue ι) :
    (q.scheduleRange true items).1 = true := by
  induction items generalizing q with
  | nil => rfl
  | cons item items ih => simpa [Queue.scheduleRange] using ih _

/-- Nobody is woken only if the queue was not empty. -/
theorem scheduleRange_false {items : List (Item ι)} {q : Queue ι}
    (h : (q.scheduleRange false items).1 = false) (hne : items ≠ []) : q.tasks ≠ [] := by
  cases items with
  | nil => exact absurd rfl hne
  | cons item items =>
      intro hnil
      have hshould : (q.scheduleNonBlock item).1 = true := by
        simp only [Queue.scheduleNonBlock, hnil]
        split <;> rfl
      simp [Queue.scheduleRange, hshould, scheduleRange_true] at h

/-! ### Taking -/

/-- What `take` does when its assertion holds: it leaves the queue as it is if
no task is eligible, and otherwise takes the first one that is. -/
theorem take_ok [DecidableEq ι] {state : ℕ → FiberState} {me : ι} {tasks rest : List (Task ι)}
    {r : Option (Task ι)} (h : take state me tasks = .ok (r, rest)) :
    (r = none ∧ rest = tasks ∧ ∀ t ∈ tasks, ¬ t.Eligible state me) ∨
      ∃ t l l', r = some t ∧ tasks = l ++ t :: l' ∧ rest = l ++ l' ∧ t.Eligible state me ∧
        (t.fiber.isSome ∨ t.cb.isSome) ∧ ∀ u ∈ l, ¬ u.Eligible state me := by
  induction tasks generalizing r rest with
  | nil =>
      simp only [take, Except.ok.injEq, Prod.mk.injEq] at h
      exact .inl ⟨h.1.symm, h.2.symm, by simp⟩
  | cons task tasks ih =>
      have hskip : ∀ r rest, (match take state me tasks with
          | .ok (r, rest) => Except.ok (r, task :: rest)
          | .error e => .error e) = Except.ok (r, rest) → ¬ task.Eligible state me →
          (r = none ∧ rest = task :: tasks ∧ ∀ t ∈ task :: tasks, ¬ t.Eligible state me) ∨
            ∃ t l l', r = some t ∧ task :: tasks = l ++ t :: l' ∧ rest = l ++ l' ∧
              t.Eligible state me ∧ (t.fiber.isSome ∨ t.cb.isSome) ∧
                ∀ u ∈ l, ¬ u.Eligible state me := by
        intro r rest hr hnot
        split at hr
        · rename_i r' rest' heq
          obtain ⟨rfl, rfl⟩ := Prod.mk.inj (Except.ok.inj hr)
          rcases ih heq with ⟨rfl, rfl, hall⟩ | ⟨t, l, l', rfl, rfl, rfl, helig, hwork, hbefore⟩
          · exact .inl ⟨rfl, rfl, by simpa using ⟨hnot, hall⟩⟩
          · exact .inr ⟨t, task :: l, l', rfl, rfl, rfl, helig, hwork,
              by simpa using ⟨hnot, hbefore⟩⟩
        · cases hr
      simp only [take] at h
      split at h
      · rename_i hpin
        exact hskip r rest h fun he => by
          rcases he.1 with hp | hp
          · exact hpin.1 hp
          · exact hpin.2 hp
      · split at h
        · cases h
        · split at h
          · rename_i hexec
            refine hskip r rest h fun he => ?_
            obtain ⟨f, hf, hst⟩ := hexec
            exact he.2 f hf hst
          · rename_i hpin hwork hexec
            obtain ⟨rfl, rfl⟩ := Prod.mk.inj (Except.ok.inj h)
            refine .inr ⟨task, [], tasks, rfl, rfl, rfl, ⟨?_, ?_⟩,
              by simpa only [Bool.not_eq_true', Bool.not_eq_false, Bool.or_eq_true] using hwork,
              by simp⟩
            · tauto
            · exact fun f hf hst => hexec ⟨f, hf, hst⟩

end Easy.Base
