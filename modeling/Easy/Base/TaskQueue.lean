import Easy.Base.Scheduler
import Easy.Lib.Lts
import Mathlib.Data.List.Range

/-!
The task queue of `Scheduler` over runs of its critical sections: `schedule`
and `take`, by any threads in any order, with the states of the fibers chosen
anew for each `take`.

What has been offered to the queue determines what should come out of it:
`Queue.made` lists the tasks of all items that are not empty, in the order of
their `schedule` calls. The queue is at any time what is left of that list.
-/

namespace Easy.Base

open Lib

variable {ι : Type*}

/-- The items that `scheduleNonBlock` does not drop, as tasks numbered from `n`. -/
def Queue.made (n : ℕ) : List (Item ι) → List (Task ι)
  | [] => []
  | item :: items =>
    if item.work.isSome then Task.make n item :: made (n + 1) items else made n items

theorem Task.hasWork_make {item : Item ι} (h : item.work.isSome) (n : ℕ) :
    (Task.make n item).HasWork := by
  rcases item with ⟨_ | ⟨_ | _⟩, pin⟩ <;> simp_all [Task.make, Task.HasWork]

namespace Queue

theorem made_append (n : ℕ) (items items' : List (Item ι)) :
    made n (items ++ items') = made n items ++ made (n + (made n items).length) items' := by
  induction items generalizing n with
  | nil => rfl
  | cons item items ih =>
      simp only [List.cons_append, made]
      split_ifs
      · rw [ih, List.cons_append, List.length_cons, Nat.add_right_comm n, ← Nat.add_assoc]
      · exact ih n

theorem hasWork_of_mem_made {n : ℕ} {items : List (Item ι)} {t : Task ι}
    (h : t ∈ made n items) : t.HasWork := by
  induction items generalizing n with
  | nil => cases h
  | cons item items ih =>
      simp only [made] at h
      split_ifs at h with hw
      · rcases List.mem_cons.mp h with rfl | h
        · exact Task.hasWork_make hw n
        · exact ih h
      · exact ih h

/-- Tasks are numbered in the order they are scheduled in. -/
theorem map_id_made (n : ℕ) (items : List (Item ι)) :
    (made n items).map Task.id = List.range' n (made n items).length := by
  induction items generalizing n with
  | nil => rfl
  | cons item items ih =>
      simp only [made]
      split_ifs
      · rw [List.map_cons, ih, List.length_cons, List.range'_succ]
        rfl
      · exact ih n

theorem pairwise_made (n : ℕ) (items : List (Item ι)) :
    (made n items).Pairwise fun t u => t.id < u.id := by
  rw [← List.pairwise_map (R := (· < ·)), map_id_made]
  exact List.pairwise_lt_range'

theorem scheduleNonBlock_made (q : Queue ι) (item : Item ι) :
    (q.scheduleNonBlock item).2 = ⟨q.tasks ++ made q.nextTask [item],
      q.nextTask + (made q.nextTask [item]).length⟩ := by
  rcases item with ⟨_ | ⟨_ | _⟩, pin⟩ <;> simp [scheduleNonBlock, Task.make, made]

/-- A `schedule` call appends the tasks of its items that are not empty. -/
theorem scheduleRange_made (q : Queue ι) (need : Bool) (items : List (Item ι)) :
    (q.scheduleRange need items).2 = ⟨q.tasks ++ made q.nextTask items,
      q.nextTask + (made q.nextTask items).length⟩ := by
  induction items generalizing q need with
  | nil => simp [scheduleRange, made]
  | cons item items ih =>
      have hmade := made_append q.nextTask [item] items
      rw [List.singleton_append] at hmade
      rw [scheduleRange, ih, scheduleNonBlock_made, hmade]
      simp only [List.append_assoc, List.length_append, Nat.add_assoc]

end Queue

/-- The queue, what `schedule` has been called with, and which thread has taken
which task, in the order of the calls. -/
structure QueueRun (ι : Type*) where
  queue : Queue ι
  offered : List (Item ι)
  taken : List (ι × Task ι)
  deriving DecidableEq

/-- The critical sections of `lock_`, with the arguments of each call. The tasks of
a range are not pinned. -/
inductive QueueOp (ι : Type*)
  | schedule (item : Item ι)
  | scheduleRange (works : List (Option (Work ℕ ℕ)))
  | take (me : ι) (state : ℕ → FiberState)

namespace QueueRun

def start : QueueRun ι := ⟨⟨[], 0⟩, [], []⟩

section Machine

variable [DecidableEq ι]

/-- A `take` whose assertion fails has no next state. -/
def step (s : QueueRun ι) : QueueOp ι → Option (QueueRun ι)
  | .schedule item =>
    some { s with queue := (s.queue.scheduleNonBlock item).2, offered := s.offered ++ [item] }
  | .scheduleRange works =>
    let items := works.map fun work => ⟨work, none⟩
    some { s with queue := (s.queue.scheduleRange false items).2, offered := s.offered ++ items }
  | .take me state =>
    match Easy.Base.take state me s.queue.tasks with
    | .ok (task, rest) => some { s with
        queue := { s.queue with tasks := rest }
        taken := s.taken ++ task.toList.map fun t => (me, t) }
    | .error _ => none

def machine : Lts (QueueRun ι) (QueueOp ι) where
  init s := s = start
  step := step

end Machine

/-- All tasks scheduled so far, in order. -/
def pushed (s : QueueRun ι) : List (Task ι) := Queue.made 0 s.offered

/-- Each scheduled task is in the queue or has been taken, once; the queue is in the
order of scheduling, and no thread has taken a task pinned to another. -/
structure Delivered (s : QueueRun ι) : Prop where
  next : s.queue.nextTask = s.pushed.length
  ordered : s.queue.tasks.Sublist s.pushed
  once : (s.taken.map Prod.snd ++ s.queue.tasks).Perm s.pushed
  pinned : ∀ x ∈ s.taken, x.2.threadId = none ∨ x.2.threadId = some x.1

/-- What thread `me` should get from a `take`, and what should be left: the first
eligible task if there is one, and a later task of a pin only while the earlier
ones are fibers that run. -/
structure TakesFirst (s : QueueRun ι) (state : ℕ → FiberState) (me : ι) (r : Option (Task ι))
    (rest : List (Task ι)) : Prop where
  none_eligible : r = none → rest = s.queue.tasks ∧ ∀ t ∈ s.queue.tasks, ¬ t.Eligible state me
  first : ∀ t ∈ r, t.Eligible state me ∧ ∃ l l', s.queue.tasks = l ++ t :: l' ∧
    rest = l ++ l' ∧ ∀ u ∈ l, ¬ u.Eligible state me
  same_pin : ∀ t ∈ r, ∀ u ∈ s.pushed, u ∉ s.taken.map Prod.snd → u.id < t.id →
    u.threadId = t.threadId → ∃ f ∈ u.fiber, state f = .exec

namespace Delivered

variable {s : QueueRun ι}

theorem hasWork (h : Delivered s) {t : Task ι} (ht : t ∈ s.queue.tasks) : t.HasWork :=
  Queue.hasWork_of_mem_made (h.ordered.subset ht)

theorem nodup_taken (h : Delivered s) : (s.taken.map Prod.snd).Nodup := by
  have hpushed : s.pushed.Nodup := (Queue.pairwise_made 0 s.offered).imp fun hlt heq => by
    subst heq
    exact absurd hlt (Nat.lt_irrefl _)
  exact (List.nodup_append.mp (h.once.nodup_iff.mpr hpushed)).1

/-- What has been scheduled and not taken is in the queue. -/
theorem mem_tasks (h : Delivered s) {t : Task ι} (ht : t ∈ s.pushed)
    (hnot : t ∉ s.taken.map Prod.snd) : t ∈ s.queue.tasks := by
  rcases List.mem_append.mp (h.once.mem_iff.mpr ht) with htaken | hqueue
  · exact absurd htaken hnot
  · exact hqueue

/-- The queue is in the order of scheduling. -/
theorem pairwise (h : Delivered s) : s.queue.tasks.Pairwise fun t u => t.id < u.id :=
  (Queue.pairwise_made 0 s.offered).sublist h.ordered

/-- In front of a queued task stand the tasks scheduled before it. -/
theorem mem_front (h : Delivered s) {t u : Task ι} {l l' : List (Task ι)}
    (hsplit : s.queue.tasks = l ++ t :: l') (hu : u ∈ s.queue.tasks) (hlt : u.id < t.id) :
    u ∈ l := by
  have hord := h.pairwise
  rw [hsplit] at hu hord
  obtain ⟨-, hback, -⟩ := List.pairwise_append.mp hord
  rcases List.mem_append.mp hu with hl | hback'
  · exact hl
  · rcases List.mem_cons.mp hback' with rfl | hl'
    · exact absurd hlt (Nat.lt_irrefl _)
    · have := (List.pairwise_cons.mp hback).1 u hl'
      omega

/-- Scheduling keeps what is queued and what is taken, and adds the new tasks at
the end. -/
theorem offer (h : Delivered s) (items : List (Item ι)) :
    Delivered { s with
      queue := ⟨s.queue.tasks ++ Queue.made s.queue.nextTask items,
        s.queue.nextTask + (Queue.made s.queue.nextTask items).length⟩
      offered := s.offered ++ items } := by
  have hpushed : Queue.made 0 (s.offered ++ items) =
      s.pushed ++ Queue.made s.queue.nextTask items := by
    rw [Queue.made_append, h.next, Nat.zero_add]
    rfl
  constructor
  · simp only [pushed, hpushed, List.length_append]
    rw [h.next, pushed]
  · simp only [pushed, hpushed]
    exact h.ordered.append_right _
  · simp only [pushed, hpushed, ← List.append_assoc]
    exact h.once.append_right _
  · exact h.pinned

end Delivered

section Runs

variable [DecidableEq ι] {s s' : QueueRun ι}

/-- A `take` moves one task from the queue to its thread, or nothing. -/
theorem Delivered.take (h : Delivered s) {state : ℕ → FiberState} {me : ι} {r : Option (Task ι)}
    {rest : List (Task ι)} (htake : Easy.Base.take state me s.queue.tasks = .ok (r, rest)) :
    Delivered { s with
      queue := { s.queue with tasks := rest }
      taken := s.taken ++ r.toList.map fun t => (me, t) } := by
  rcases take_ok htake with ⟨rfl, rfl, -⟩ | ⟨t, l, l', rfl, hsplit, rfl, helig, -, -⟩
  · simpa using h
  · constructor
    · exact h.next
    · have hsub : (l ++ l').Sublist (l ++ t :: l') :=
        (List.sublist_cons_self t l').append_left l
      exact (hsplit ▸ hsub).trans h.ordered
    · have hperm : (s.taken.map Prod.snd ++ [t] ++ (l ++ l')).Perm
          (s.taken.map Prod.snd ++ s.queue.tasks) := by
        rw [hsplit, List.append_assoc, List.singleton_append]
        exact List.perm_middle.symm.append_left _
      have htaken := hperm.trans h.once
      simpa [pushed] using htaken
    · intro x hx
      rcases List.mem_append.mp hx with hx | hx
      · exact h.pinned x hx
      · obtain rfl : x = (me, t) := by simpa using hx
        exact helig.1

/-- **One critical section** keeps the account of the queue. -/
theorem step_delivered {op : QueueOp ι} (hstep : machine.step s op = some s') (h : Delivered s) :
    Delivered s' := by
  cases op with
  | schedule item =>
      obtain rfl := Option.some.inj hstep
      rw [Queue.scheduleNonBlock_made]
      exact h.offer [item]
  | scheduleRange works =>
      obtain rfl := Option.some.inj hstep
      rw [Queue.scheduleRange_made]
      exact h.offer _
  | take me state =>
      simp only [machine, step] at hstep
      split at hstep
      · obtain rfl := Option.some.inj hstep
        exact h.take ‹_›
      · cases hstep

theorem delivered (h : machine.Reachable s) : Delivered s := by
  refine h.invariant (I := Delivered) ?_ fun _ _ _ hstep => step_delivered hstep
  rintro s rfl
  exact ⟨rfl, List.Sublist.refl _, List.Perm.refl _, by simp [start]⟩

/-- The assertion of `take` holds for tasks that have a callback or a fiber. -/
theorem take_isOk {state : ℕ → FiberState} {me : ι} {tasks : List (Task ι)}
    (h : ∀ t ∈ tasks, t.HasWork) : ∃ x, Easy.Base.take state me tasks = .ok x := by
  induction tasks with
  | nil => exact ⟨_, rfl⟩
  | cons task tasks ih =>
      obtain ⟨x, hx⟩ := ih fun t ht => h t (List.mem_cons_of_mem _ ht)
      have hwork : (task.fiber.isSome || task.cb.isSome) = true := by
        simpa [Task.HasWork] using h task (by simp)
      simp only [Easy.Base.take, hx, hwork, Bool.not_true, Bool.false_eq_true, if_false]
      split_ifs <;> exact ⟨_, rfl⟩

/-- What `take` does with a queue that is accounted for. -/
theorem Delivered.takesFirst (h : Delivered s) {state : ℕ → FiberState} {me : ι}
    {r : Option (Task ι)} {rest : List (Task ι)}
    (htake : Easy.Base.take state me s.queue.tasks = .ok (r, rest)) :
    TakesFirst s state me r rest := by
  rcases take_ok htake with ⟨rfl, rfl, hnot⟩ | ⟨t, l, l', rfl, hsplit, rfl, helig, -, hfront⟩
  · exact ⟨fun _ => ⟨rfl, hnot⟩, by simp, by simp⟩
  · refine ⟨by simp, ?_, ?_⟩
    · intro t' ht'
      obtain rfl := Option.some.inj ht'
      exact ⟨helig, l, l', hsplit, rfl, hfront⟩
    · intro t' ht' u hu hnot hlt hpin
      obtain rfl := Option.some.inj ht'
      -- the earlier task was passed over, and its pin was no reason
      have hpass := hfront u (h.mem_front hsplit (h.mem_tasks hu hnot) hlt)
      by_contra hexec
      refine hpass ⟨hpin ▸ helig.1, fun f hf hst => hexec ⟨f, hf, hst⟩⟩

/-- **Delivery.** In every reachable state each scheduled task is queued or has been
taken, by one thread, which it was not pinned away from; all queued tasks have a
callback or a fiber, so every `take` returns, with the first task its thread may
have. -/
theorem delivers_once (h : machine.Reachable s) :
    Delivered s ∧ (s.taken.map Prod.snd).Nodup ∧ (∀ t ∈ s.queue.tasks, t.HasWork) ∧
      ∀ state me, ∃ r rest, Easy.Base.take state me s.queue.tasks = .ok (r, rest) ∧
        TakesFirst s state me r rest := by
  have hd := delivered h
  refine ⟨hd, hd.nodup_taken, fun _ => hd.hasWork, fun state me => ?_⟩
  have hok : ∃ x, Easy.Base.take state me s.queue.tasks = .ok x := take_isOk fun _ => hd.hasWork
  obtain ⟨⟨r, rest⟩, htake⟩ := hok
  exact ⟨r, rest, htake, hd.takesFirst htake⟩

/-- Worker 0 passes over a callback pinned to worker 1 and takes a later one. -/
theorem delivers_once_pinned : ∃ s : QueueRun (Fin 2),
    s.taken = [(0, ⟨1, none, some 8, none⟩)] ∧ Delivered s ∧
      (s.taken.map Prod.snd).Nodup ∧ (∀ t ∈ s.queue.tasks, t.HasWork) ∧
      ∀ state me, ∃ r rest, Easy.Base.take state me s.queue.tasks = .ok (r, rest) ∧
        TakesFirst s state me r rest := by
  refine ⟨⟨⟨[⟨0, none, some 7, some 1⟩], 2⟩, [⟨some (.cb 7), some 1⟩, ⟨none, none⟩,
    ⟨some (.cb 8), none⟩], [(0, ⟨1, none, some 8, none⟩)]⟩, rfl, delivers_once ?_⟩
  apply Lts.Reachable.of_run (.init rfl)
  show machine.run start [.schedule ⟨some (.cb 7), some 1⟩, .scheduleRange [none, some (.cb 8)],
    .take 0 fun _ => .hold] = _
  rfl

end Runs

end QueueRun

end Easy.Base
