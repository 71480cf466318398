import Easy.Lib.Threads
import Mathlib.Data.List.Chain

/-!
`ConfigVar::setValue` on several threads (`easy/base/Config.h`), with a listener that
stores the new value, as the one in `easy/base/hook.cc` does.

`setValue` has two lock sections: under the read lock it compares and notifies,
under the write lock it stores. Between them other threads compare with a value that
is about to be replaced.
-/

namespace Easy.Base

open Lib

variable {ι V : Type}

/-- `val_`, what the listener has stored, and the pairs it has been called with. -/
structure Updated (V : Type) where
  val : V
  stored : V
  notified : List (V × V)
  deriving DecidableEq

/-- Where a thread is: in no `setValue`, before the first lock section of one, or
between the two. -/
inductive SetPc (V : Type)
  | idle
  | called (v : V)
  | between (v : V)
  deriving DecidableEq

/-- What a thread does next: it calls `setValue`, or goes through a lock section. -/
inductive SetAct (V : Type)
  | call (v : V)
  | compare
  | store

/-- A thread that has notified the listener and not yet stored the value. -/
def SetPc.Between (p : SetPc V) : Prop := ∃ v, p = .between v

@[simp] theorem not_between_idle : ¬ (SetPc.idle : SetPc V).Between := by
  rintro ⟨v, h⟩
  cases h

@[simp] theorem not_between_called (v : V) : ¬ (SetPc.called v).Between := by
  rintro ⟨w, h⟩
  cases h

namespace Updated

section Threads

variable [DecidableEq V]

/-- `setValue` of one variable, by any threads. -/
def setValue (ι : Type) (v₀ : V) : Threads ι (Updated V) (SetPc V) (SetAct V) where
  init g pc := g = ⟨v₀, v₀, []⟩ ∧ pc = fun _ => .idle
  act _ g p a := match p, a with
    | .idle, .call v => some (g, .called v)
    | .called v, .compare =>
      if v = g.val then some (g, .idle)
      else some (⟨g.val, v, g.notified ++ [(g.val, v)]⟩, .between v)
    | .between v, .store => some ({ g with val := v }, .idle)
    | _, _ => none

end Threads

/-- Each notified pair starts from the value the one before it ended with. -/
def Chained (g : Updated V) : Prop := g.notified.IsChain fun a b => a.2 = b.1

/-- The notifications form a chain, and when no `setValue` is in progress and one has
changed the value, the listener has stored it. -/
structure Agrees (s : Threads.State ι (Updated V) (SetPc V)) : Prop where
  chained : s.shared.Chained
  stored : (∀ i, s.pc i = .idle) → s.shared.notified ≠ [] → s.shared.stored = s.shared.val

/-- What holds while no two threads are between their lock sections: the last pair
was notified by the thread that is, or has been stored. -/
structure Settled (s : Threads.State ι (Updated V) (SetPc V)) : Prop where
  chained : s.shared.Chained
  unique : ∀ i j, (s.pc i).Between → (s.pc j).Between → i = j
  pending : ∀ i v, s.pc i = .between v →
    s.shared.notified.getLast? = some (s.shared.val, v) ∧ s.shared.stored = v ∧ v ≠ s.shared.val
  stored : (∀ i, ¬ (s.pc i).Between) → ∀ x ∈ s.shared.notified.getLast?,
    x.2 = s.shared.val ∧ s.shared.stored = s.shared.val

theorem Settled.agrees {s : Threads.State ι (Updated V) (SetPc V)} (h : Settled s) : Agrees s := by
  refine ⟨h.chained, fun hidle hne => ?_⟩
  have hbetween : ∀ i, ¬ (s.pc i).Between := by
    rintro i ⟨v, hv⟩
    rw [hidle i] at hv
    cases hv
  obtain ⟨x, hx⟩ := Option.ne_none_iff_exists'.mp (mt List.getLast?_eq_none_iff.mp hne)
  exact (h.stored hbetween x hx).2

section Steps

variable [DecidableEq V]

/-- A thread notifies only while no other is between its lock sections. -/
def Alone (s : Threads.State ι (Updated V) (SetPc V)) (l : ι × SetAct V) : Prop :=
  ∀ v, s.pc l.1 = .called v → l.2 = .compare → v ≠ s.shared.val → ∀ j, ¬ (s.pc j).Between

variable {v₀ : V} {i : ι} {g g' : Updated V} {p p' : SetPc V} {a : SetAct V}

/-- What one action can do: nothing to the variable; notify; or store. -/
theorem act_cases (h : (setValue ι v₀).act i g p a = some (g', p')) :
    (g' = g ∧ ¬ p.Between ∧ ¬ p'.Between ∧ ∀ v, p = .called v → a = .compare → v = g.val) ∨
    (∃ v, p = .called v ∧ a = .compare ∧ v ≠ g.val ∧ p' = .between v ∧
      g' = ⟨g.val, v, g.notified ++ [(g.val, v)]⟩) ∨
    ∃ v, p = .between v ∧ p' = .idle ∧ g' = { g with val := v } := by
  simp only [setValue] at h
  split at h
  · obtain ⟨rfl, rfl⟩ := Prod.mk.inj (Option.some.inj h)
    exact .inl ⟨rfl, by simp, by simp, by simp⟩
  · rename_i v
    split at h
    · rename_i hv
      obtain ⟨rfl, rfl⟩ := Prod.mk.inj (Option.some.inj h)
      exact .inl ⟨rfl, by simp, by simp, fun w hw _ => SetPc.called.inj hw ▸ hv⟩
    · obtain ⟨rfl, rfl⟩ := Prod.mk.inj (Option.some.inj h)
      exact .inr (.inl ⟨v, rfl, rfl, ‹¬ v = g.val›, rfl, rfl⟩)
  · obtain ⟨rfl, rfl⟩ := Prod.mk.inj (Option.some.inj h)
    exact .inr (.inr ⟨_, rfl, rfl, rfl⟩)
  · cases h

variable [DecidableEq ι] {s s' : Threads.State ι (Updated V) (SetPc V)} {l : ι × SetAct V}

omit [DecidableEq V] in
/-- Between their sections are the same threads as before. -/
theorem Settled.keep (h : Settled s) (hpc : ¬ (s.pc i).Between) (hp : ¬ p.Between) :
    Settled ⟨s.shared, Function.update s.pc i p⟩ := by
  have hiff : ∀ j v, Function.update s.pc i p j = .between v ↔ s.pc j = .between v := by
    intro j v
    by_cases hj : j = i
    · subst hj
      rw [Function.update_self]
      exact iff_of_false (fun h => hp ⟨v, h⟩) fun h => hpc ⟨v, h⟩
    · rw [Function.update_of_ne hj]
  have hbetween : ∀ j, (Function.update s.pc i p j).Between ↔ (s.pc j).Between :=
    fun j => exists_congr fun v => hiff j v
  constructor
  · exact h.chained
  · exact fun j k hj hk => h.unique j k ((hbetween j).mp hj) ((hbetween k).mp hk)
  · exact fun j v hj => h.pending j v ((hiff j v).mp hj)
  · exact fun hnone => h.stored fun j hj => hnone j ((hbetween j).mpr hj)

omit [DecidableEq V] in
theorem Settled.notify (h : Settled s) (hnone : ∀ j, ¬ (s.pc j).Between) {v : V}
    (hv : v ≠ s.shared.val) :
    Settled ⟨⟨s.shared.val, v, s.shared.notified ++ [(s.shared.val, v)]⟩,
      Function.update s.pc i (.between v)⟩ := by
  have honly : ∀ j, (Function.update s.pc i (.between v) j).Between → j = i := by
    intro j hj
    by_contra hne
    rw [Function.update_of_ne hne] at hj
    exact hnone j hj
  constructor
  · refine List.isChain_append.mpr ⟨h.chained, .singleton _, fun x hx y hy => ?_⟩
    obtain rfl : (s.shared.val, v) = y := by simpa using hy
    exact (h.stored hnone x hx).1
  · exact fun j k hj hk => (honly j hj).trans (honly k hk).symm
  · intro j w hj
    obtain rfl := honly j ⟨w, hj⟩
    obtain rfl : v = w := by simpa using hj
    simpa using hv
  · exact fun hno => absurd ⟨v, Function.update_self ..⟩ (hno i)

omit [DecidableEq V] in
theorem Settled.store (h : Settled s) {v : V} (hpc : s.pc i = .between v) :
    Settled ⟨{ s.shared with val := v }, Function.update s.pc i .idle⟩ := by
  obtain ⟨hlast, hstored, -⟩ := h.pending i v hpc
  have hnone : ∀ j, ¬ (Function.update s.pc i .idle j).Between := by
    intro j hj
    by_cases hne : j = i
    · subst hne
      simp at hj
    · rw [Function.update_of_ne hne] at hj
      exact hne (h.unique j i hj ⟨v, hpc⟩)
  constructor
  · exact h.chained
  · exact fun j _ hj => absurd hj (hnone j)
  · exact fun j w hj => absurd ⟨w, hj⟩ (hnone j)
  · intro _ x hx
    obtain rfl : (s.shared.val, v) = x := Option.some.inj (hlast.symm.trans hx)
    exact ⟨rfl, hstored⟩

theorem step_settled (hstep : (setValue ι v₀).lts.step s l = some s') (h : Settled s)
    (hal : Alone s l) : Settled s' := by
  obtain ⟨g, p, hact, rfl⟩ := Threads.step_eq_some.mp hstep
  rcases act_cases hact with ⟨rfl, hp, hp', -⟩ | ⟨v, hpc, ha, hv, rfl, rfl⟩ | ⟨v, hpc, rfl, rfl⟩
  · exact h.keep hp hp'
  · exact h.notify (hal v hpc ha hv) hv
  · exact h.store hpc

/-- A second notification starts from the value the first one started from. -/
theorem step_not_agrees (hstep : (setValue ι v₀).lts.step s l = some s') (h : Settled s)
    (hal : ¬ Alone s l) : ¬ Agrees s' := by
  obtain ⟨g, p, hact, rfl⟩ := Threads.step_eq_some.mp hstep
  simp only [Alone, not_forall, not_not] at hal
  obtain ⟨v, hpc, ha, hv, j, w, hj⟩ := hal
  rcases act_cases hact with ⟨-, -, -, heq⟩ | ⟨u, hpc', -, -, -, rfl⟩ | ⟨u, hpc', -, -⟩
  · exact absurd (heq v hpc ha) hv
  · obtain rfl := SetPc.called.inj (hpc.symm.trans hpc')
    intro hagrees
    obtain ⟨hlast, -, hne⟩ := h.pending j w hj
    exact hne ((List.isChain_append.mp hagrees.chained).2.2 _ hlast (s.shared.val, v) (by simp))
  · rw [hpc] at hpc'
    cases hpc'

/-- A variable that has not been set yet. -/
def start (ι : Type) (v₀ : V) : Threads.State ι (Updated V) (SetPc V) :=
  ⟨⟨v₀, v₀, []⟩, fun _ => .idle⟩

omit [DecidableEq V] [DecidableEq ι] in
theorem settled_start (v₀ : V) : Settled (start ι v₀) := by
  constructor <;> simp [start, Chained]

/-- **Listener and value agree** along a run of any number of writers if and only if
each of them notifies only while no other is between its lock sections. -/
theorem agrees_along_iff (v₀ : V) (ls : List (ι × SetAct V)) :
    (setValue ι v₀).lts.Along Agrees (start ι v₀) ls ↔
      (setValue ι v₀).lts.Meets Alone (start ι v₀) ls :=
  Lts.along_iff_meets_of (fun _ => Settled.agrees) (fun _ _ _ => step_settled)
    (fun _ _ _ => step_not_agrees) (settled_start v₀) ls

end Steps

/-- Two writers notify 1 and then 2, and store 2 and then 1. -/
theorem agrees_false : ∃ s, (setValue (Fin 2) 0).lts.Reachable s ∧ ¬ Agrees s := by
  have hrun : (((setValue (Fin 2) 0).lts.run (start (Fin 2) 0)
      [(0, .call 1), (1, .call 2), (0, .compare), (1, .compare), (1, .store), (0, .store)]).map
        fun s => (s.shared, s.pc 0, s.pc 1)) =
      some (⟨1, 2, [(0, 1), (0, 2)]⟩, .idle, .idle) := by decide
  obtain ⟨s, hr, heq⟩ := Lts.Reachable.of_map_run hrun (.init ⟨rfl, rfl⟩)
  simp only [Prod.mk.injEq] at heq
  obtain ⟨hshared, h₀, h₁⟩ := heq
  refine ⟨s, hr, fun h => ?_⟩
  have hstored := h.stored (Fin.forall_fin_two.mpr ⟨h₀, h₁⟩) (by simp [hshared])
  simp [hshared] at hstored

end Updated

end Easy.Base
