import Easy.Base.FdManager
import Easy.Lib.Threads

/-!
Which context the callers of `FdManager::getFdCtx` get, on several threads.

The write lock section of `getFdCtx` makes a context without looking again whether
there is one by then. What the callers have got is recorded for each descriptor
since the last `removeFdCtx` of it.
-/

namespace Easy.Base

open Lib

variable {ι : Type}

/-- The manager, and the contexts that calls have returned for each descriptor since it
was last removed. -/
structure FdRun where
  manager : FdManager
  returned : ℕ → List ℕ

/-- Where a thread is in `getFdCtx`: not in it, before its read lock, or on its way to
the write lock. -/
inductive GetPc
  | idle
  | called (fd : ℕ) (autoCreate : Bool)
  | creating (fd : ℕ)
  deriving DecidableEq

/-- What a thread does next. The file is what the kernel has for the descriptor when
the context is made. -/
inductive GetAct
  | getFdCtx (fd : ℕ) (autoCreate : Bool)
  | find
  | create (file : Option File)
  | removeFdCtx (fd : ℕ)
  | setTimeout (c : ℕ) (type : ℤ) (ms : BitVec 64)
  | setUserNonblock (c : ℕ) (flag : Bool)

namespace FdRun

/-- `getFdCtx` returns. -/
def record (g : FdRun) (fd : ℕ) (c : Option ℕ) : FdRun :=
  { g with returned := Function.update g.returned fd (g.returned fd ++ c.toList) }

def create (g : FdRun) (fd : ℕ) (file : Option File) : FdRun :=
  let r := g.manager.create fd (FdCtx.init fd file).1
  record { g with manager := r.2 } fd (some r.1)

def start : FdRun := ⟨.make, fun _ => []⟩

/-- The calls of any threads, one lock section at a time. -/
def calls (ι : Type) : Threads ι FdRun GetPc GetAct where
  init g pc := g = start ∧ pc = fun _ => .idle
  act _ g p a := match p, a with
    | .idle, .getFdCtx fd autoCreate => some (g, .called fd autoCreate)
    | .called fd autoCreate, .find =>
      match g.manager.find fd autoCreate with
      | some c => some (g.record fd c, .idle)
      | none => some (g, .creating fd)
    | .creating fd, .create file => some (g.create fd file, .idle)
    | .idle, .removeFdCtx fd =>
      some (⟨g.manager.removeFdCtx fd, Function.update g.returned fd []⟩, .idle)
    | .idle, .setTimeout c type ms =>
      some ({ g with manager := g.manager.modify c (·.setTimeout type ms) }, .idle)
    | .idle, .setUserNonblock c flag =>
      some ({ g with manager := g.manager.modify c (·.setUserNonblock flag) }, .idle)
    | _, _ => none

/-- The calls for a descriptor have all returned one context, so that what is set
through one of the pointers is seen through the others. -/
structure OneCtx (g : FdRun) : Prop where
  same : ∀ fd, ∀ c ∈ g.returned fd, ∀ c' ∈ g.returned fd, c = c'
  timeout : ∀ fd, ∀ c ∈ g.returned fd, ∀ c' ∈ g.returned fd, ∀ type ms,
    (g.manager.modify c (·.setTimeout type ms)).objs[c']?.map (·.getTimeout type) = some ms
  userNonblock : ∀ fd, ∀ c ∈ g.returned fd, ∀ c' ∈ g.returned fd, ∀ flag,
    (g.manager.modify c (·.setUserNonblock flag)).objs[c']?.map (·.userNonblock) = some flag

/-- The contexts returned are those in `datas_`. -/
structure Held (g : FdRun) : Prop where
  iff : ∀ fd c, c ∈ g.returned fd ↔ g.manager.at_ fd = some c
  lt : ∀ fd c, g.manager.at_ fd = some c → c < g.manager.objs.length

theorem Held.oneCtx {g : FdRun} (h : g.Held) : g.OneCtx := by
  have hsame : ∀ fd, ∀ c ∈ g.returned fd, ∀ c' ∈ g.returned fd, c = c' := by
    intro fd c hc c' hc'
    rw [h.iff] at hc hc'
    exact Option.some.inj (hc.symm.trans hc')
  have hlt : ∀ fd, ∀ c ∈ g.returned fd, c < g.manager.objs.length := fun fd c hc =>
    h.lt fd c ((h.iff fd c).mp hc)
  refine ⟨hsame, fun fd c hc c' hc' type ms => ?_, fun fd c hc c' hc' flag => ?_⟩
  · obtain rfl := hsame fd c hc c' hc'
    simp [FdManager.modify, hlt fd c hc]
  · obtain rfl := hsame fd c hc c' hc'
    simp [FdManager.modify, hlt fd c hc, FdCtx.setUserNonblock]

/-! ### What a lock section does -/

section Steps

variable {g : FdRun} {fd : ℕ}

theorem Held.record (h : g.Held) {c : Option ℕ} (hc : ∀ x ∈ c, g.manager.at_ fd = some x) :
    (g.record fd c).Held := by
  refine ⟨fun k x => ?_, h.lt⟩
  by_cases hk : k = fd
  · subst hk
    have hx : x ∈ c → g.manager.at_ k = some x := hc x
    simp only [FdRun.record, Function.update_self, List.mem_append, Option.mem_toList, h.iff]
    exact or_iff_left_of_imp hx
  · simpa [FdRun.record, hk] using h.iff k x

theorem Held.remove (h : g.Held) (fd : ℕ) :
    Held ⟨g.manager.removeFdCtx fd, Function.update g.returned fd []⟩ := by
  constructor
  · intro k x
    rw [FdManager.at_removeFdCtx]
    by_cases hk : k = fd
    · simp [hk]
    · simpa [hk] using h.iff k x
  · intro k x hx
    rw [FdManager.at_removeFdCtx] at hx
    split at hx
    · cases hx
    · exact h.lt k x hx

theorem Held.modify (h : g.Held) (c : ℕ) (f : FdCtx → FdCtx) :
    Held { g with manager := g.manager.modify c f } :=
  ⟨h.iff, fun k x hx => by simpa [FdManager.modify] using h.lt k x hx⟩

theorem Held.create (h : g.Held) (hempty : g.manager.at_ fd = none) (file : Option File) :
    (g.create fd file).Held := by
  have hnone : g.returned fd = [] := by
    refine List.eq_nil_iff_forall_not_mem.mpr fun c hc => ?_
    rw [h.iff, hempty] at hc
    cases hc
  constructor
  · intro k x
    rw [FdRun.create, FdRun.record, FdManager.at_create]
    by_cases hk : k = fd
    · subst hk
      simp [hnone, eq_comm]
    · simpa [hk] using h.iff k x
  · intro k x hx
    rw [FdRun.create, FdRun.record, FdManager.at_create] at hx
    simp only [FdRun.create, FdRun.record, FdManager.objs_create, List.length_append,
      List.length_singleton]
    split at hx
    · obtain rfl := Option.some.inj hx
      exact Nat.lt_succ_self _
    · exact (h.lt k x hx).trans (Nat.lt_succ_self _)

/-- A second context is another one. -/
theorem not_oneCtx_create (h : g.Held) {c : ℕ} (hc : g.manager.at_ fd = some c)
    (file : Option File) : ¬ (g.create fd file).OneCtx := by
  intro hone
  have hlt := h.lt fd c hc
  have hreturned : (g.create fd file).returned fd = g.returned fd ++ [g.manager.objs.length] := by
    simp [FdRun.create, FdRun.record, FdManager.create]
  have := hone.same fd c (by simp [hreturned, h.iff, hc]) g.manager.objs.length
    (by simp [hreturned])
  omega

/-- What one action can do: make a context, or keep what is held. -/
theorem act_cases {i : ι} {g g' : FdRun} {p p' : GetPc} {a : GetAct}
    (h : (calls ι).act i g p a = some (g', p')) :
    (∃ fd file, p = .creating fd ∧ a = .create file ∧ g' = g.create fd file) ∨
      (¬ ∃ fd file, p = .creating fd ∧ a = .create file) ∧ (g.Held → g'.Held) := by
  simp only [calls] at h
  split at h
  · obtain ⟨rfl, rfl⟩ := Prod.mk.inj (Option.some.inj h)
    exact .inr ⟨by simp, id⟩
  · rename_i fd autoCreate
    split at h
    · rename_i c hc
      obtain ⟨rfl, rfl⟩ := Prod.mk.inj (Option.some.inj h)
      refine .inr ⟨by simp, fun hg => hg.record fun x hx => ?_⟩
      rw [FdManager.find_eq] at hc
      split at hc
      · exact Option.some.inj hc ▸ hx
      · cases hc
    · obtain ⟨rfl, rfl⟩ := Prod.mk.inj (Option.some.inj h)
      exact .inr ⟨by simp, id⟩
  · obtain ⟨rfl, rfl⟩ := Prod.mk.inj (Option.some.inj h)
    exact .inl ⟨_, _, rfl, rfl, rfl⟩
  · obtain ⟨rfl, rfl⟩ := Prod.mk.inj (Option.some.inj h)
    exact .inr ⟨by simp, fun hg => hg.remove _⟩
  · obtain ⟨rfl, rfl⟩ := Prod.mk.inj (Option.some.inj h)
    exact .inr ⟨by simp, fun hg => hg.modify _ _⟩
  · obtain ⟨rfl, rfl⟩ := Prod.mk.inj (Option.some.inj h)
    exact .inr ⟨by simp, fun hg => hg.modify _ _⟩
  · cases h

end Steps

/-! ### Runs -/

/-- Under the write lock there is no context yet. -/
def Vacant (s : Threads.State ι FdRun GetPc) (l : ι × GetAct) : Prop :=
  ∀ fd file, s.pc l.1 = .creating fd → l.2 = .create file → s.shared.manager.at_ fd = none

variable [DecidableEq ι] {s s' : Threads.State ι FdRun GetPc} {l : ι × GetAct}

theorem step_held (hstep : (calls ι).lts.step s l = some s') (h : s.shared.Held)
    (hl : Vacant s l) : s'.shared.Held := by
  obtain ⟨g, p, hact, rfl⟩ := Threads.step_eq_some.mp hstep
  rcases act_cases hact with ⟨fd, file, hp, ha, rfl⟩ | ⟨-, hkeep⟩
  · exact h.create (hl fd file hp ha) file
  · exact hkeep h

theorem step_not_oneCtx (hstep : (calls ι).lts.step s l = some s') (h : s.shared.Held)
    (hl : ¬ Vacant s l) : ¬ s'.shared.OneCtx := by
  obtain ⟨g, p, hact, rfl⟩ := Threads.step_eq_some.mp hstep
  simp only [Vacant, not_forall] at hl
  obtain ⟨fd, file, hp, ha, hsome⟩ := hl
  obtain ⟨c, hc⟩ := Option.ne_none_iff_exists'.mp hsome
  rcases act_cases hact with ⟨fd', file', hp', -, rfl⟩ | ⟨hno, -⟩
  · obtain rfl := GetPc.creating.inj (hp.symm.trans hp')
    exact not_oneCtx_create h hc file'
  · exact absurd ⟨fd, file, hp, ha⟩ hno

theorem held_start : start.Held := by
  constructor <;> simp [start]

/-- **One context for each descriptor**, between two removals of it, along a run of any
threads, if and only if no `getFdCtx` makes a context for a descriptor that has one
by then. -/
theorem oneCtx_along_iff (ls : List (ι × GetAct)) :
    (calls ι).lts.Along (fun s => s.shared.OneCtx) ⟨start, fun _ => .idle⟩ ls ↔
      (calls ι).lts.Meets Vacant ⟨start, fun _ => .idle⟩ ls :=
  Lts.along_iff_meets_of (J := fun s => s.shared.Held) (fun _ => Held.oneCtx)
    (fun _ _ _ => step_held) (fun _ _ _ => step_not_oneCtx) held_start ls

/-- Two threads look up a new descriptor before either makes its context. -/
theorem oneCtx_false : ∃ s, (calls (Fin 2)).lts.Reachable s ∧ ¬ s.shared.OneCtx := by
  have hrun : (((calls (Fin 2)).lts.run ⟨start, fun _ => .idle⟩
      [(0, .getFdCtx 5 true), (1, .getFdCtx 5 true), (0, .find), (1, .find),
        (0, .create (some ⟨true, 2⟩)), (1, .create (some ⟨true, 2⟩))]).map
        fun s => s.shared.returned 5) = some [0, 1] := by decide +kernel
  obtain ⟨s, hr, hreturned⟩ := Lts.Reachable.of_map_run hrun (.init ⟨rfl, rfl⟩)
  refine ⟨s, hr, fun h => ?_⟩
  have := h.same 5 0 (by simp [hreturned]) 1 (by simp [hreturned])
  cases this

end FdRun

end Easy.Base
