import Easy.Base.Fiber
import Easy.Lib.Coroutines
import Easy.Lib.Simulation

/-!
What the fibers of a program are for: asymmetric coroutines.

A thread that runs fiber `f` was switched to it by `resumer i f`, which is where
`YieldToHold` and `MainFunc` go back to. That they are right about this takes some
discipline of those who call `resume`, `handleFiber`, `yield` and `sched_yield`
themselves, which the calls of `easy/base/Scheduler.cc` and `IOManager.cc` have:
a root fiber resumes the scheduler fiber and no other if that is not itself, and
only the scheduler fiber calls `handleFiber`. `Coherent` relates a machine whose
calls are so disciplined to coroutines, and `switching` is the simulation.
-/

namespace Easy.Base

open Lib

variable {ι : Type*}

/-- Made by `NewFiber(cb)`. -/
def FiberPtr.IsSub (f : FiberPtr ι) : Prop := ∃ n, f = .sub n

instance (f : FiberPtr ι) : Decidable f.IsSub :=
  match f with
  | .root _ => isFalse (by rintro ⟨n, h⟩; cases h)
  | .sub n => isTrue ⟨n, rfl⟩

/-- Where code goes on that is switched to at this point. -/
def Point.settled : Point ι → Point ι
  | .handleFiber _ pc => .code pc
  | p => p

@[simp] theorem Point.settled_settled (p : Point ι) : p.settled.settled = p.settled := by
  cases p <;> rfl

namespace FiberThread

variable [DecidableEq ι] (i : ι) (t : FiberThread ι)

/-- The fiber that `YieldToHold` and `MainFunc` of fiber `f` switch to. -/
def resumer (f : FiberPtr ι) : FiberPtr ι :=
  if t.scheduler ∧ t.schedulerFiber ≠ some f then t.schedulerFiber.getD (.root i) else .root i

/-- The fibers between the one that runs and the root fiber. -/
def stack : List (FiberPtr ι) :=
  match t.running with
  | some (.sub n) =>
    .sub n :: if t.resumer i (.sub n) = .root i then [.root i]
      else [t.resumer i (.sub n), .root i]
  | _ => [.root i]

/-- On the stack the thread was born with. -/
def OnRoot : Prop := t.running = none ∨ t.running = some (.root i)

instance : Decidable (t.OnRoot i) := inferInstanceAs (Decidable (_ ∨ _))

end FiberThread

namespace FiberMachine

variable [DecidableEq ι]

/-- The discipline of the calls. -/
def Disciplined (m : FiberMachine ι) (l : ι × FiberCall ι × ℕ) : Prop :=
  match l.2.1 with
  | .resume f => f.IsSub ∧ (m.threads l.1).running = some (.root l.1) ∧
      (m.threads l.1).resumer l.1 f = .root l.1
  | .handleFiber f => f.IsSub ∧ (m.threads l.1).scheduler ∧
      (m.threads l.1).running = (m.threads l.1).schedulerFiber
  | .yield f => (m.threads l.1).running = some f ∧ (m.threads l.1).resumer l.1 f = .root l.1
  | .schedYield f => f.IsSub ∧ (m.threads l.1).running = some f ∧ (m.threads l.1).scheduler ∧
      (m.threads l.1).schedulerFiber ≠ some f
  | .yieldToHold => (m.threads l.1).OnRoot l.1 →
      (m.threads l.1).resumer l.1 (.root l.1) = .root l.1
  | .reset f _ => ∀ x ∈ m.fibers f, x.state ≠ .exec
  | .useCaller | .run false | .dropScheduler => (m.threads l.1).OnRoot l.1
  | .run true => (m.threads l.1).scheduler
  | _ => True

instance (m : FiberMachine ι) (l : ι × FiberCall ι × ℕ) : Decidable (m.Disciplined l) := by
  unfold Disciplined
  split <;> infer_instance

/-- Where the fiber that the running one leaves for goes on. -/
def arrival (m : FiberMachine ι) (i : ι) (f : FiberPtr ι) : Point ι :=
  match m.fibers ((m.threads i).resumer i f) with
  | some x => x.ctx.point.settled
  | none => .ended

/-- What thread `i` does as a thread of coroutines when it leaves its fiber for
the one that resumed it. -/
def leaving (m : FiberMachine ι) (i : ι) (here : Point ι) :
    List (Coroutines.Act ι (FiberPtr ι) (Point ι)) :=
  match (m.threads i).running with
  | some (.sub n) => [.yield i here, .move i (m.arrival i (.sub n))]
  | _ => [.move i here]

/-- What a call is for coroutines. -/
def acts (m : FiberMachine ι) (l : ι × FiberCall ι × ℕ) :
    List (Coroutines.Act ι (FiberPtr ι) (Point ι)) :=
  let (i, call, pc) := l
  match call with
  | .resume f => [.resume i f (.code pc)]
  | .handleFiber f => [.resume i f (.handleFiber f pc)]
  | .yield _ | .schedYield _ | .yieldToHold => m.leaving i (.code pc)
  | .finish _ => m.leaving i .ended
  | .enter =>
    match ((m.threads i).running.bind m.fibers).bind (·.cb) with
    | some _ => [.move i (.code pc)]
    | none => m.leaving i .ended
  | .reset f _ => [.restart f .mainFunc, .move i (.code pc)]
  | .newFiber _ | .useCaller =>
    [.restart (.sub (m.numsCreated + 1)) .mainFunc, .move i (.code pc)]
  | .getThis | .free _ | .run _ | .dropScheduler => [.move i (.code pc)]

end FiberMachine

/-- Thread `i` has a stack of coroutines, whose code is at these points. -/
structure FiberThread.Formed [DecidableEq ι] (i : ι) (t : FiberThread ι) (l : List (FiberPtr ι))
    (point : FiberPtr ι → Point ι) : Prop where
  root : t.root = true ↔ t.running ≠ none
  own : ∀ j, t.running = some (.root j) → j = i
  unset : t.running = none → t.scheduler = false
  sched : t.scheduler = true → ∃ f, t.schedulerFiber = some f ∧ ∀ j, f = .root j → j = i
  stack : l = t.stack i
  cpu : ∀ f ∈ l.head?, t.cpu = ⟨f, point f⟩

/-- A fiber whose code is at `p`. -/
structure Fiber.Formed (f : FiberPtr ι) (x : Fiber ι) (p : Point ι) : Prop where
  stack : x.stack = true ↔ f.IsSub
  cur : f.IsSub → p = .mainFunc ∨ p = .ended ∨ x.cur = some f
  root : ¬ f.IsSub → x.cur = none
  ended : p = .ended → x.state = .term ∨ x.state = .except

theorem Fiber.Formed.settled {f : FiberPtr ι} {x : Fiber ι} {p : Point ι} (h : x.Formed f p) :
    x.Formed f p.settled := by
  cases p with
  | handleFiber g pc => exact ⟨h.stack, by simpa [Point.settled] using h.cur, h.root, nofun⟩
  | _ => exact h

/-- Where the code of coroutines that are fibers is. One that waits in
`handleFiber` waits for the fiber it was called for, and no other is there. -/
structure Settled (a : Coroutines ι (FiberPtr ι) (Point ι)) : Prop where
  root : ∀ i, a.point (.root i) ≠ .mainFunc ∧ a.point (.root i) ≠ .ended
  waits : ∀ i l f g gs, a.stack i = l ++ f :: g :: gs → ∀ f' pc,
    a.point g = .handleFiber f' pc → f' = f
  others : ∀ f, (∃ i, a.Runs i f) ∨ a.Idle f → (a.point f).settled = a.point f

namespace FiberMachine

variable [DecidableEq ι]

/-- The machine `m` has the coroutines `a`. -/
structure Coherent (m : FiberMachine ι) (a : Coroutines ι (FiberPtr ι) (Point ι)) : Prop where
  valid : a.Valid
  settled : Settled a
  thread : ∀ i, (m.threads i).Formed i (a.stack i) a.point
  rooted : ∀ i, (m.threads i).running ≠ none → m.fibers (.root i) ≠ none
  created : ∀ n, m.numsCreated < n → m.fibers (.sub n) = none
  fiber : ∀ f x, m.fibers f = some x → x.Formed f (a.point f)
  ctx : ∀ f x, m.fibers f = some x → (∀ i, ¬ a.Runs i f) → x.ctx = ⟨f, a.point f⟩
  exec : ∀ i n, .sub n ∈ a.stack i → ∃ x, m.fibers (.sub n) = some x ∧ x.state = .exec

/-- Each callback is given to one fiber, and called at most once. -/
structure Callbacks (m : FiberMachine ι) (a : Coroutines ι (FiberPtr ι) (Point ι)) : Prop where
  lt : ∀ f x k, m.fibers f = some x → x.cb = some k → k < m.nextCb
  inj : ∀ f g x y k, m.fibers f = some x → m.fibers g = some y → x.cb = some k →
    y.cb = some k → f = g
  calledLt : ∀ k ∈ m.called, k < m.nextCb
  nodup : m.called.Nodup
  uncalled : ∀ f x k, m.fibers f = some x → a.point f = .mainFunc → x.cb = some k →
    k ∉ m.called

/-- From one machine to the other no fiber is made or begins anew, and no callback
is given or called. -/
structure Keeps (m : FiberMachine ι) (a : Coroutines ι (FiberPtr ι) (Point ι))
    (m' : FiberMachine ι) (a' : Coroutines ι (FiberPtr ι) (Point ι)) : Prop where
  numsCreated : m'.numsCreated = m.numsCreated
  nextCb : m'.nextCb = m.nextCb
  called : m'.called = m.called
  cb : ∀ f x', m'.fibers f = some x' → x'.cb = none ∨ ∃ x, m.fibers f = some x ∧ x'.cb = x.cb
  point : ∀ f, a'.point f = .mainFunc → a.point f = .mainFunc

section Updates

variable (m : FiberMachine ι) (i : ι) (t : FiberThread ι) (f : FiberPtr ι) (x : Option (Fiber ι))

@[simp] theorem setThread_threads : (m.setThread i t).threads = Function.update m.threads i t := rfl
@[simp] theorem setThread_fibers : (m.setThread i t).fibers = m.fibers := rfl
@[simp] theorem setThread_numsCreated : (m.setThread i t).numsCreated = m.numsCreated := rfl
@[simp] theorem setThread_nextCb : (m.setThread i t).nextCb = m.nextCb := rfl
@[simp] theorem setThread_called : (m.setThread i t).called = m.called := rfl
@[simp] theorem setFiber_fibers : (m.setFiber f x).fibers = Function.update m.fibers f x := rfl
@[simp] theorem setFiber_threads : (m.setFiber f x).threads = m.threads := rfl
@[simp] theorem setFiber_numsCreated : (m.setFiber f x).numsCreated = m.numsCreated := rfl
@[simp] theorem setFiber_nextCb : (m.setFiber f x).nextCb = m.nextCb := rfl
@[simp] theorem setFiber_called : (m.setFiber f x).called = m.called := rfl

end Updates

theorem forall_threads {i : ι} {t : FiberThread ι} (threads : ι → FiberThread ι)
    (p : ι → FiberThread ι → Prop) :
    (∀ j, p j (Function.update threads i t j)) ↔ p i t ∧ ∀ j ≠ i, p j (threads j) :=
  Function.forall_update_iff _ p

variable {m m' m'' : FiberMachine ι} {a a' a'' : Coroutines ι (FiberPtr ι) (Point ι)}

omit [DecidableEq ι] in
theorem Keeps.refl : Keeps m a m a :=
  ⟨rfl, rfl, rfl, fun _ x' hx' => .inr ⟨x', hx', rfl⟩, fun _ => id⟩

omit [DecidableEq ι] in
theorem Keeps.trans (h : Keeps m a m' a') (h' : Keeps m' a' m'' a'') : Keeps m a m'' a'' where
  numsCreated := h'.numsCreated.trans h.numsCreated
  nextCb := h'.nextCb.trans h.nextCb
  called := h'.called.trans h.called
  cb f x' hx' := by
    rcases h'.cb f x' hx' with hnone | ⟨x, hx, heq⟩
    · exact .inl hnone
    · rw [heq]
      exact h.cb f x hx
  point f hf := h.point f (h'.point f hf)

theorem Keeps.setThread (h : Keeps m a m' a') (i : ι) (t : FiberThread ι) :
    Keeps m a (m'.setThread i t) a' := ⟨h.numsCreated, h.nextCb, h.called, h.cb, h.point⟩

theorem Keeps.setFiber (h : Keeps m a m' a') {f : FiberPtr ι} {x : Option (Fiber ι)}
    (hx : ∀ x' ∈ x, x'.cb = none ∨ ∃ y, m.fibers f = some y ∧ x'.cb = y.cb) :
    Keeps m a (m'.setFiber f x) a' where
  numsCreated := h.numsCreated
  nextCb := h.nextCb
  called := h.called
  cb g x' hx' := by
    by_cases hg : g = f
    · subst hg
      exact hx x' (by simpa using hx')
    · exact h.cb g x' (by simpa [hg] using hx')
  point := h.point

omit [DecidableEq ι] in
theorem Callbacks.keep (h : Callbacks m a) (hk : Keeps m a m' a') : Callbacks m' a' := by
  have hcb : ∀ f x' k, m'.fibers f = some x' → x'.cb = some k →
      ∃ x, m.fibers f = some x ∧ x.cb = some k := by
    intro f x' k hx' hk'
    rcases hk.cb f x' hx' with hnone | ⟨x, hx, heq⟩
    · simp [hk'] at hnone
    · exact ⟨x, hx, heq.symm.trans hk'⟩
  constructor
  case lt =>
    intro f x' k hx' hk'
    obtain ⟨x, hx, hxk⟩ := hcb f x' k hx' hk'
    exact hk.nextCb ▸ h.lt f x k hx hxk
  case inj =>
    intro f g x' y' k hx' hy' hxk' hyk'
    obtain ⟨x, hx, hxk⟩ := hcb f x' k hx' hxk'
    obtain ⟨y, hy, hyk⟩ := hcb g y' k hy' hyk'
    exact h.inj f g x y k hx hy hxk hyk
  case calledLt => exact hk.called ▸ hk.nextCb ▸ h.calledLt
  case nodup => exact hk.called ▸ h.nodup
  case uncalled =>
    intro f x' k hx' hp hk'
    obtain ⟨x, hx, hxk⟩ := hcb f x' k hx' hk'
    exact hk.called ▸ h.uncalled f x k hx (hk.point f hp) hxk

/-- The fiber a thread runs. -/
theorem Coherent.runs (h : Coherent m a) (i : ι) :
    a.Runs i ((m.threads i).running.getD (.root i)) := by
  have hown := (h.thread i).own
  rw [Coroutines.Runs, (h.thread i).stack, FiberThread.stack]
  split
  · rename_i n hn
    simp [hn]
  · rename_i hne
    cases hr : (m.threads i).running with
    | none => simp
    | some f =>
        cases f with
        | root j => simp [hown j hr]
        | sub n => exact absurd hr (hne n)

theorem Coherent.eq_of_runs (h : Coherent m a) {i : ι} {f : FiberPtr ι} (hf : a.Runs i f) :
    (m.threads i).running.getD (.root i) = f :=
  Option.some.inj ((h.runs i).symm.trans hf)

theorem Coherent.runs_unique (h : Coherent m a) {i j : ι} {f : FiberPtr ι} (hi : a.Runs i f)
    (hj : a.Runs j f) : i = j :=
  h.valid.disjoint i j f (List.mem_of_mem_head? hi) (List.mem_of_mem_head? hj)

/-- **The running code goes on elsewhere.** -/
theorem Coherent.move (h : Coherent m a) {i : ι} {f : FiberPtr ι} {p : Point ι} (hf : a.Runs i f)
    (hp : p.settled = p) (hform : ∀ x, m.fibers f = some x → x.Formed f p)
    (hroot : ∀ j, f = .root j → p ≠ .mainFunc ∧ p ≠ .ended) :
    ∃ a', a.step (.move i p) = some a' ∧ Coherent (m.goOn i p) a' ∧
      a'.point = Function.update a.point f p := by
  obtain ⟨fs, hfs⟩ := List.head?_eq_some_iff.mp hf
  refine ⟨{ a with point := Function.update a.point f p }, by simp [Coroutines.step, hfs], ?_, rfl⟩
  have hne : ∀ j, j ≠ i → ∀ g, a.Runs j g → g ≠ f := by
    rintro j hj g hg rfl
    exact hj (h.runs_unique hg hf)
  constructor
  case valid => exact ⟨h.valid.nonempty, h.valid.nodup, h.valid.disjoint⟩
  case settled =>
    have hs := h.settled
    constructor
    case root =>
      intro j
      by_cases hj : .root j = f
      · simpa [hj] using hroot j hj.symm
      · simpa [hj] using hs.root j
    case waits =>
      intro j l f₁ g gs hl f' pc hpt
      by_cases hgf : g = f
      · subst hgf
        simp only [Function.update_self] at hpt
        simp [hpt, Point.settled] at hp
      · simp only [Function.update_of_ne hgf] at hpt
        exact hs.waits j l f₁ g gs hl f' pc hpt
    case others =>
      intro g hg
      by_cases hgf : g = f
      · subst hgf
        simpa using hp
      · simpa [hgf] using hs.others g hg
  case thread =>
    refine (forall_threads _ fun j t => t.Formed j (a.stack j) _).mpr ⟨?_, ?_⟩
    · have ht := h.thread i
      refine ⟨ht.root, ht.own, ht.unset, ht.sched, ht.stack, fun g hg => ?_⟩
      obtain rfl : f = g := Option.some.inj (hf.symm.trans hg)
      simp [ht.cpu f hf]
    · intro j hj
      have ht := h.thread j
      refine ⟨ht.root, ht.own, ht.unset, ht.sched, ht.stack, fun g hg => ?_⟩
      simpa [hne j hj g hg] using ht.cpu g hg
  case rooted =>
    refine (forall_threads _ fun j t => t.running ≠ none → m.fibers (.root j) ≠ none).mpr ?_
    exact ⟨h.rooted i, fun j _ => h.rooted j⟩
  case created => exact h.created
  case fiber =>
    intro g x hx
    by_cases hgf : g = f
    · subst hgf
      simpa using hform x hx
    · simpa [hgf] using h.fiber g x hx
  case ctx =>
    intro g x hx hg
    have hgf : g ≠ f := by
      rintro rfl
      exact hg i hf
    simpa [hgf] using h.ctx g x hx hg
  case exec => exact h.exec

/-- A fiber that may be resumed is on no stack. -/
theorem Coherent.idle (h : Coherent m a) {f : FiberPtr ι} {x : Fiber ι} (hf : f.IsSub)
    (hx : m.fibers f = some x) (hs : x.state ≠ .exec) : a.Idle f := by
  obtain ⟨n, rfl⟩ := hf
  intro i hi
  obtain ⟨y, hy, hexec⟩ := h.exec i n hi
  obtain rfl := Option.some.inj (hx.symm.trans hy)
  exact hs hexec

/-- The coroutines after a resume. -/
theorem settled_resume (hs : Settled a) (hv : a.Valid) {i : ι} {f g : FiberPtr ι}
    {gs : List (FiberPtr ι)} {here : Point ι} (hi : a.stack i = g :: gs) (hf : a.Idle f)
    (hhere : ∃ p, here = .code p ∨ here = .handleFiber f p) :
    Settled ⟨Function.update a.stack i (f :: g :: gs), Function.update a.point g here⟩ := by
  have hgi : g ∈ a.stack i := by simp [hi]
  have hne : ∀ j, j ≠ i → ∀ g' ∈ a.stack j, g' ≠ g := by
    rintro j hj g' hg' rfl
    exact hj (hv.disjoint j i g' hg' hgi)
  have hfg : f ≠ g := by
    rintro rfl
    exact hf i hgi
  have hgs : g ∉ gs := (List.nodup_cons.mp (hi ▸ hv.nodup i)).1
  constructor
  case root =>
    intro j
    by_cases hj : .root j = g
    · obtain ⟨p, rfl | rfl⟩ := hhere <;> simp [hj]
    · simpa [hj] using hs.root j
  case waits =>
    intro j l f₁ g₁ gs₁ hl f' pc hpt
    by_cases hj : j = i
    · subst hj
      simp only [Function.update_self] at hl
      cases l with
      | nil =>
          simp only [List.nil_append, List.cons.injEq] at hl
          obtain ⟨rfl, rfl, rfl⟩ := hl
          simp only [Function.update_self] at hpt
          obtain ⟨p, rfl | rfl⟩ := hhere <;> simp_all
      | cons d l =>
          have hl' : g :: gs = l ++ f₁ :: g₁ :: gs₁ := (List.cons.inj hl).2
          have hg₁ : g₁ ≠ g := by
            rintro rfl
            cases l with
            | nil => exact hgs ((List.cons.inj hl').2 ▸ by simp)
            | cons e l => exact hgs (by simp [(List.cons.inj hl').2])
          simp only [Function.update_of_ne hg₁] at hpt
          exact hs.waits j l f₁ g₁ gs₁ (hi.trans hl') f' pc hpt
    · simp only [Function.update_of_ne hj] at hl
      have hg₁ : g₁ ≠ g := hne j hj g₁ (by simp [hl])
      simp only [Function.update_of_ne hg₁] at hpt
      exact hs.waits j l f₁ g₁ gs₁ hl f' pc hpt
  case others =>
    rintro f₁ (⟨j, hj⟩ | hidle)
    · by_cases hji : j = i
      · subst hji
        obtain rfl : f = f₁ := by simpa [Coroutines.Runs] using hj
        simpa [hfg] using hs.others f (.inr hf)
      · have hj : a.Runs j f₁ := by simpa [Coroutines.Runs, hji] using hj
        have hf₁ : f₁ ≠ g := hne j hji f₁ (List.mem_of_mem_head? hj)
        simpa [hf₁] using hs.others f₁ (.inl ⟨j, hj⟩)
    · have hf₁ : f₁ ≠ g := by
        rintro rfl
        exact hidle i (by simp)
      have hidle : a.Idle f₁ := by
        intro j hj
        by_cases hji : j = i
        · subst hji
          exact hidle j (by simpa using Or.inr (List.mem_cons.mp (hi ▸ hj)))
        · exact hidle j (by simpa [hji] using hj)
      simpa [hf₁] using hs.others f₁ (.inr hidle)

/-- A fiber whose record changes, but not the place its code is at. -/
theorem Coherent.setFiber (h : Coherent m a) {f : FiberPtr ι} {x x' : Fiber ι}
    (hx : m.fibers f = some x) (hform : x'.Formed f (a.point f))
    (hctx : (∀ i, ¬ a.Runs i f) → x'.ctx = x.ctx)
    (hexec : f.IsSub → a.Idle f ∨ x'.state = x.state) : Coherent (m.setFiber f (some x')) a := by
  constructor
  case valid => exact h.valid
  case settled => exact h.settled
  case thread => exact h.thread
  case rooted =>
    intro j hj
    by_cases hf : .root j = f
    · simp [hf]
    · simpa [hf] using h.rooted j hj
  case created =>
    intro n hn
    have hnone := h.created n hn
    have hf : .sub n ≠ f := by
      rintro rfl
      simp [hnone] at hx
    simpa [hf] using hnone
  case fiber =>
    intro g z hz
    by_cases hg : g = f
    · subst hg
      obtain rfl : x' = z := by simpa using hz
      exact hform
    · exact h.fiber g z (by simpa [hg] using hz)
  case ctx =>
    intro g z hz hr
    by_cases hg : g = f
    · subst hg
      obtain rfl : x' = z := by simpa using hz
      exact (hctx hr).trans (h.ctx g x hx hr)
    · exact h.ctx g z (by simpa [hg] using hz) hr
  case exec =>
    intro j n hn
    obtain ⟨z, hz, hs⟩ := h.exec j n hn
    by_cases hg : .sub n = f
    · subst hg
      obtain rfl := Option.some.inj (hx.symm.trans hz)
      rcases hexec ⟨n, rfl⟩ with hidle | hstate
      · exact absurd hn (hidle j)
      · exact ⟨x', by simp, hstate.trans hs⟩
    · exact ⟨z, by simpa [hg] using hz, hs⟩

/-- A thread with a running fiber has its root fiber. -/
theorem Coherent.fibers_root (h : Coherent m a) {i j : ι} (hrun : (m.threads i).running ≠ none)
    (hj : j ≠ i → (m.threads j).running ≠ none) : m.fibers (.root j) ≠ none := by
  by_cases hji : j = i
  · exact hji ▸ h.rooted i hrun
  · exact h.rooted j (hj hji)

/-- **A switch to a fiber that is resumed.** -/
theorem Coherent.push (h : Coherent m a) {i : ι} {f g : FiberPtr ι} {gs : List (FiberPtr ι)}
    {x y : Fiber ι} {here : Point ι} {pc : ℕ} (hi : a.stack i = g :: gs)
    (hrun : (m.threads i).running ≠ none) (hcode : a.point g = .code pc) (hf : f.IsSub)
    (hidle : a.Idle f) (hx : m.fibers f = some x) (hexec : x.state = .exec)
    (hy : m.fibers g = some y) (hhere : ∃ p, here = .code p ∨ here = .handleFiber f p)
    {t : FiberThread ι} (ht : t = { m.threads i with running := some f, cpu := ⟨f, a.point f⟩ })
    (hst : t.stack i = f :: g :: gs) :
    ∃ a', a.step (.resume i f here) = some a' ∧
      Coherent ((m.setFiber g (some { y with ctx := ⟨g, here⟩ })).setThread i t) a' ∧
        a'.point = Function.update a.point g here := by
  have hgi : g ∈ a.stack i := by simp [hi]
  have hfg : f ≠ g := by
    rintro rfl
    exact hidle i hgi
  have hother : ∀ j, j ≠ i → ∀ g' ∈ a.stack j, g' ≠ g := fun j hj g' hg' =>
    h.valid.ne_of_mem hgi hj hg'
  obtain ⟨a', ha'⟩ : ∃ a', a' = Coroutines.mk (Function.update a.stack i (f :: g :: gs))
    (Function.update a.point g here) := ⟨_, rfl⟩
  have hstep : a.step (.resume i f here) = some a' := by simp [Coroutines.step, hi, hidle, ha']
  refine ⟨a', hstep, ?_, by rw [ha']⟩
  have hti := h.thread i
  constructor
  case valid => exact h.valid.step hstep
  case settled => exact ha' ▸ settled_resume h.settled h.valid hi hidle hhere
  case thread =>
    subst ha'
    refine (forall_threads _ fun j t => t.Formed j _ _).mpr ⟨?_, ?_⟩
    · subst ht
      refine ⟨by simpa [hrun] using hti.root, ?_, by simp, hti.sched, by simp [hst], ?_⟩
      · rintro j hj
        obtain ⟨n, rfl⟩ := hf
        cases hj
      · simp [hfg]
    · intro j hj
      have ht := h.thread j
      refine ⟨ht.root, ht.own, ht.unset, ht.sched, by simpa [hj] using ht.stack, ?_⟩
      intro f' hf'
      have hf' : f' ∈ (a.stack j).head? := by simpa [hj] using hf'
      simpa [hother j hj f' (List.mem_of_mem_head? hf')] using ht.cpu f' hf'
  case rooted =>
    intro j hj
    have hrooted := h.fibers_root (j := j) hrun fun hji => by simpa [hji] using hj
    by_cases hg : .root j = g
    · simp [hg]
    · simpa [hg] using hrooted
  case created =>
    intro n hn
    have hnone := h.created n hn
    have hng : .sub n ≠ g := by
      rintro rfl
      simp [hnone] at hy
    simpa [hng] using hnone
  case fiber =>
    subst ha'
    intro g' z hz
    by_cases hg : g' = g
    · subst hg
      obtain rfl : { y with ctx := ⟨g', here⟩ } = z := by simpa using hz
      have hform := h.fiber g' y hy
      refine ⟨hform.stack, fun hsub => ?_, hform.root, fun hended => ?_⟩
      · exact .inr (.inr (by simpa [hcode] using hform.cur hsub))
      · obtain ⟨p, rfl | rfl⟩ := hhere <;> simp at hended
    · simpa [hg] using h.fiber g' z (by simpa [hg] using hz)
  case ctx =>
    subst ha'
    intro g' z hz hr
    by_cases hg : g' = g
    · subst hg
      obtain rfl : { y with ctx := ⟨g', here⟩ } = z := by simpa using hz
      simp
    · have hr' := Coroutines.not_runs_of_update hi hg hr
      simpa [hg] using h.ctx g' z (by simpa [hg] using hz) hr'
  case exec =>
    subst ha'
    intro j n hn
    have hstate : ∃ z, m.fibers (.sub n) = some z ∧ z.state = .exec := by
      by_cases hji : j = i
      · subst hji
        have hn : .sub n = f ∨ .sub n ∈ a.stack j := by simpa [hi] using hn
        rcases hn with rfl | hn
        · exact ⟨x, hx, hexec⟩
        · exact h.exec j n hn
      · exact h.exec j n (by simpa [hji] using hn)
    obtain ⟨z, hz, hs⟩ := hstate
    by_cases hg : .sub n = g
    · subst hg
      obtain rfl := Option.some.inj (hy.symm.trans hz)
      exact ⟨{ y with ctx := ⟨.sub n, here⟩ }, by simp, hs⟩
    · exact ⟨z, by simpa [hg] using hz, hs⟩

/-- The coroutines after a yield, when the one below has gone on. -/
theorem settled_leave (hs : Settled a) (hv : a.Valid) {i : ι} {f g : FiberPtr ι}
    {gs : List (FiberPtr ι)} {here : Point ι} (hi : a.stack i = f :: g :: gs) (hf : f.IsSub)
    (hhere : here.settled = here) :
    Settled ⟨Function.update a.stack i (g :: gs),
      Function.update (Function.update a.point f here) g (a.point g).settled⟩ := by
  have hnodup := hi ▸ hv.nodup i
  have hfg : f ≠ g := by
    rintro rfl
    simp at hnodup
  have hother : ∀ j, j ≠ i → ∀ g' ∈ a.stack j, g' ≠ f ∧ g' ≠ g := fun j hj g' hg' =>
    ⟨hv.ne_of_mem (by simp [hi]) hj hg', hv.ne_of_mem (by simp [hi]) hj hg'⟩
  constructor
  case root =>
    intro j
    have hjf : .root j ≠ f := by
      obtain ⟨n, rfl⟩ := hf
      simp
    by_cases hg : .root j = g
    · have hroot := hg ▸ hs.root j
      simp only [hg, Function.update_self]
      cases hp : a.point g <;> simp_all [Point.settled]
    · simpa [hjf, hg] using hs.root j
  case waits =>
    intro j l f₁ g₁ gs₁ hl f' pc hpt
    have hold : ∃ l, a.stack j = l ++ f₁ :: g₁ :: gs₁ := by
      by_cases hj : j = i
      · subst hj
        exact ⟨f :: l, by rw [hi, List.cons_append, ← hl]; simp⟩
      · exact ⟨l, by simpa [hj] using hl⟩
    obtain ⟨l', hl'⟩ := hold
    have hne : g₁ ≠ f ∧ g₁ ≠ g := by
      by_cases hj : j = i
      · subst hj
        simp only [Function.update_self] at hl
        have hmem : g₁ ∈ gs := by
          cases l with
          | nil => simp [(List.cons.inj hl).2]
          | cons d l => simp [(List.cons.inj hl).2]
        simp only [List.nodup_cons, List.mem_cons, not_or] at hnodup
        constructor <;> rintro rfl
        · exact hnodup.1.2 hmem
        · exact hnodup.2.1 hmem
      · exact hother j hj g₁ (by simp [hl'])
    simp only [Function.update_of_ne hne.1, Function.update_of_ne hne.2] at hpt
    exact hs.waits j l' f₁ g₁ gs₁ hl' f' pc hpt
  case others =>
    rintro f₁ (⟨j, hj⟩ | hidle)
    · by_cases hji : j = i
      · subst hji
        obtain rfl : g = f₁ := by simpa [Coroutines.Runs] using hj
        simp
      · have hj : a.Runs j f₁ := by simpa [Coroutines.Runs, hji] using hj
        obtain ⟨h₁, h₂⟩ := hother j hji f₁ (List.mem_of_mem_head? hj)
        simpa [h₁, h₂] using hs.others f₁ (.inl ⟨j, hj⟩)
    · have hg : f₁ ≠ g := by
        rintro rfl
        exact hidle i (by simp)
      by_cases hff : f₁ = f
      · simpa [hff, hfg] using hhere
      · have hidle : a.Idle f₁ := by
          intro j hj
          by_cases hji : j = i
          · subst hji
            have hmem : f₁ ∈ f :: g :: gs := hi ▸ hj
            exact hidle j (by simpa [hff] using hmem)
          · exact hidle j (by simpa [hji] using hj)
        simpa [hff, hg] using hs.others f₁ (.inr hidle)

/-- **A switch back to the fiber below.** -/
theorem Coherent.pop (h : Coherent m a) {i : ι} {f g : FiberPtr ι} {gs : List (FiberPtr ι)}
    {y : Fiber ι} {here : Point ι} (hi : a.stack i = f :: g :: gs) (hf : f.IsSub)
    (hg : ∀ j, g = .root j → j = i) (hctx : y.ctx = ⟨f, here⟩) (hform : y.Formed f here)
    (hhere : here.settled = here) {t : FiberThread ι}
    (ht : t = { m.threads i with running := some g, cpu := ⟨g, (a.point g).settled⟩ })
    (hst : t.stack i = g :: gs) :
    ∃ a', (Coroutines.lts FiberPtr.root).run a [.yield i here, .move i (a.point g).settled] =
        some a' ∧ a'.Idle f ∧ Coherent ((m.setFiber f (some y)).setThread i t) a' ∧
      a'.point = Function.update (Function.update a.point f here) g (a.point g).settled := by
  have hnodup := hi ▸ h.valid.nodup i
  have hfg : f ≠ g := by
    rintro rfl
    simp at hnodup
  have hother : ∀ j, j ≠ i → ∀ g' ∈ a.stack j, g' ≠ f ∧ g' ≠ g := fun j hj g' hg' =>
    ⟨h.valid.ne_of_mem (by simp [hi]) hj hg', h.valid.ne_of_mem (by simp [hi]) hj hg'⟩
  obtain ⟨a₁, ha₁⟩ : ∃ a₁, a₁ = Coroutines.mk (Function.update a.stack i (g :: gs))
    (Function.update a.point f here) := ⟨_, rfl⟩
  obtain ⟨a', ha'⟩ : ∃ a', a' = Coroutines.mk (Function.update a.stack i (g :: gs))
    (Function.update (Function.update a.point f here) g (a.point g).settled) := ⟨_, rfl⟩
  have hstep : a.step (.yield i here) = some a₁ := by simp [Coroutines.step, hi, ha₁]
  have hmove : a₁.step (.move i (a.point g).settled) = some a' := by
    simp [Coroutines.step, ha₁, ha']
  have hidle : a'.Idle f := by
    intro j hj
    by_cases hji : j = i
    · subst hji
      simp only [ha', Function.update_self] at hj
      exact (List.nodup_cons.mp hnodup).1 hj
    · exact (hother j hji f (by simpa [ha', hji] using hj)).1 rfl
  have hrun : (m.threads i).running ≠ none := by
    intro hnone
    have hroot := h.eq_of_runs (i := i) (f := f) (by simp [Coroutines.Runs, hi])
    obtain ⟨n, rfl⟩ := hf
    simp [hnone] at hroot
  refine ⟨a', ?_, hidle, ?_, by rw [ha']⟩
  · simp [Lts.run, Coroutines.lts, hstep, hmove]
  constructor
  case valid => exact (h.valid.step hstep).step hmove
  case settled => exact ha' ▸ settled_leave h.settled h.valid hi hf hhere
  case thread =>
    subst ha'
    have hti := h.thread i
    refine (forall_threads _ fun j t => t.Formed j _ _).mpr ⟨?_, ?_⟩
    · subst ht
      refine ⟨by simpa [hrun] using hti.root, ?_, by simp, hti.sched, by simp [hst], by simp⟩
      intro j hj
      exact hg j (Option.some.inj hj)
    · intro j hj
      have ht := h.thread j
      refine ⟨ht.root, ht.own, ht.unset, ht.sched, by simpa [hj] using ht.stack, ?_⟩
      intro f' hf'
      have hf' : f' ∈ (a.stack j).head? := by simpa [hj] using hf'
      obtain ⟨h₁, h₂⟩ := hother j hj f' (List.mem_of_mem_head? hf')
      simpa [h₁, h₂] using ht.cpu f' hf'
  case rooted =>
    intro j hj
    have hrooted := h.fibers_root (j := j) hrun fun hji => by simpa [hji] using hj
    obtain ⟨n, rfl⟩ := hf
    simpa using hrooted
  case created =>
    intro n hn
    have hnone := h.created n hn
    have hnf : .sub n ≠ f := by
      rintro rfl
      obtain ⟨x, hx, -⟩ := h.exec i n (by simp [hi])
      simp [hnone] at hx
    simpa [hnf] using hnone
  case fiber =>
    subst ha'
    intro g' z hz
    by_cases hf' : g' = f
    · subst hf'
      obtain rfl : y = z := by simpa using hz
      simpa [hfg] using hform
    · have hform := h.fiber g' z (by simpa [hf'] using hz)
      by_cases hg' : g' = g
      · subst hg'
        simpa using hform.settled
      · simpa [hf', hg'] using hform
  case ctx =>
    subst ha'
    intro g' z hz hr
    by_cases hf' : g' = f
    · subst hf'
      obtain rfl : y = z := by simpa using hz
      simpa [hfg] using hctx
    · have hg' : g' ≠ g := by
        rintro rfl
        exact hr i (by simp [Coroutines.Runs])
      have hr' := Coroutines.not_runs_of_update hi hf' hr
      simpa [hf', hg'] using h.ctx g' z (by simpa [hf'] using hz) hr'
  case exec =>
    intro j n hn
    have hnf : .sub n ≠ f := by
      rintro rfl
      exact hidle j hn
    obtain ⟨z, hz, hs⟩ := h.exec j n (by
      by_cases hji : j = i
      · subst hji
        simp only [ha', Function.update_self] at hn
        exact hi ▸ List.mem_cons_of_mem f hn
      · simpa [ha', hji] using hn)
    exact ⟨z, by simpa [hnf] using hz, hs⟩

/-- **A fiber that begins anew.** -/
theorem Coherent.restart (h : Coherent m a) {f : FiberPtr ι} (hf : f.IsSub) (hidle : a.Idle f)
    {x' : Fiber ι} (hform : x'.Formed f .mainFunc) (hctx : x'.ctx = ⟨f, .mainFunc⟩)
    {w : FiberMachine ι} (hthreads : w.threads = m.threads)
    (hfibers : w.fibers = Function.update m.fibers f (some x'))
    (hnum : ∀ n, w.numsCreated < n → m.numsCreated < n ∧ .sub n ≠ f) :
    ∃ a', a.step (.restart f .mainFunc) = some a' ∧ Coherent w a' ∧
      a'.stack = a.stack ∧ a'.point = Function.update a.point f .mainFunc := by
  refine ⟨{ a with point := Function.update a.point f .mainFunc },
    by simp only [Coroutines.step, if_pos hidle], ?_, rfl, rfl⟩
  have hroot : ∀ j, .root j ≠ f := by
    rintro j rfl
    obtain ⟨n, hn⟩ := hf
    cases hn
  have hon : ∀ j, ∀ g ∈ a.stack j, g ≠ f := by
    rintro j g hg rfl
    exact hidle j hg
  constructor
  case valid => exact ⟨h.valid.nonempty, h.valid.nodup, h.valid.disjoint⟩
  case settled =>
    have hs := h.settled
    refine ⟨fun j => by simpa [hroot j] using hs.root j, ?_, ?_⟩
    · intro j l f₁ g gs hl f' pc hpt
      have hgf : g ≠ f := hon j g (by
        have hl : a.stack j = _ := hl
        simp [hl])
      exact hs.waits j l f₁ g gs hl f' pc (by simpa [hgf] using hpt)
    · intro g hg
      by_cases hgf : g = f
      · simp [hgf, Point.settled]
      · simpa [hgf] using hs.others g hg
  case thread =>
    intro j
    have ht := h.thread j
    rw [hthreads]
    refine ⟨ht.root, ht.own, ht.unset, ht.sched, ht.stack, fun g hg => ?_⟩
    simpa [hon j g (List.mem_of_mem_head? hg)] using ht.cpu g hg
  case rooted =>
    intro j hj
    rw [hfibers, Function.update_of_ne (hroot j)]
    exact h.rooted j (hthreads ▸ hj)
  case created =>
    intro n hn
    obtain ⟨hn, hnf⟩ := hnum n hn
    rw [hfibers, Function.update_of_ne hnf]
    exact h.created n hn
  case fiber =>
    intro g z hz
    rw [hfibers] at hz
    by_cases hgf : g = f
    · subst hgf
      obtain rfl : x' = z := by simpa using hz
      simpa using hform
    · simpa [hgf] using h.fiber g z (by simpa [hgf] using hz)
  case ctx =>
    intro g z hz hr
    rw [hfibers] at hz
    by_cases hgf : g = f
    · subst hgf
      obtain rfl : x' = z := by simpa using hz
      simpa using hctx
    · simpa [hgf] using h.ctx g z (by simpa [hgf] using hz) hr
  case exec =>
    intro j n hn
    obtain ⟨z, hz, hs⟩ := h.exec j n hn
    exact ⟨z, by rw [hfibers, Function.update_of_ne (hon j _ hn)]; exact hz, hs⟩

/-- **A change of the thread's scheduler** that its fibers do not see. -/
theorem Coherent.setThread (h : Coherent m a) {i : ι} {t : FiberThread ι}
    (hrun : t.running = (m.threads i).running) (hroot : t.root = (m.threads i).root)
    (hcpu : t.cpu = (m.threads i).cpu) (hst : t.stack i = (m.threads i).stack i)
    (hunset : t.running = none → t.scheduler = false)
    (hsched : t.scheduler = true → ∃ f, t.schedulerFiber = some f ∧ ∀ j, f = .root j → j = i) :
    Coherent (m.setThread i t) a where
  valid := h.valid
  settled := h.settled
  thread := by
    have ht := h.thread i
    refine (forall_threads _ fun j t => t.Formed j _ _).mpr ⟨?_, fun j _ => h.thread j⟩
    exact ⟨by rw [hroot, hrun]; exact ht.root, by rw [hrun]; exact ht.own, hunset, hsched,
      ht.stack.trans hst.symm, by rw [hcpu]; exact ht.cpu⟩
  rooted := by
    intro j hj
    refine h.rooted j ?_
    by_cases hji : j = i
    · subst hji
      simpa [← hrun] using hj
    · simpa [hji] using hj
  created := h.created
  fiber := h.fiber
  ctx := h.ctx
  exec := h.exec

/-- **The root fiber is made.** -/
theorem Coherent.getThis (h : Coherent m a) (i : ι) :
    Coherent (m.getThis i) a ∧ ((m.getThis i).threads i).running ≠ none := by
  unfold FiberMachine.getThis
  split
  · rename_i hrun
    exact ⟨h, by simpa [Option.isSome_iff_ne_none] using hrun⟩
  · rename_i hrun
    have hrun : (m.threads i).running = none := by simpa using hrun
    have hruns : a.Runs i (.root i) := by simpa [hrun] using h.runs i
    refine ⟨?_, by simp⟩
    constructor
    case valid => exact h.valid
    case settled => exact h.settled
    case thread =>
      have ht := h.thread i
      refine (forall_threads _ fun j t => t.Formed j _ _).mpr ⟨?_, fun j _ => h.thread j⟩
      refine ⟨by simp, by simp, by simp, ?_, ?_, ht.cpu⟩
      · intro hs
        simp [ht.unset hrun] at hs
      · exact ht.stack.trans (by simp [FiberThread.stack, hrun])
    case rooted =>
      intro j hj
      by_cases hji : j = i
      · simp [hji]
      · simpa [hji] using h.rooted j (by simpa [hji] using hj)
    case created =>
      intro n hn
      simpa using h.created n hn
    case fiber =>
      intro f x hx
      by_cases hf : f = .root i
      · subst hf
        simp only [setFiber_fibers, Function.update_self, Option.some.injEq] at hx
        subst hx
        have hroot := h.settled.root i
        exact ⟨by simp [FiberPtr.IsSub], by simp [FiberPtr.IsSub], fun _ => rfl,
          fun he => absurd he hroot.2⟩
      · exact h.fiber f x (by simpa [hf] using hx)
    case ctx =>
      intro f x hx hr
      have hf : f ≠ .root i := by
        rintro rfl
        exact hr i hruns
      exact h.ctx f x (by simpa [hf] using hx) hr
    case exec =>
      intro j n hn
      simpa using h.exec j n hn

/-- **A fiber is freed.** -/
theorem Coherent.forget (h : Coherent m a) {n : ℕ} (hidle : a.Idle (.sub n)) :
    Coherent (m.setFiber (.sub n) none) a where
  valid := h.valid
  settled := h.settled
  thread := h.thread
  rooted j hj := by simpa using h.rooted j hj
  created k hk := by
    by_cases hkn : k = n
    · simp [hkn]
    · simpa [hkn] using h.created k hk
  fiber f x hx := by
    by_cases hf : f = .sub n
    · simp [hf] at hx
    · exact h.fiber f x (by simpa [hf] using hx)
  ctx f x hx := by
    by_cases hf : f = .sub n
    · simp [hf] at hx
    · exact h.ctx f x (by simpa [hf] using hx)
  exec j k hk := by
    have hkn : FiberPtr.sub k ≠ .sub n := fun hkn => hidle j (hkn ▸ hk)
    simpa [Function.update_of_ne hkn] using h.exec j k hk

end FiberMachine

end Easy.Base
