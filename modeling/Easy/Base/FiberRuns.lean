import Easy.Base.FiberSwitch

/-!
Disciplined runs of fibers.
-/

namespace Easy.Base

open Lib

variable {ι : Type*} [DecidableEq ι]

namespace FiberMachine

variable {m m' : FiberMachine ι} {a : Coroutines ι (FiberPtr ι) (Point ι)}

theorem Coherent.cpu (h : Coherent m a) {i : ι} {f : FiberPtr ι} (hf : a.Runs i f) :
    (m.threads i).cpu = ⟨f, a.point f⟩ := (h.thread i).cpu f hf

/-- The code of the fiber that runs. -/
theorem Coherent.code (h : Coherent m a) {i : ι} {f : FiberPtr ι} (hf : a.Runs i f) {pc : ℕ}
    (hcode : (m.threads i).cpu.point = .code pc) : a.point f = .code pc := by
  rw [h.cpu hf] at hcode
  exact hcode

/-- Other code does not begin a fiber. -/
theorem begins_of_update {f : FiberPtr ι} {p : Point ι} {point point' : FiberPtr ι → Point ι}
    (h : point' = Function.update point f p) (hp : p ≠ .mainFunc) (g : FiberPtr ι)
    (hg : point' g = .mainFunc) : point g = .mainFunc := by
  subst h
  by_cases hgf : g = f
  · subst hgf
    exact absurd (by simpa using hg) hp
  · simpa [hgf] using hg

/-- A call that only goes on in its own code. -/
theorem Coherent.goOn (h : Coherent m a) {i : ι} {q : ℕ}
    (hcode : (m.threads i).cpu.point = .code q) (pc : ℕ) :
    ∃ a', a.step (.move i (.code pc)) = some a' ∧ Coherent (m.goOn i (.code pc)) a' ∧
      Keeps m a (m.goOn i (.code pc)) a' := by
  have hf := h.runs i
  have hpoint := h.code hf hcode
  obtain ⟨a', hstep, hc, hpt⟩ := h.move (p := .code pc) hf rfl
    (fun x hx => by
      have hform := h.fiber _ x hx
      refine ⟨hform.stack, fun hsub => ?_, hform.root, nofun⟩
      exact .inr (.inr (by simpa [hpoint] using hform.cur hsub)))
    (fun _ _ => ⟨nofun, nofun⟩)
  exact ⟨a', hstep, hc, rfl, rfl, rfl, fun _ x' hx' => .inr ⟨x', hx', rfl⟩,
    begins_of_update hpt nofun⟩

theorem swapcontext_of {i : ι} {o u : FiberPtr ι} {x y : Fiber ι} {here : Point ι}
    (hx : m.fibers o = some x) (hne : u ≠ o) (hy : m.fibers u = some y) :
    m.swapcontext i o u here =
      ((m.setFiber o (some { x with ctx := ⟨(m.threads i).cpu.owner, here⟩ })).setThread i
        { m.threads i with cpu := y.ctx }).land i := by
  simp [swapcontext, hx, hne, hy]

theorem land_of_settled {i : ι} (h : (m.threads i).cpu.point.settled = (m.threads i).cpu.point) :
    m.land i = some m := by
  unfold land
  split
  · rename_i f pc hp
    simp [hp, Point.settled] at h
  · rfl

/-- `sched_resume` and `resume`, from the fiber the thread runs. -/
theorem Coherent.resumes (h : Coherent m a) {i : ι} {f g : FiberPtr ι} {x : Fiber ι}
    {here : Point ι} {q : ℕ} (hcode : (m.threads i).cpu.point = .code q) (hf : f.IsSub)
    (hx : m.fibers f = some x) (hs : Resumable x.state) (hg : (m.threads i).running = some g)
    (hhere : ∃ p, here = .code p ∨ here = .handleFiber f p)
    (hst : ∀ cpu, ({ m.threads i with running := some f, cpu := cpu } : FiberThread ι).stack i =
      f :: (m.threads i).stack i)
    (hsw : ((m.setThis i f).setFiber f (some { x with state := .exec })).swapcontext i g f here =
      some m') :
    ∃ a', a.step (.resume i f here) = some a' ∧ Coherent m' a' ∧ Keeps m a m' a' := by
  have hruns : a.Runs i g := by simpa [hg] using h.runs i
  have hidle : a.Idle f := h.idle hf hx (by rintro he; simp [Resumable, he] at hs)
  have hfg : f ≠ g := by
    rintro rfl
    exact hidle i (List.mem_of_mem_head? hruns)
  obtain ⟨y, hy⟩ : ∃ y, m.fibers g = some y := by
    obtain ⟨y, hy, -⟩ := Option.bind_eq_some_iff.mp hsw
    exact ⟨y, by simpa [setThis, Ne.symm hfg] using hy⟩
  have hctx : x.ctx = ⟨f, a.point f⟩ := h.ctx f x hx fun j hj =>
    hidle j (List.mem_of_mem_head? hj)
  have hset : (a.point f).settled = a.point f := h.settled.others f (.inr hidle)
  have hform := h.fiber f x hx
  -- the fiber is made running first
  have h₁ : Coherent (m.setFiber f (some { x with state := .exec })) a := by
    refine h.setFiber hx ⟨hform.stack, hform.cur, hform.root, fun he => ?_⟩ (fun _ => rfl)
      fun _ => .inl hidle
    rcases hform.ended he with he | he <;> simp [Resumable, he] at hs
  obtain ⟨gs, hgs⟩ := List.head?_eq_some_iff.mp hruns
  obtain ⟨a', hstep, hc, hpt⟩ := h₁.push (x := { x with state := .exec }) hgs (by simp [hg])
    (h.code hruns hcode) hf hidle (by simp) rfl (by simpa [Ne.symm hfg] using hy) hhere rfl
    (by rw [← hgs, (h.thread i).stack]; exact hst _)
  refine ⟨a', hstep, ?_⟩
  have hm' : m' = ((m.setFiber f (some { x with state := .exec })).setFiber g
      (some { y with ctx := ⟨g, here⟩ })).setThread i
        { m.threads i with running := some f, cpu := ⟨f, a.point f⟩ } := by
    rw [swapcontext_of (y := { x with state := .exec }) (by simpa [setThis, Ne.symm hfg] using hy)
      hfg (by simp), land_of_settled (by simpa [hctx] using hset)] at hsw
    obtain rfl := Option.some.inj hsw
    simp [FiberMachine.setFiber, FiberMachine.setThread, setThis, h.cpu hruns, hctx]
  subst hm'
  refine ⟨hc, ?_⟩
  have hk : Keeps m a m a' := by
    refine ⟨rfl, rfl, rfl, fun _ x' hx' => .inr ⟨x', hx', rfl⟩, begins_of_update hpt ?_⟩
    obtain ⟨p, rfl | rfl⟩ := hhere <;> simp
  refine ((hk.setFiber ?_).setFiber ?_).setThread i _
  · simpa using .inr ⟨x, hx, rfl⟩
  · simpa using .inr ⟨y, hy, rfl⟩

/-- What `handleFiber` does with its fiber, which has left its stack. -/
theorem Coherent.settle (h : Coherent m a) {f : FiberPtr ι} (hidle : a.Idle f)
    (hsettle : m.settle f = some m') : Coherent m' a ∧ Keeps m a m' a := by
  obtain ⟨x, hx, hstate⟩ := Option.bind_eq_some_iff.mp hsettle
  have hform := h.fiber f x hx
  have hhold : x.state ≠ .term → x.state ≠ .except → m.store f .hold = some m' →
      Coherent m' a ∧ Keeps m a m' a := by
    intro hterm hexcept hstore
    simp only [store, hx, Option.map_some, Option.some.injEq] at hstore
    subst hstore
    refine ⟨h.setFiber hx ⟨hform.stack, hform.cur, hform.root, fun he => ?_⟩ (fun _ => rfl)
      fun _ => .inl hidle, ?_⟩
    · rcases hform.ended he with he | he
      · exact absurd he hterm
      · exact absurd he hexcept
    · refine Keeps.refl.setFiber ?_
      simpa using .inr ⟨x, hx, rfl⟩
  have hsame : some m = some m' → Coherent m' a ∧ Keeps m a m' a := by
    intro heq
    obtain rfl := Option.some.inj heq
    exact ⟨h, .refl⟩
  cases hs : x.state <;> rw [hs] at hstate hhold
  case init => exact hhold nofun nofun hstate
  case exec => exact hhold nofun nofun hstate
  case hold => exact hhold nofun nofun hstate
  case ready => exact hsame hstate
  case term => exact hsame hstate
  case except => exact hsame hstate

/-- Settling a fiber does not depend on where a thread is. -/
theorem settle_setThread {f : FiberPtr ι} {i : ι} {t : FiberThread ι} :
    (m.setThread i t).settle f = (m.settle f).map fun m => m.setThread i t := by
  unfold FiberMachine.settle
  simp only [setThread_fibers]
  cases hx : m.fibers f with
  | none => rfl
  | some x => cases hs : x.state <;> simp [hs, store, hx] <;> rfl

/-- The fiber that the running one leaves for. -/
theorem Coherent.stack_of_sub (h : Coherent m a) {i : ι} {f : FiberPtr ι} (hf : f.IsSub)
    (hrun : (m.threads i).running = some f) :
    ∃ gs, a.stack i = f :: (m.threads i).resumer i f :: gs ∧
      (∀ j, (m.threads i).resumer i f = .root j → j = i) ∧
      ∀ cpu, ({ m.threads i with running := some ((m.threads i).resumer i f), cpu := cpu } :
        FiberThread ι).stack i = (m.threads i).resumer i f :: gs := by
  obtain ⟨n, rfl⟩ := hf
  have ht := h.thread i
  have hsched : ∀ g, (m.threads i).resumer i (.sub n) = g → g ≠ .root i →
      (∃ k, g = .sub k) ∧ (m.threads i).schedulerFiber = some g := by
    intro g hg hne
    unfold FiberThread.resumer at hg
    split at hg
    · rename_i hs
      obtain ⟨f, hf, hown⟩ := ht.sched hs.1
      rw [hf, Option.getD_some] at hg
      subst hg
      cases f with
      | root j => exact absurd (by rw [hown j rfl]) hne
      | sub k => exact ⟨⟨k, rfl⟩, hf⟩
    · exact absurd hg.symm hne
  by_cases hr : (m.threads i).resumer i (.sub n) = .root i
  · refine ⟨[], by simp [ht.stack, FiberThread.stack, hrun, hr], by simp [hr], fun cpu => ?_⟩
    simp [FiberThread.stack, hr]
  · obtain ⟨⟨k, hk⟩, hs⟩ := hsched _ rfl hr
    rw [hk] at hs hr ⊢
    refine ⟨[.root i], by simp [ht.stack, FiberThread.stack, hrun, hk], by simp, fun cpu => ?_⟩
    simp [FiberThread.stack, FiberThread.resumer, hs]

theorem Coherent.resumer_ne (h : Coherent m a) {i : ι} {f : FiberPtr ι} (hf : f.IsSub)
    (hrun : (m.threads i).running = some f) : (m.threads i).resumer i f ≠ f := by
  obtain ⟨gs, hgs, -⟩ := h.stack_of_sub hf hrun
  intro heq
  have hnodup := hgs ▸ h.valid.nodup i
  simp [heq] at hnodup

/-- The fiber that resumed the running one waits where its context says. -/
theorem Coherent.resumer_waits (h : Coherent m a) {i : ι} {f : FiberPtr ι} (hf : f.IsSub)
    (hrun : (m.threads i).running = some f) :
    ∃ y, m.fibers ((m.threads i).resumer i f) = some y ∧
      y.ctx = ⟨(m.threads i).resumer i f, a.point ((m.threads i).resumer i f)⟩ := by
  obtain ⟨gs, hgs, hown, -⟩ := h.stack_of_sub hf hrun
  have hne := h.resumer_ne hf hrun
  generalize (m.threads i).resumer i f = g at *
  have hlive : m.fibers g ≠ none := by
    cases g with
    | root j =>
        obtain rfl := hown j rfl
        exact h.rooted j (by simp [hrun])
    | sub n =>
        obtain ⟨y, hy, -⟩ := h.exec i n (by simp [hgs])
        simp [hy]
  obtain ⟨y, hy⟩ := Option.ne_none_iff_exists'.mp hlive
  refine ⟨y, hy, h.ctx g y hy fun j hj => ?_⟩
  have hji : j = i := h.valid.disjoint j i g (List.mem_of_mem_head? hj) (by simp [hgs])
  subst hji
  have hfg : f = g := by simpa [Coroutines.Runs, hgs] using hj
  exact hne hfg.symm

theorem Coherent.arrival_eq (h : Coherent m a) {i : ι} {f : FiberPtr ι} (hf : f.IsSub)
    (hrun : (m.threads i).running = some f) :
    m.arrival i f = (a.point ((m.threads i).resumer i f)).settled := by
  obtain ⟨y, hy, hctx⟩ := h.resumer_waits hf hrun
  simp [arrival, hy, hctx]

/-- **`sched_yield` and `yield`**, to the fiber that resumed this one. -/
theorem Coherent.switchBack (h : Coherent m a) {i : ι} {f : FiberPtr ι} {x₁ : Fiber ι}
    {here : Point ι} (hf : f.IsSub) (hrun : (m.threads i).running = some f)
    (hform : x₁.Formed f here) (hhere : here.settled = here) (hmain : here ≠ .mainFunc)
    (hcb : x₁.cb = none ∨ ∃ x, m.fibers f = some x ∧ x₁.cb = x.cb)
    (hsw : ((m.setFiber f (some x₁)).setThis i ((m.threads i).resumer i f)).swapcontext i f
      ((m.threads i).resumer i f) here = some m') :
    ∃ a', (Coroutines.lts FiberPtr.root).run a [.yield i here, .move i (m.arrival i f)] = some a' ∧
      Coherent m' a' ∧ Keeps m a m' a' := by
  obtain ⟨gs, hgs, hown, hst⟩ := h.stack_of_sub hf hrun
  obtain ⟨y, hy, hyctx⟩ := h.resumer_waits hf hrun
  have hfg := h.resumer_ne hf hrun
  have harr := h.arrival_eq hf hrun
  generalize hg : (m.threads i).resumer i f = g at *
  have hruns : a.Runs i f := by simp [Coroutines.Runs, hgs]
  obtain ⟨a', hacts, hidle, hc, hpt⟩ := h.pop (y := { x₁ with ctx := ⟨f, here⟩ }) hgs hf hown rfl
    ⟨hform.stack, hform.cur, hform.root, hform.ended⟩ hhere rfl (hst _)
  refine ⟨a', harr ▸ hacts, ?_⟩
  obtain ⟨x', hx'⟩ : ∃ x' : Fiber ι, x' = { x₁ with ctx := ⟨f, here⟩ } := ⟨_, rfl⟩
  rw [← hx'] at hc
  have hk : Keeps m a ((m.setFiber f (some x')).setThread i
      { m.threads i with running := some g, cpu := ⟨g, (a.point g).settled⟩ }) a' := by
    have hpoint : Keeps m a m a' := by
      refine ⟨rfl, rfl, rfl, fun _ x' hx' => .inr ⟨x', hx', rfl⟩, fun g' hg' => ?_⟩
      rw [hpt] at hg'
      by_cases hgg : g' = g
      · rw [hgg, Function.update_self] at hg'
        rw [hgg]
        cases hp : a.point g <;> simp_all [Point.settled]
      · exact begins_of_update rfl hmain g' (by simpa [hgg] using hg')
    exact (hpoint.setFiber (by simpa [hx'] using hcb)).setThread i _
  have hM : (((m.setFiber f (some x₁)).setThis i g).setFiber f (some { x₁ with
      ctx := ⟨(((m.setFiber f (some x₁)).setThis i g).threads i).cpu.owner, here⟩ })).setThread i
        { ((m.setFiber f (some x₁)).setThis i g).threads i with cpu := y.ctx } =
      (m.setFiber f (some x')).setThread i
        { m.threads i with running := some g, cpu := ⟨g, a.point g⟩ } := by
    simp [FiberMachine.setFiber, FiberMachine.setThread, setThis, h.cpu hruns, hyctx, hx']
  rw [swapcontext_of (x := x₁) (by simp [setThis]) hfg (by simpa [setThis, hfg] using hy),
    hM] at hsw
  by_cases hset : (a.point g).settled = a.point g
  · rw [land_of_settled (by simpa using hset)] at hsw
    obtain rfl := Option.some.inj hsw
    rw [hset] at hc hk
    exact ⟨hc, hk⟩
  · -- the fiber below is in `handleFiber`, which was called for this one
    obtain ⟨f', pc, hp⟩ : ∃ f' pc, a.point g = .handleFiber f' pc := by
      cases hp : a.point g with
      | handleFiber f' pc => exact ⟨f', pc, rfl⟩
      | _ => exact absurd (by rw [hp]; rfl) hset
    obtain rfl : f' = f := h.settled.waits i [] f g gs hgs f' pc hp
    simp only [land, setThread_threads, Function.update_self, hp, settle_setThread,
      Option.map_map, Option.map_eq_some_iff] at hsw
    obtain ⟨m₁, hsettle, rfl⟩ := hsw
    simp only [hp, Point.settled] at hc hk
    obtain ⟨hc', hk'⟩ := hc.settle hidle (by
      rw [settle_setThread, hsettle, Option.map_some])
    have heq : (m₁.setThread i
        { m.threads i with running := some g, cpu := ⟨g, .handleFiber f' pc⟩ }).goOn i (.code pc) =
          m₁.setThread i { m.threads i with running := some g, cpu := ⟨g, .code pc⟩ } := by
      simp [FiberMachine.goOn, FiberMachine.setThread]
    rw [Function.comp_apply, heq]
    exact ⟨hc', hk.trans hk'⟩

/-- A root fiber that yields to itself. -/
theorem Coherent.switchSelf (h : Coherent m a) {i : ι} {x₁ : Fiber ι} {q pc : ℕ}
    (hcode : (m.threads i).cpu.point = .code q) (hrun : (m.threads i).running = some (.root i))
    (hform : x₁.Formed (.root i) (a.point (.root i)))
    (hcb : x₁.cb = none ∨ ∃ x, m.fibers (.root i) = some x ∧ x₁.cb = x.cb)
    (hsw : ((m.setFiber (.root i) (some x₁)).setThis i (.root i)).swapcontext i (.root i) (.root i)
      (.code pc) = some m') :
    ∃ a', a.step (.move i (.code pc)) = some a' ∧ Coherent m' a' ∧ Keeps m a m' a' := by
  have hruns : a.Runs i (.root i) := by simpa [hrun] using h.runs i
  obtain ⟨x, hx⟩ := Option.ne_none_iff_exists'.mp (h.rooted i (by simp [hrun]))
  obtain ⟨x', hx'⟩ : ∃ x' : Fiber ι, x' = { x₁ with ctx := ⟨.root i, .code pc⟩ } := ⟨_, rfl⟩
  have h₁ : Coherent (m.setFiber (.root i) (some x')) a := by
    subst hx'
    refine h.setFiber hx ⟨hform.stack, hform.cur, hform.root, hform.ended⟩ ?_ (by rintro ⟨n, ⟨⟩⟩)
    exact fun hno => absurd hruns (hno i)
  obtain ⟨a', hstep, hc, hk⟩ := h₁.goOn (i := i) (q := q) hcode pc
  have hm' : m' = (m.setFiber (.root i) (some x')).goOn i (.code pc) := by
    simp only [swapcontext, setThis, setThread_fibers, setFiber_fibers, Function.update_self,
      Option.bind_some, land, setThread_threads, setFiber_threads, Option.some.injEq] at hsw
    rw [← hsw]
    simp [FiberMachine.setFiber, FiberMachine.setThread, FiberMachine.goOn, h.cpu hruns, hx', hrun]
  subst hm'
  refine ⟨a', hstep, hc, Keeps.trans ?_ hk⟩
  exact Keeps.refl.setFiber (by simpa [hx'] using hcb)

theorem setFiber_self {f : FiberPtr ι} {x : Fiber ι} (hx : m.fibers f = some x) :
    m.setFiber f (some x) = m := by
  simp [FiberMachine.setFiber, ← hx]

theorem run_singleton {i : ι} {p : Point ι} {a' : Coroutines ι (FiberPtr ι) (Point ι)}
    (h : a.step (.move i p) = some a') :
    (Coroutines.lts FiberPtr.root).run a [.move i p] = some a' := by
  simp [Lts.run, Coroutines.lts, h]

/-- A switch from the running fiber to the one that resumed it. -/
theorem Coherent.goBack (h : Coherent m a) {i : ι} {f : FiberPtr ι} {z : Fiber ι}
    {here : Point ι} {q : ℕ} (hcode : f.IsSub ∨ (m.threads i).cpu.point = .code q)
    (hrun : (m.threads i).running = some f)
    (hroot : ¬ f.IsSub → (m.threads i).resumer i f = f ∧ ∃ pc, here = .code pc)
    (hform : z.Formed f here) (hhere : here.settled = here) (hmain : here ≠ .mainFunc)
    (hcb : z.cb = none ∨ ∃ x, m.fibers f = some x ∧ z.cb = x.cb)
    (hsw : ((m.setFiber f (some z)).setThis i ((m.threads i).resumer i f)).swapcontext i f
      ((m.threads i).resumer i f) here = some m') :
    ∃ a', (Coroutines.lts FiberPtr.root).run a (m.leaving i here) = some a' ∧
      Coherent m' a' ∧ Keeps m a m' a' := by
  cases f with
  | sub n =>
      have hacts : m.leaving i here = [.yield i here, .move i (m.arrival i (.sub n))] := by
        simp [leaving, hrun]
      rw [hacts]
      exact h.switchBack ⟨n, rfl⟩ hrun hform hhere hmain hcb hsw
  | root j =>
      have hsub : ¬ (FiberPtr.root j : FiberPtr ι).IsSub := by
        rintro ⟨n, ⟨⟩⟩
      obtain ⟨hres, pc, rfl⟩ := hroot hsub
      obtain rfl : j = i := (h.thread i).own j hrun
      have hcode : (m.threads j).cpu.point = .code q := hcode.resolve_left hsub
      have hacts : m.leaving j (.code pc) = [.move j (.code pc)] := by simp [leaving, hrun]
      have hruns : a.Runs j (.root j) := by simpa [hrun] using h.runs j
      rw [hres] at hsw
      have hpoint := h.code hruns hcode
      obtain ⟨a', hstep, hc, hk⟩ := h.switchSelf hcode hrun
        ⟨hform.stack, fun hs => absurd hs hsub, hform.root, by simp [hpoint]⟩ hcb hsw
      exact ⟨a', by rw [hacts]; exact run_singleton hstep, hc, hk⟩

/-- **The end of `YieldToHold` and of `MainFunc`.** -/
theorem Coherent.leave (h : Coherent m a) {i : ι} {f : FiberPtr ι} {z : Fiber ι}
    {here : Point ι} {q : ℕ} (hcode : f.IsSub ∨ (m.threads i).cpu.point = .code q)
    (hrun : (m.threads i).running = some f)
    (hroot : ¬ f.IsSub → (m.threads i).resumer i f = f ∧ ∃ pc, here = .code pc)
    (hform : z.Formed f here) (hhere : here.settled = here) (hmain : here ≠ .mainFunc)
    (hcb : z.cb = none ∨ ∃ x, m.fibers f = some x ∧ z.cb = x.cb)
    (hleave : (m.setFiber f (some z)).leave i f here = some m') :
    ∃ a', (Coroutines.lts FiberPtr.root).run a (m.leaving i here) = some a' ∧
      Coherent m' a' ∧ Keeps m a m' a' := by
  refine h.goBack hcode hrun hroot hform hhere hmain hcb ?_
  unfold FiberMachine.leave at hleave
  simp only [setFiber_threads, hrun] at hleave
  split at hleave
  · rename_i hs
    obtain ⟨s, hsf, hsw⟩ := Option.bind_eq_some_iff.mp hleave
    have hres : (m.threads i).resumer i f = s := by
      simp only [setFiber_threads] at hsf
      simp [FiberThread.resumer, hs.1, hsf ▸ hs.2, hsf]
    rw [hres]
    exact hsw
  · rename_i hs
    unfold FiberMachine.yield at hleave
    have hres : (m.threads i).resumer i f = .root i := by simp [FiberThread.resumer, hs]
    rw [hres]
    split at hleave
    · exact hleave
    · cases hleave

/-! ### Every call -/

theorem Coherent.of_called (h : Coherent m a) (called : List ℕ) :
    Coherent { m with called := called } a :=
  ⟨h.valid, h.settled, h.thread, h.rooted, h.created, h.fiber, h.ctx, h.exec⟩

/-- The coroutines can follow the machine to `m'` by these actions. -/
def Follows (m : FiberMachine ι) (a : Coroutines ι (FiberPtr ι) (Point ι))
    (acts : List (Coroutines.Act ι (FiberPtr ι) (Point ι))) (m' : FiberMachine ι) : Prop :=
  ∃ a', (Coroutines.lts FiberPtr.root).run a acts = some a' ∧ Coherent m' a' ∧
    m.numsCreated ≤ m'.numsCreated ∧ (Callbacks m a → Callbacks m' a')

theorem follows_of_keeps {acts : List (Coroutines.Act ι (FiberPtr ι) (Point ι))}
    (h : ∃ a', (Coroutines.lts FiberPtr.root).run a acts = some a' ∧ Coherent m' a' ∧
      Keeps m a m' a') : Follows m a acts m' := by
  obtain ⟨a', hrun, hc, hk⟩ := h
  exact ⟨a', hrun, hc, Nat.le_of_eq hk.numsCreated.symm, fun hcb => hcb.keep hk⟩

/-- A change the coroutines do not see, after which the code goes on. -/
theorem Coherent.quiet (h : Coherent m' a) (hk : Keeps m a m' a) {i : ι} {q : ℕ}
    (hcode : (m'.threads i).cpu.point = .code q) (pc : ℕ) :
    Follows m a [.move i (.code pc)] (m'.goOn i (.code pc)) := by
  obtain ⟨a', hstep, hc, hk'⟩ := h.goOn hcode pc
  exact follows_of_keeps ⟨a', run_singleton hstep, hc, hk.trans hk'⟩

theorem getThis_cpu (i j : ι) : ((m.getThis i).threads j).cpu = (m.threads j).cpu := by
  unfold FiberMachine.getThis
  split
  · rfl
  · by_cases hj : j = i
    · subst hj
      simp
    · simp [hj]

theorem getThis_keeps (i : ι) : Keeps m a (m.getThis i) a := by
  unfold FiberMachine.getThis
  split
  · exact .refl
  · exact (Keeps.refl.setThread i _).setFiber (by simp)

theorem Coherent.yields (h : Coherent m a) {i : ι} {f : FiberPtr ι} {q pc : ℕ}
    (hcode : (m.threads i).cpu.point = .code q) (hrun : (m.threads i).running = some f)
    (hroot : ¬ f.IsSub → (m.threads i).resumer i f = f)
    (hsw : (m.setThis i ((m.threads i).resumer i f)).swapcontext i f
      ((m.threads i).resumer i f) (.code pc) = some m') :
    Follows m a (m.leaving i (.code pc)) m' := by
  have hruns : a.Runs i f := by simpa [hrun] using h.runs i
  obtain ⟨x, hx, -⟩ := Option.bind_eq_some_iff.mp hsw
  have hx : m.fibers f = some x := hx
  have hform := h.fiber f x hx
  have hpoint := h.code hruns hcode
  refine follows_of_keeps (h.goBack (z := x) (.inr hcode) hrun (fun hs => ⟨hroot hs, pc, rfl⟩)
    ⟨hform.stack, fun hs => .inr (.inr ?_), hform.root, nofun⟩ rfl nofun (.inr ⟨x, hx, rfl⟩) ?_)
  · simpa [hpoint] using hform.cur hs
  · rw [setFiber_self hx]
    exact hsw

theorem Coherent.step_yield (h : Coherent m a) {i : ι} {f : FiberPtr ι} {q pc : ℕ}
    (hcode : (m.threads i).cpu.point = .code q) (hrun : (m.threads i).running = some f)
    (hres : (m.threads i).resumer i f = .root i)
    (hstep : m.yield i f (.code pc) = some m') : Follows m a (m.leaving i (.code pc)) m' := by
  unfold FiberMachine.yield at hstep
  split at hstep
  · refine h.yields hcode hrun (fun hs => ?_) (hres ▸ hstep)
    cases f with
    | root j => rw [hres, (h.thread i).own j hrun]
    | sub n => exact absurd ⟨n, rfl⟩ hs
  · cases hstep

theorem Coherent.step_schedYield (h : Coherent m a) {i : ι} {f : FiberPtr ι} {q pc : ℕ}
    (hcode : (m.threads i).cpu.point = .code q) (hf : f.IsSub)
    (hrun : (m.threads i).running = some f) (hs : (m.threads i).scheduler = true)
    (hne : (m.threads i).schedulerFiber ≠ some f)
    (hstep : m.schedYield i f (.code pc) = some m') : Follows m a (m.leaving i (.code pc)) m' := by
  obtain ⟨s, hsf, hsw⟩ := Option.bind_eq_some_iff.mp hstep
  refine h.yields hcode hrun (fun hs => absurd hf hs) ?_
  have hres : (m.threads i).resumer i f = s := by simp [FiberThread.resumer, hs, hsf ▸ hne, hsf]
  rw [hres]
  exact hsw

theorem leaving_getThis (i : ι) (here : Point ι) :
    (m.getThis i).leaving i here = m.leaving i here := by
  unfold FiberMachine.getThis
  split
  · rfl
  · rename_i hrun
    have hrun : (m.threads i).running = none := by simpa using hrun
    simp [leaving, hrun]

theorem resumer_getThis (i : ι) (f : FiberPtr ι) :
    ((m.getThis i).threads i).resumer i f = (m.threads i).resumer i f := by
  unfold FiberMachine.getThis
  split <;> simp [FiberThread.resumer]

theorem onRoot_of_getThis {i : ι} (h : ((m.getThis i).threads i).running = some (.root i)) :
    (m.threads i).OnRoot i := by
  unfold FiberMachine.getThis at h
  split at h
  · exact .inr h
  · rename_i hrun
    exact .inl (by simpa using hrun)

theorem Coherent.step_yieldToHold (h : Coherent m a) {i : ι} {q pc : ℕ}
    (hcode : (m.threads i).cpu.point = .code q)
    (hg : (m.threads i).OnRoot i → (m.threads i).resumer i (.root i) = .root i)
    (hstep : m.yieldToHold i (.code pc) = some m') :
    Follows m a (m.leaving i (.code pc)) m' := by
  obtain ⟨f, hrun, hstep⟩ := Option.bind_eq_some_iff.mp hstep
  obtain ⟨m₁, hstore, hleave⟩ := Option.bind_eq_some_iff.mp hstep
  obtain ⟨x, hx, rfl⟩ := Option.map_eq_some_iff.mp hstore
  have h₀ := (h.getThis i).1
  have hcode₀ : ((m.getThis i).threads i).cpu.point = .code q := by rw [getThis_cpu]; exact hcode
  have hruns : a.Runs i f := by simpa [hrun] using h₀.runs i
  have hform := h₀.fiber f x hx
  have hpoint := h₀.code hruns hcode₀
  have hform' : ({ x with state := .hold } : Fiber ι).Formed f (.code pc) :=
    ⟨hform.stack, fun hs => .inr (.inr (by simpa [hpoint] using hform.cur hs)), hform.root, nofun⟩
  obtain ⟨a', hacts, hc, hk⟩ := h₀.leave (.inr hcode₀) hrun
    (fun hs => by
      cases f with
      | sub n => exact absurd ⟨n, rfl⟩ hs
      | root j =>
          obtain rfl : j = i := (h₀.thread i).own j hrun
          exact ⟨by rw [resumer_getThis]; exact hg (onRoot_of_getThis hrun), pc, rfl⟩)
    hform' rfl nofun (.inr ⟨x, hx, rfl⟩) hleave
  rw [leaving_getThis] at hacts
  exact follows_of_keeps ⟨a', hacts, hc, (getThis_keeps i).trans hk⟩

theorem Coherent.finishes (h : Coherent m a) {i : ι} {except : Bool}
    (hcur : ∀ f o, a.Runs i f → m.fibers f = some o → f.IsSub → o.cur = some f)
    (hstep : m.finish i except = some m') : Follows m a (m.leaving i .ended) m' := by
  obtain ⟨o, ho, hstep⟩ := Option.bind_eq_some_iff.mp hstep
  obtain ⟨cur, ho', hstep⟩ := Option.bind_eq_some_iff.mp hstep
  obtain ⟨x, hx, hleave⟩ := Option.bind_eq_some_iff.mp hstep
  have hruns := h.runs i
  generalize hf : (m.threads i).running.getD (.root i) = f at hruns
  rw [h.cpu hruns] at ho
  have hform := h.fiber f o ho
  -- the code of a root fiber is not called by `MainFunc`
  have hsub : f.IsSub := by
    by_contra hs
    rw [hform.root hs] at ho'
    cases ho'
  obtain rfl : f = cur := Option.some.inj ((hcur f o hruns ho hsub).symm.trans ho')
  obtain rfl := Option.some.inj (ho.symm.trans hx)
  have hrun : (m.threads i).running = some f := by
    cases hr : (m.threads i).running with
    | none =>
        obtain ⟨n, rfl⟩ := hsub
        simp [hr] at hf
    | some g => simpa [hr] using hf
  refine follows_of_keeps (h.leave (q := 0) (.inl hsub) hrun (fun hs => absurd hsub hs) ?_ rfl
    nofun ?_ hleave)
  · cases except with
    | true => exact ⟨hform.stack, fun _ => .inr (.inl rfl), hform.root, fun _ => .inr rfl⟩
    | false => exact ⟨hform.stack, fun _ => .inr (.inl rfl), hform.root, fun _ => .inl rfl⟩
  · cases except with
    | true => exact .inr ⟨o, ho, rfl⟩
    | false => exact .inl rfl

theorem Coherent.step_finish (h : Coherent m a) {i : ι} {q : ℕ} {except : Bool}
    (hcode : (m.threads i).cpu.point = .code q) (hstep : m.finish i except = some m') :
    Follows m a (m.leaving i .ended) m' := by
  refine h.finishes (fun f o hf ho hsub => ?_) hstep
  simpa [h.code hf hcode] using (h.fiber f o ho).cur hsub

/-- `MainFunc` calls the callback of the fiber it runs in, which no fiber has
called before. -/
theorem Coherent.step_enter (h : Coherent m a) {i : ι} {pc : ℕ}
    (hmain : (m.threads i).cpu.point = .mainFunc) (hstep : m.enter i pc = some m') :
    Follows m a (m.acts (i, .enter, pc)) m' := by
  have hruns := h.runs i
  generalize hf : (m.threads i).running.getD (.root i) = f at hruns
  have hpoint : a.point f = .mainFunc := by
    rw [h.cpu hruns] at hmain
    exact hmain
  have hsub : f.IsSub := by
    cases f with
    | sub n => exact ⟨n, rfl⟩
    | root j => exact absurd hpoint (h.settled.root j).1
  have hrun : (m.threads i).running = some f := by
    cases hr : (m.threads i).running with
    | none =>
        obtain ⟨n, rfl⟩ := hsub
        simp [hr] at hf
    | some g => simpa [hr] using hf
  have hthis : m.getThis i = m := by simp [FiberMachine.getThis, hrun]
  simp only [enter, hthis, hrun, Option.bind_some, h.cpu hruns] at hstep
  obtain ⟨o, ho, hstep⟩ := Option.bind_eq_some_iff.mp hstep
  obtain ⟨o₁, ho₁⟩ : ∃ o₁ : Fiber ι, o₁ = { o with cur := some f } := ⟨_, rfl⟩
  have hcb₁ : o₁.cb = o.cb := by rw [ho₁]
  rw [← ho₁] at hstep
  simp only [setFiber_fibers, Function.update_self, Option.bind_some] at hstep
  have hform := h.fiber f o ho
  have hf₁ : (m.setFiber f (some o₁)).fibers f = some o₁ := by simp
  have h₁ : Coherent (m.setFiber f (some o₁)) a := by
    subst ho₁
    exact h.setFiber ho
      ⟨hform.stack, fun _ => .inr (.inr rfl), fun hs => absurd hsub hs, hform.ended⟩
      (fun _ => rfl) fun _ => .inr rfl
  have hk₁ : Keeps m a (m.setFiber f (some o₁)) a := by
    refine Keeps.refl.setFiber ?_
    simpa using .inr ⟨o, ho, hcb₁⟩
  have hcur : ∀ g x, a.Runs i g → (m.setFiber f (some o₁)).fibers g = some x →
      x.cur = some g ∧ x.stack = o.stack := by
    intro g x hg hx
    obtain rfl : g = f := Option.some.inj (hg.symm.trans hruns)
    obtain rfl := Option.some.inj (hf₁.symm.trans hx)
    simp [ho₁]
  simp only [acts, hrun, Option.bind_some, ho]
  rw [← hcb₁]
  cases hcb : o₁.cb with
  | none =>
      rw [hcb] at hstep
      have hleaving : (m.setFiber f (some o₁)).leaving i .ended = m.leaving i .ended := by
        have hne := h.resumer_ne hsub hrun
        obtain ⟨n, rfl⟩ := hsub
        simp [leaving, arrival, hrun, hne]
      obtain ⟨a', hacts, hc, hnum, hcbs⟩ :=
        h₁.finishes (fun g x hg hx _ => (hcur g x hg hx).1) hstep
      exact ⟨a', hleaving ▸ hacts, hc, hnum, fun hcb => hcbs (hcb.keep hk₁)⟩
  | some k =>
      rw [hcb] at hstep
      obtain rfl := Option.some.inj hstep
      obtain ⟨a', hstep, hc, hpt⟩ := h₁.move (p := .code pc) hruns rfl
        (fun x hx => ⟨by rw [(hcur f x hruns hx).2]; exact hform.stack,
          fun _ => .inr (.inr (hcur f x hruns hx).1), fun hs => absurd hsub hs, by simp⟩)
        (fun _ _ => by simp)
      refine ⟨a', run_singleton hstep, hc.of_called (m.called ++ [k]), le_rfl, fun hcbs => ?_⟩
      have hcbs₁ := hcbs.keep hk₁
      have hbegins := begins_of_update hpt (by simp)
      constructor
      case lt => exact hcbs₁.lt
      case inj => exact hcbs₁.inj
      case calledLt =>
        intro k' hk'
        rcases List.mem_append.mp hk' with hk' | hk'
        · exact hcbs₁.calledLt k' hk'
        · obtain rfl := List.mem_singleton.mp hk'
          exact hcbs₁.lt f o₁ k' hf₁ hcb
      case nodup =>
        refine hcbs₁.nodup.append (List.nodup_singleton k) ?_
        simpa using hcbs₁.uncalled f o₁ k hf₁ hpoint hcb
      case uncalled =>
        intro g x k' hx hp hk' hmem
        rcases List.mem_append.mp hmem with hmem | hmem
        · exact hcbs₁.uncalled g x k' hx (hbegins g hp) hk' hmem
        · obtain rfl := List.mem_singleton.mp hmem
          obtain rfl : f = g := hcbs₁.inj f g o₁ x k' hf₁ hx hcb hk'
          simp [hpt] at hp

theorem run_resume {i : ι} {f : FiberPtr ι} {p : Point ι}
    {a' : Coroutines ι (FiberPtr ι) (Point ι)} (h : a.step (.resume i f p) = some a') :
    (Coroutines.lts FiberPtr.root).run a [.resume i f p] = some a' := by
  simp [Lts.run, Coroutines.lts, h]

theorem Coherent.step_resume (h : Coherent m a) {i : ι} {f : FiberPtr ι} {q pc : ℕ}
    (hcode : (m.threads i).cpu.point = .code q) (hf : f.IsSub)
    (hrun : (m.threads i).running = some (.root i)) (hres : (m.threads i).resumer i f = .root i)
    (hstep : m.resume i f (.code pc) = some m') :
    Follows m a [.resume i f (.code pc)] m' := by
  unfold FiberMachine.resume at hstep
  split at hstep
  · obtain ⟨x, hx, hstep⟩ := Option.bind_eq_some_iff.mp hstep
    split at hstep
    · rename_i hs
      obtain ⟨m₁, hstore, hsw⟩ := Option.bind_eq_some_iff.mp hstep
      obtain ⟨x', hx', rfl⟩ := Option.map_eq_some_iff.mp hstore
      obtain rfl := Option.some.inj (hx.symm.trans hx')
      obtain ⟨a', hacts, hc, hk⟩ := h.resumes hcode hf hx hs hrun ⟨pc, .inl rfl⟩
        (fun cpu => by
          obtain ⟨n, rfl⟩ := hf
          have hres' : ({ m.threads i with running := some (.sub n), cpu := cpu } :
            FiberThread ι).resumer i (.sub n) = .root i := hres
          simp [FiberThread.stack, hrun, hres']) hsw
      exact follows_of_keeps ⟨a', run_resume hacts, hc, hk⟩
    · cases hstep
  · cases hstep

theorem Coherent.step_handleFiber (h : Coherent m a) {i : ι} {f : FiberPtr ι} {q pc : ℕ}
    (hcode : (m.threads i).cpu.point = .code q) (hf : f.IsSub)
    (hsched : (m.threads i).scheduler = true)
    (hrun : (m.threads i).running = (m.threads i).schedulerFiber)
    (hstep : m.schedResume i f (.handleFiber f pc) = some m') :
    Follows m a [.resume i f (.handleFiber f pc)] m' := by
  obtain ⟨x, hx, hstep⟩ := Option.bind_eq_some_iff.mp hstep
  split at hstep
  · rename_i hs
    obtain ⟨m₁, hstore, hstep⟩ := Option.bind_eq_some_iff.mp hstep
    obtain ⟨x', hx', rfl⟩ := Option.map_eq_some_iff.mp hstore
    obtain rfl := Option.some.inj (hx.symm.trans hx')
    obtain ⟨g, hsf, hsw⟩ := Option.bind_eq_some_iff.mp hstep
    have hg : (m.threads i).schedulerFiber = some g := by simpa [setThis] using hsf
    have hidle : a.Idle f := h.idle hf hx (by rintro he; simp [Resumable, he] at hs)
    have hruns : a.Runs i g := by simpa [hrun, hg] using h.runs i
    have hgf : g ≠ f := by
      rintro rfl
      exact hidle i (List.mem_of_mem_head? hruns)
    obtain ⟨a', hacts, hc, hk⟩ := h.resumes hcode hf hx hs (hrun.trans hg) ⟨pc, .inr rfl⟩
      (fun cpu => by
        obtain ⟨n, rfl⟩ := hf
        have hres : ({ m.threads i with running := some (.sub n), cpu := cpu } :
            FiberThread ι).resumer i (.sub n) = g := by
          simp [FiberThread.resumer, hsched, hg, hgf]
        cases g with
        | root j =>
            obtain rfl : j = i := (h.thread i).own j (hrun.trans hg)
            simp [FiberThread.stack, hrun.trans hg, hres]
        | sub k =>
            have hres' : (m.threads i).resumer i (.sub k) = .root i := by
              simp [FiberThread.resumer, hg]
            simp [FiberThread.stack, hrun.trans hg, hres, hres']) hsw
    exact follows_of_keeps ⟨a', run_resume hacts, hc, hk⟩
  · cases hstep

/-- A fiber is given a callback, and begins anew. -/
theorem Callbacks.give (h : Callbacks m a) {f : FiberPtr ι} {cb : Bool} {z : Fiber ι}
    (hz : z.cb = m.givenCb cb) {a' : Coroutines ι (FiberPtr ι) (Point ι)}
    (hfibers : m'.fibers = Function.update m.fibers f (some z))
    (hnext : m'.nextCb = m.nextCb + 1) (hcalled : m'.called = m.called)
    (hpt : a'.point = Function.update a.point f .mainFunc) : Callbacks m' a' := by
  have hgiven : ∀ k, z.cb = some k → k = m.nextCb := by
    intro k hk
    rw [hz, givenCb] at hk
    split at hk
    · exact (Option.some.inj hk).symm
    · cases hk
  have hold : ∀ g x k, m'.fibers g = some x → x.cb = some k →
      g = f ∧ k = m.nextCb ∨ g ≠ f ∧ m.fibers g = some x := by
    intro g x k hx hk
    rw [hfibers] at hx
    by_cases hg : g = f
    · subst hg
      obtain rfl : z = x := by simpa using hx
      exact .inl ⟨rfl, hgiven k hk⟩
    · exact .inr ⟨hg, by simpa [hg] using hx⟩
  constructor
  case lt =>
    intro g x k hx hk
    rcases hold g x k hx hk with ⟨-, rfl⟩ | ⟨-, hx⟩
    · omega
    · have := h.lt g x k hx hk
      omega
  case inj =>
    intro g₁ g₂ x y k hx hy hxk hyk
    rcases hold g₁ x k hx hxk with ⟨rfl, rfl⟩ | ⟨-, hx⟩ <;>
      rcases hold g₂ y _ hy hyk with ⟨rfl, hk⟩ | ⟨-, hy⟩
    · rfl
    · exact absurd (h.lt g₂ y _ hy hyk) (lt_irrefl _)
    · have := h.lt g₁ x _ hx hxk
      omega
    · exact h.inj g₁ g₂ x y k hx hy hxk hyk
  case calledLt =>
    intro k hk
    have := h.calledLt k (hcalled ▸ hk)
    omega
  case nodup => exact hcalled ▸ h.nodup
  case uncalled =>
    intro g x k hx hp hk hmem
    rw [hcalled] at hmem
    rcases hold g x k hx hk with ⟨-, rfl⟩ | ⟨hg, hx⟩
    · exact absurd (h.calledLt _ hmem) (lt_irrefl _)
    · rw [hpt, Function.update_of_ne hg] at hp
      exact h.uncalled g x k hx hp hk hmem

omit [DecidableEq ι] in
/-- A fiber with a new context. -/
theorem formed_new (f : FiberPtr ι) (hf : f.IsSub) (cb : Option ℕ) :
    (⟨.init, true, cb, ⟨f, .mainFunc⟩, none⟩ : Fiber ι).Formed f .mainFunc :=
  ⟨by simp [hf], fun _ => .inl rfl, fun hs => absurd hf hs, nofun⟩

theorem Coherent.idle_new (h : Coherent m a) (n : ℕ) (hn : m.numsCreated < n) :
    a.Idle (.sub n) := by
  intro j hj
  obtain ⟨x, hx, -⟩ := h.exec j n hj
  rw [h.created n hn] at hx
  cases hx

/-- **A fiber that begins anew**, after which the code goes on. -/
theorem Coherent.begins (h : Coherent m a) {i : ι} {f : FiberPtr ι} {w : FiberMachine ι}
    {q p : ℕ} {c : Bool}
    (hf : f.IsSub) (hidle : a.Idle f)
    (hfibers : w.fibers = Function.update m.fibers f
      (some ⟨.init, true, m.givenCb c, ⟨f, .mainFunc⟩, none⟩))
    (hnum : ∀ n, w.numsCreated < n → m.numsCreated < n ∧ .sub n ≠ f)
    (hnext : w.nextCb = m.nextCb + 1) (hcalled : w.called = m.called)
    {t : FiberThread ι} (hthreads : w.threads = Function.update m.threads i t)
    (hcoh : ∀ m₁ a₁, Coherent m₁ a₁ → m₁.threads = m.threads → Coherent (m₁.setThread i t) a₁)
    (hcode : t.cpu.point = .code q) :
    Follows m a [.restart f .mainFunc, .move i (.code p)] (w.goOn i (.code p)) := by
  obtain ⟨a₁, hstep₁, hc₁, -, hpt₁⟩ := h.restart (w := { w with threads := m.threads }) hf hidle
    (formed_new f hf _) rfl rfl hfibers hnum
  have hm' : { w with threads := m.threads }.setThread i t = w := by
    simp [FiberMachine.setThread, ← hthreads]
  have hc₂ := hcoh _ a₁ hc₁ rfl
  rw [hm'] at hc₂
  obtain ⟨a', hstep', hc', hk'⟩ := hc₂.goOn (i := i) (q := q) (by simp [hthreads, hcode]) p
  refine ⟨a', ?_, hc', ?_, fun hcbs => ?_⟩
  · simp [Lts.run, Coroutines.lts, hstep₁, hstep']
  · have := (hnum (w.numsCreated + 1) (Nat.lt_succ_self _)).1
    exact Nat.lt_succ_iff.mp this
  · exact (hcbs.give (z := ⟨.init, true, m.givenCb c, ⟨f, .mainFunc⟩, none⟩) rfl hfibers hnext
      hcalled hpt₁).keep hk'

theorem Coherent.step_newFiber (h : Coherent m a) {i : ι} {q : ℕ}
    (hcode : (m.threads i).cpu.point = .code q) (cb : Bool) (pc : ℕ) :
    Follows m a [.restart (.sub (m.numsCreated + 1)) .mainFunc, .move i (.code pc)]
      ((m.newFiber cb).goOn i (.code pc)) := by
  refine h.begins (t := m.threads i) ⟨_, rfl⟩ (h.idle_new _ (by omega)) rfl ?_ rfl rfl
    (by simp [newFiber]) (fun m₁ a₁ h₁ ht => ?_) hcode
  · intro n hn
    simp only [newFiber] at hn
    simp
    omega
  · have hsame : m₁.setThread i (m.threads i) = m₁ := by simp [FiberMachine.setThread, ← ht]
    rwa [hsame]

theorem Coherent.step_reset (h : Coherent m a) {i : ι} {f : FiberPtr ι} {cb : Bool} {q pc : ℕ}
    (hcode : (m.threads i).cpu.point = .code q) (hg : ∀ x ∈ m.fibers f, x.state ≠ .exec)
    (hstep : (m.reset f cb).map (fun m => m.goOn i (.code pc)) = some m') :
    Follows m a [.restart f .mainFunc, .move i (.code pc)] m' := by
  obtain ⟨m₁, hreset, rfl⟩ := Option.map_eq_some_iff.mp hstep
  obtain ⟨x, hx, hreset⟩ := Option.bind_eq_some_iff.mp hreset
  split at hreset
  · rename_i hstack
    obtain rfl := Option.some.inj hreset
    have hf : f.IsSub := (h.fiber f x hx).stack.mp hstack
    refine h.begins (t := m.threads i) hf (h.idle hf hx (hg x hx)) rfl ?_ rfl rfl (by simp)
      (fun m₁ a₁ h₁ ht => ?_) hcode
    · intro n hn
      refine ⟨hn, ?_⟩
      rintro rfl
      rw [h.created n hn] at hx
      cases hx
    · have hsame : m₁.setThread i (m.threads i) = m₁ := by simp [FiberMachine.setThread, ← ht]
      rwa [hsame]
  · cases hreset

theorem stack_of_onRoot {i : ι} {t t' : FiberThread ι} (hroot : t.OnRoot i)
    (hrun : t'.running = t.running) : t'.stack i = t.stack i := by
  rcases hroot with hr | hr <;> simp [FiberThread.stack, hrun, hr]

theorem onRoot_getThis {i : ι} (h : (m.threads i).OnRoot i) :
    ((m.getThis i).threads i).running = some (.root i) := by
  unfold FiberMachine.getThis
  rcases h with hr | hr <;> simp [hr]

theorem useCaller_eq {i : ι} (h : m.useCaller i = some m') :
    m' = ((m.getThis i).newFiber true).setThread i { (m.getThis i).threads i with
      scheduler := true, schedulerFiber := some (.sub ((m.getThis i).numsCreated + 1)) } := by
  simp only [useCaller] at h
  split at h
  · cases h
  · obtain rfl := Option.some.inj h
    simp [newFiber, FiberMachine.setThread, FiberMachine.setFiber, givenCb]

theorem getThis_numsCreated (i : ι) : (m.getThis i).numsCreated = m.numsCreated := by
  unfold FiberMachine.getThis
  split <;> rfl

theorem Coherent.step_useCaller (h : Coherent m a) {i : ι} {q pc : ℕ}
    (hcode : (m.threads i).cpu.point = .code q) (hroot : (m.threads i).OnRoot i)
    (hstep : (m.useCaller i).map (fun m => m.goOn i (.code pc)) = some m') :
    Follows m a [.restart (.sub (m.numsCreated + 1)) .mainFunc, .move i (.code pc)] m' := by
  obtain ⟨m₁, huse, rfl⟩ := Option.map_eq_some_iff.mp hstep
  have h₀ := (h.getThis i).1
  have hrun₀ := onRoot_getThis hroot
  have hcode₀ : ((m.getThis i).threads i).cpu.point = .code q := by rw [getThis_cpu]; exact hcode
  rw [useCaller_eq huse, ← getThis_numsCreated i]
  obtain ⟨a', hacts, hc, hnum, hcbs⟩ := h₀.begins (i := i) (q := q) (p := pc) (c := true)
    (w := ((m.getThis i).newFiber true).setThread i { (m.getThis i).threads i with
      scheduler := true, schedulerFiber := some (.sub ((m.getThis i).numsCreated + 1)) })
    ⟨_, rfl⟩ (h₀.idle_new _ (Nat.lt_succ_self _)) rfl
    (fun n hn => by
      simp only [newFiber, setThread_numsCreated] at hn
      simp
      omega) rfl rfl rfl
    (fun m₁ a₁ h₁ ht => by
      refine h₁.setThread (by simp [ht]) (by simp [ht]) (by simp [ht]) ?_ (by simp [hrun₀])
        fun _ => ⟨_, rfl, nofun⟩
      rw [ht]
      exact stack_of_onRoot (.inr hrun₀) rfl) hcode₀
  exact ⟨a', hacts, hc, getThis_numsCreated (m := m) i ▸ hnum,
    fun hcb => hcbs (hcb.keep (getThis_keeps i))⟩

theorem Coherent.step_run (h : Coherent m a) {i : ι} {caller : Bool} {q : ℕ}
    (hcode : (m.threads i).cpu.point = .code q)
    (hg : if caller then (m.threads i).scheduler = true else (m.threads i).OnRoot i) (pc : ℕ) :
    Follows m a [.move i (.code pc)] ((m.run i caller).goOn i (.code pc)) := by
  cases caller with
  | true =>
      have hsame : m.run i true = m := by
        have hs : (m.threads i).scheduler = true := hg
        simp [FiberMachine.run, FiberMachine.setThread, ← hs]
      rw [hsame]
      exact h.quiet .refl hcode pc
  | false =>
      have hroot : (m.threads i).OnRoot i := hg
      have hrun₀ := onRoot_getThis hroot
      have heq : m.run i false = (m.getThis i).setThread i { (m.getThis i).threads i with
          scheduler := true, schedulerFiber := some (.root i) } := by
        unfold FiberMachine.run FiberMachine.getThis
        rcases hroot with hr | hr <;> simp [hr, FiberMachine.setThread, FiberMachine.setFiber]
      have h₀ := (h.getThis i).1
      rw [heq]
      refine Coherent.quiet (q := q) ?_ ((getThis_keeps i).setThread i _) ?_ pc
      · refine h₀.setThread rfl rfl rfl ?_ (by simp [hrun₀]) fun _ => ⟨_, rfl, by simp⟩
        exact stack_of_onRoot (.inr hrun₀) rfl
      · simp [getThis_cpu, hcode]

theorem Coherent.step_dropScheduler (h : Coherent m a) {i : ι} {q : ℕ}
    (hcode : (m.threads i).cpu.point = .code q) (hroot : (m.threads i).OnRoot i) (pc : ℕ) :
    Follows m a [.move i (.code pc)] ((m.dropScheduler i).goOn i (.code pc)) := by
  refine Coherent.quiet (q := q) ?_ (Keeps.refl.setThread i _) (by simpa using hcode) pc
  refine h.setThread rfl rfl rfl ?_ (fun _ => rfl) nofun
  exact stack_of_onRoot hroot rfl

theorem Coherent.step_free (h : Coherent m a) {i : ι} {n q pc : ℕ}
    (hcode : (m.threads i).cpu.point = .code q)
    (hstep : (m.free n).map (fun m => m.goOn i (.code pc)) = some m') :
    Follows m a [.move i (.code pc)] m' := by
  obtain ⟨m₁, hfree, rfl⟩ := Option.map_eq_some_iff.mp hstep
  obtain ⟨x, hx, hfree⟩ := Option.bind_eq_some_iff.mp hfree
  split at hfree
  · rename_i hs
    obtain rfl := Option.some.inj hfree
    have hidle : a.Idle (.sub n) := h.idle ⟨n, rfl⟩ hx (by rintro he; simp [he] at hs)
    exact Coherent.quiet (q := q) (h.forget hidle) (Keeps.refl.setFiber nofun) hcode pc
  · cases hfree

/-- **Every disciplined call** is what coroutines may do. -/
theorem Coherent.step (h : Coherent m a) {l : ι × FiberCall ι × ℕ} (hg : m.Disciplined l)
    (hstep : lts.step m l = some m') : Follows m a (m.acts l) m' := by
  obtain ⟨i, call, pc⟩ := l
  simp only [lts] at hstep
  cases hp : (m.threads i).cpu.point with
  | mainFunc =>
      rw [hp] at hstep
      cases call with
      | enter => exact h.step_enter hp hstep
      | _ => cases hstep
  | handleFiber f pc' =>
      rw [hp] at hstep
      cases hstep
  | ended =>
      rw [hp] at hstep
      cases hstep
  | code q =>
      rw [hp] at hstep
      cases call with
      | enter => cases hstep
      | getThis =>
          obtain rfl := Option.some.inj hstep
          exact Coherent.quiet (q := q) (h.getThis i).1 (getThis_keeps i)
            (by rw [getThis_cpu]; exact hp) pc
      | newFiber cb =>
          obtain rfl := Option.some.inj hstep
          exact h.step_newFiber hp cb pc
      | reset f cb => exact h.step_reset hp hg hstep
      | free n => exact h.step_free hp hstep
      | resume f => exact h.step_resume hp hg.1 hg.2.1 hg.2.2 hstep
      | yield f => exact h.step_yield hp hg.1 hg.2 hstep
      | schedYield f => exact h.step_schedYield hp hg.1 hg.2.1 hg.2.2.1 hg.2.2.2 hstep
      | yieldToHold => exact h.step_yieldToHold hp hg hstep
      | finish except => exact h.step_finish hp hstep
      | useCaller => exact h.step_useCaller hp hg hstep
      | run caller =>
          obtain rfl := Option.some.inj hstep
          refine h.step_run hp ?_ pc
          cases caller
          · exact hg
          · exact hg
      | handleFiber f => exact h.step_handleFiber hp hg.1 hg.2.1 hg.2.2 hstep
      | dropScheduler =>
          obtain rfl := Option.some.inj hstep
          exact h.step_dropScheduler hp hg pc

end FiberMachine

end Easy.Base
