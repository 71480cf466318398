import Easy.Base.FiberRuns

/-!
What a program that uses fibers with discipline can rely on: its fibers are
coroutines, code that was switched away from goes on where it was and code that
resumed a fiber on its own thread, the ends of `YieldToHold` and `MainFunc` are not
reached twice and do not fail, and no stack is freed while it is in use.
-/

namespace Easy.Base

open Lib

variable {ι : Type*} [DecidableEq ι]

namespace FiberMachine

variable {m m' : FiberMachine ι} {a a' : Coroutines ι (FiberPtr ι) (Point ι)}

/-- The coroutines that a program begins with. -/
def coroutines : Coroutines ι (FiberPtr ι) (Point ι) where
  stack i := [.root i]
  point f := match f with
    | .root _ => .code 0
    | .sub _ => .mainFunc

theorem coherent_start : Coherent (ι := ι) start coroutines where
  valid := Coroutines.valid_of_init (fun _ _ => FiberPtr.root.inj) rfl
  settled := by
    refine ⟨fun i => by simp [coroutines], ?_, ?_⟩
    · intro i l f g gs hl
      have hlen := congrArg List.length hl
      simp only [coroutines, List.length_append, List.length_cons, List.length_nil] at hlen
      omega
    · intro f _
      cases f <;> rfl
  thread i := ⟨by simp [start], by simp [start], fun _ => rfl, by simp [start], by
    simp [start, coroutines, FiberThread.stack], by simp [start, coroutines]⟩
  rooted i h := absurd rfl h
  created _ _ := rfl
  fiber _ _ h := nomatch h
  ctx _ _ h := nomatch h
  exec i n h := by simp [coroutines] at h

omit [DecidableEq ι] in
theorem callbacks_start : Callbacks (ι := ι) start coroutines where
  lt _ _ _ h := nomatch h
  inj _ _ _ _ _ h := nomatch h
  calledLt _ h := nomatch h
  nodup := List.nodup_nil
  uncalled _ _ _ h := nomatch h

/-- Disciplined calls of fibers simulate coroutines. -/
def switching : Simulation (lts (ι := ι)) Disciplined
    (Coroutines.lts (FiberPtr.root (ι := ι)) (π := Point ι)) where
  rel m a := Coherent m a ∧ Callbacks m a
  acts := acts
  init := by
    rintro m rfl
    exact ⟨coroutines, rfl, coherent_start, callbacks_start⟩
  step := by
    rintro m l m' a ⟨h, hcb⟩ hg hstep
    obtain ⟨a', hrun, h', -, hcb'⟩ := h.step hg hstep
    exact ⟨a', hrun, h', hcb' hcb⟩

/-- **Fibers are coroutines.** A disciplined run of all threads is a run of
coroutines, whose stacks and whose points are those of the machine in the end. -/
theorem run_coroutines {l : List (ι × FiberCall ι × ℕ)} (hrun : lts.run start l = some m)
    (hd : lts.Meets Disciplined start l) :
    ∃ a, (Coroutines.lts FiberPtr.root).run coroutines (switching.trace start l) = some a ∧
      Coherent m a := by
  obtain ⟨a, ha, h, -⟩ := switching.run ⟨coherent_start, callbacks_start⟩ hd hrun
  exact ⟨a, ha, h⟩

/-- A fiber that begins on a thread of a pool, and ends on the thread that made the
scheduler. -/
def migration : List (Bool × FiberCall Bool × ℕ) :=
  [(false, .useCaller, 1), (false, .newFiber true, 2), (true, .run false, 3),
    (true, .handleFiber (.sub 2), 4), (true, .enter, 5), (true, .yieldToHold, 6),
    (false, .resume (.sub 1), 7), (false, .enter, 8), (false, .handleFiber (.sub 2), 9),
    (false, .finish false, 10), (false, .finish false, 11)]

/-- The machine after the first calls of `migration`. -/
def migrated (n : ℕ) : FiberMachine Bool := (lts.run start (migration.take n)).getD start

theorem run_coroutines_migration : ∃ m a, lts.run start migration = some m ∧
    (Coroutines.lts FiberPtr.root).run coroutines (switching.trace start migration) = some a ∧
      Coherent m a := by
  obtain ⟨m, hm⟩ := Option.isSome_iff_exists.mp
    (show (lts.run start migration).isSome from by decide)
  obtain ⟨a, ha, h⟩ := run_coroutines hm (by decide)
  exact ⟨m, a, hm, ha, h⟩

/-- The shapes of what a call is for coroutines. Only `reset` makes a fiber start
anew that there was before. -/
inductive Shape (m : FiberMachine ι) (l : ι × FiberCall ι × ℕ) :
    List (Coroutines.Act ι (FiberPtr ι) (Point ι)) → Prop
  | move (p : Point ι) : Shape m l [.move l.1 p]
  | resume (f : FiberPtr ι) (p : Point ι) : Shape m l [.resume l.1 f p]
  | restart (f : FiberPtr ι) (p : Point ι)
      (h : (∃ cb, l.2.1 = .reset f cb) ∨ f = .sub (m.numsCreated + 1)) :
      Shape m l [.restart f .mainFunc, .move l.1 p]
  | leave (here : Point ι) (n : ℕ) (h : (m.threads l.1).running = some (.sub n)) :
      Shape m l [.yield l.1 here, .move l.1 (m.arrival l.1 (.sub n))]

theorem shape_leaving (l : ι × FiberCall ι × ℕ) (here : Point ι) :
    Shape m l (m.leaving l.1 here) := by
  unfold leaving
  split
  · rename_i n hn
    exact .leave here n hn
  · exact .move here

theorem shape_acts (l : ι × FiberCall ι × ℕ) : Shape m l (m.acts l) := by
  obtain ⟨i, call, pc⟩ := l
  cases call with
  | resume f => exact .resume f _
  | handleFiber f => exact .resume f _
  | «yield» f => exact shape_leaving (i, _, pc) _
  | schedYield f => exact shape_leaving (i, _, pc) _
  | yieldToHold => exact shape_leaving (i, _, pc) _
  | finish except => exact shape_leaving (i, _, pc) _
  | enter =>
      simp only [acts]
      split
      · exact .move _
      · exact shape_leaving (i, _, pc) _
  | reset f cb => exact .restart f _ (.inl ⟨cb, rfl⟩)
  | newFiber cb => exact .restart _ _ (.inr rfl)
  | useCaller => exact .restart _ _ (.inr rfl)
  | getThis => exact .move _
  | free n => exact .move _
  | run caller => exact .move _
  | dropScheduler => exact .move _

/-! ### Code that was switched away from -/

theorem step_of_run {x : Coroutines.Act ι (FiberPtr ι) (Point ι)}
    (h : (Coroutines.lts FiberPtr.root).run a [x] = some a') : a.step x = some a' := by
  simpa [Lts.run, Coroutines.lts] using h

theorem steps_of_run {x y : Coroutines.Act ι (FiberPtr ι) (Point ι)}
    (h : (Coroutines.lts FiberPtr.root).run a [x, y] = some a') :
    ∃ a₁, a.step x = some a₁ ∧ a₁.step y = some a' := by
  simpa [Lts.run, Coroutines.lts, Option.bind_eq_some_iff] using h

/-- One call of any thread, seen by a fiber that waits for the one it resumed. -/
theorem Coherent.waits_step (h : Coherent m a) {i : ι} {g : FiberPtr ι} {gs : List (FiberPtr ι)}
    {p : Point ι} (hw : a.Waits i g gs p) {l : ι × FiberCall ι × ℕ} (hg : m.Disciplined l)
    (hstep : lts.step m l = some m') :
    ∃ a', Coherent m' a' ∧
      (a'.Waits i g gs p ∨ a'.stack i = g :: gs ∧ a'.point g = p.settled) := by
  obtain ⟨a', hrun, h', -⟩ := h.step hg hstep
  refine ⟨a', h', ?_⟩
  have hkeep : ∀ {a a' : Coroutines ι (FiberPtr ι) (Point ι)} {x}, a.Valid → a.Waits i g gs p →
      a.step x = some a' → (∀ j q, x ≠ .yield j q) → a'.Waits i g gs p := by
    intro a a' x hv hw hx hne
    rcases hw.step hv hx with hw | ⟨⟨q, hq⟩, -⟩
    · exact hw
    · exact absurd hq (hne i q)
  generalize hacts : m.acts l = acts at hrun
  have hshape := hacts ▸ shape_acts (m := m) l
  cases hshape with
  | move q => exact .inl (hkeep h.valid hw (step_of_run hrun) nofun)
  | resume f q => exact .inl (hkeep h.valid hw (step_of_run hrun) nofun)
  | restart f q hf =>
      obtain ⟨a₁, h₁, h₂⟩ := steps_of_run hrun
      exact .inl (hkeep (h.valid.step h₁) (hkeep h.valid hw h₁ nofun) h₂ nofun)
  | leave here n hn =>
      obtain ⟨a₁, h₁, h₂⟩ := steps_of_run hrun
      rcases hw.step h.valid h₁ with hw₁ | ⟨⟨q, hq⟩, ⟨f, hf⟩, hst, hpt⟩
      · exact .inl (hkeep (h.valid.step h₁) hw₁ h₂ nofun)
      · -- the fiber above yields to `g`
        obtain ⟨rfl, -⟩ := Coroutines.Act.yield.inj hq
        obtain ⟨gs', hgs', -⟩ := h.stack_of_sub ⟨n, rfl⟩ hn
        have hres : (m.threads l.1).resumer l.1 (.sub n) = g := by
          have htail := (List.cons.inj (hgs'.symm.trans hf)).2
          exact (List.cons.inj htail).1
        have harr := h.arrival_eq ⟨n, rfl⟩ hn
        rw [hres, hw.2] at harr
        have ha' : a' = { a₁ with point := Function.update a₁.point g p.settled } := by
          simpa [Coroutines.step, hst, harr, eq_comm] using h₂
        exact .inr (by simp [ha', hst])

/-- The fiber whose stack a thread uses is the one it runs. -/
theorem Coherent.owner_eq_iff (h : Coherent m a) {i : ι} {f : FiberPtr ι} :
    (m.threads i).cpu.owner = f ↔ a.Runs i f := by
  have hruns := h.runs i
  rw [h.cpu hruns]
  constructor
  · rintro rfl
    exact hruns
  · intro hf
    exact Option.some.inj (hruns.symm.trans hf)

/-- A run during which the code of `g` is not executed, seen by `g`, which waits. -/
theorem Coherent.waits_run {i : ι} {g : FiberPtr ι} {gs : List (FiberPtr ι)} {p : Point ι}
    {l : List (ι × FiberCall ι × ℕ)} (h : Coherent m a) (hw : a.Waits i g gs p)
    (hd : lts.Meets Disciplined m l) (hrun : lts.run m l = some m')
    (hwait : lts.Along (fun m => ∀ k, (m.threads k).cpu.owner ≠ g) m l) :
    ∃ a', Coherent m' a' ∧ a'.Waits i g gs p := by
  induction l generalizing m a with
  | nil => exact ⟨a, Option.some.inj hrun ▸ h, hw⟩
  | cons x l ih =>
      obtain ⟨m₁, hstep, hrest⟩ := Option.bind_eq_some_iff.mp hrun
      obtain ⟨hx, hd⟩ := hd m₁ hstep
      have hwait := hwait.2 m₁ hstep
      obtain ⟨a₁, h₁, hw₁ | ⟨htop, -⟩⟩ := h.waits_step hw hx hstep
      · exact ih h₁ hw₁ hd hrest hwait
      · exact absurd (h₁.owner_eq_iff.mpr (by simp [Coroutines.Runs, htop])) (hwait.head i)

/-- **A resume returns.** The code that resumed a fiber goes on where it called
`resume` or `handleFiber`, on the thread it called it on, whatever fibers were
resumed, suspended and moved between threads in the meantime. -/
theorem resume_returns {s s₁ s₂ s₃ : FiberMachine ι} {i j : ι} {f g : FiberPtr ι} {pc : ℕ}
    {call : FiberCall ι} {l : List (ι × FiberCall ι × ℕ)} {x : ι × FiberCall ι × ℕ}
    (hs : lts.Guarded Disciplined s) (hcall : call = .resume f ∨ call = .handleFiber f)
    (hg : (s.threads i).cpu.owner = g) (hd : s.Disciplined (i, call, pc))
    (h₁ : lts.step s (i, call, pc) = some s₁) (hd₁ : lts.Meets Disciplined s₁ l)
    (h₂ : lts.run s₁ l = some s₂)
    (hwait : lts.Along (fun m => ∀ k, (m.threads k).cpu.owner ≠ g) s₁ l)
    (hd₂ : s₂.Disciplined x) (h₃ : lts.step s₂ x = some s₃)
    (hj : (s₃.threads j).cpu.owner = g) :
    j = i ∧ (s₃.threads i).cpu = ⟨g, .code pc⟩ := by
  obtain ⟨a, -, h, -⟩ := switching.exists_rel hs
  obtain ⟨a₁, hacts, hc₁, -⟩ := h.step hd h₁
  have hruns := h.owner_eq_iff.mp hg
  obtain ⟨gs, hgs⟩ := List.head?_eq_some_iff.mp hruns
  obtain ⟨p, hp, hstep⟩ : ∃ p : Point ι, p.settled = .code pc ∧
      a.step (.resume i f p) = some a₁ := by
    rcases hcall with rfl | rfl
    · exact ⟨_, rfl, step_of_run hacts⟩
    · exact ⟨_, rfl, step_of_run hacts⟩
  have hw₁ : a₁.Waits i g gs p := by
    simp only [Coroutines.step, hgs] at hstep
    split at hstep
    · obtain rfl := Option.some.inj hstep
      exact ⟨⟨[f], by simp, by simp⟩, by simp⟩
    · cases hstep
  obtain ⟨a₂, hc₂, hw₂⟩ := hc₁.waits_run hw₁ hd₁ h₂ hwait
  obtain ⟨a₃, hc₃, hw₃ | ⟨htop, hpt⟩⟩ := hc₂.waits_step hw₂ hd₂ h₃
  · exact absurd (hc₃.owner_eq_iff.mp hj) (hw₃.not_runs hc₃.valid j)
  · have htop : a₃.Runs i g := by simp [Coroutines.Runs, htop]
    refine ⟨hc₃.runs_unique (hc₃.owner_eq_iff.mp hj) htop, ?_⟩
    rw [hc₃.cpu htop, hpt, hp]

theorem guarded_migrated : lts.Guarded Disciplined (migrated 6) :=
  @Lts.Guarded.of_run _ _ lts Disciplined start _ (migration.take 6) (.init rfl) (by decide) rfl

theorem resume_returns_migration :
    ((migrated 11).threads false).cpu = ⟨.root false, .code 7⟩ := by
  have hd : (migrated 6).Disciplined (false, .resume (.sub 1), 7) := by decide
  have h₁ : lts.step (migrated 6) (false, .resume (.sub 1), 7) = some (migrated 7) := rfl
  have hd₁ : lts.Meets Disciplined (migrated 7) ((migration.drop 7).take 3) := by decide
  have h₂ : lts.run (migrated 7) ((migration.drop 7).take 3) = some (migrated 10) := rfl
  have hd₂ : (migrated 10).Disciplined (false, .finish false, 11) := by decide
  have h₃ : lts.step (migrated 10) (false, .finish false, 11) = some (migrated 11) := rfl
  have hj : ((migrated 11).threads false).cpu.owner = .root false := by decide
  exact (resume_returns guarded_migrated (.inl rfl) rfl hd h₁ hd₁ h₂ (by decide) hd₂ h₃ hj).2

/-- One call of any thread, seen by a suspended fiber. -/
theorem Coherent.idle_step (h : Coherent m a) {n : ℕ} {p : Point ι} (hidle : a.Idle (.sub n))
    (hp : a.point (.sub n) = p) (hn : n ≤ m.numsCreated) {l : ι × FiberCall ι × ℕ}
    (hg : m.Disciplined l) (hreset : ∀ cb, l.2.1 ≠ .reset (.sub n) cb)
    (hstep : lts.step m l = some m') :
    ∃ a', Coherent m' a' ∧ n ≤ m'.numsCreated ∧ (a'.Idle (.sub n) ∨ ∃ i, a'.Runs i (.sub n)) ∧
      a'.point (.sub n) = p := by
  obtain ⟨a', hrun, h', hnum, -⟩ := h.step hg hstep
  refine ⟨a', h', Nat.le_trans hn hnum, ?_⟩
  have hkeep : ∀ {a a' : Coroutines ι (FiberPtr ι) (Point ι)} {x}, a.Idle (.sub n) →
      a.point (.sub n) = p → a.step x = some a' → (∀ i q, x ≠ .resume i (.sub n) q) →
      (∀ q, x ≠ .restart (.sub n) q) → a'.Idle (.sub n) ∧ a'.point (.sub n) = p := by
    intro a a' x hidle hp hx hresume hrestart
    rcases hidle.step hx with ⟨hidle | ⟨⟨i, q, hq⟩, -⟩, hpt⟩ | ⟨q, hq⟩
    · exact ⟨hidle, hpt.trans hp⟩
    · exact absurd hq (hresume i q)
    · exact absurd hq (hrestart q)
  generalize hacts : m.acts l = acts at hrun
  have hshape := hacts ▸ shape_acts (m := m) l
  cases hshape with
  | move q =>
      obtain ⟨hidle', hp'⟩ := hkeep hidle hp (step_of_run hrun) nofun nofun
      exact ⟨.inl hidle', hp'⟩
  | resume f q =>
      rcases hidle.step (step_of_run hrun) with ⟨hidle' | ⟨-, hruns⟩, hpt⟩ | ⟨q, hq⟩
      · exact ⟨.inl hidle', hpt.trans hp⟩
      · exact ⟨.inr hruns, hpt.trans hp⟩
      · cases hq
  | restart f q hf =>
      obtain ⟨a₁, h₁, h₂⟩ := steps_of_run hrun
      have hne : ∀ q, Coroutines.Act.restart f .mainFunc ≠
          (.restart (.sub n) q : Coroutines.Act ι (FiberPtr ι) (Point ι)) := by
        rintro q hq
        obtain ⟨rfl, -⟩ := Coroutines.Act.restart.inj hq
        rcases hf with ⟨cb, hcb⟩ | hf
        · exact hreset cb hcb
        · have := FiberPtr.sub.inj hf
          omega
      obtain ⟨hidle₁, hp₁⟩ := hkeep hidle hp h₁ nofun hne
      obtain ⟨hidle', hp'⟩ := hkeep hidle₁ hp₁ h₂ nofun nofun
      exact ⟨.inl hidle', hp'⟩
  | leave here k hk =>
      obtain ⟨a₁, h₁, h₂⟩ := steps_of_run hrun
      obtain ⟨hidle₁, hp₁⟩ := hkeep hidle hp h₁ nofun nofun
      obtain ⟨hidle', hp'⟩ := hkeep hidle₁ hp₁ h₂ nofun nofun
      exact ⟨.inl hidle', hp'⟩

theorem Coherent.idle_run {n : ℕ} {p : Point ι} {l : List (ι × FiberCall ι × ℕ)}
    (h : Coherent m a) (hidle : a.Idle (.sub n)) (hp : a.point (.sub n) = p)
    (hn : n ≤ m.numsCreated) (hd : lts.Meets Disciplined m l)
    (hreset : ∀ x ∈ l, ∀ cb, x.2.1 ≠ .reset (.sub n) cb) (hrun : lts.run m l = some m')
    (hwait : lts.Along (fun m => ∀ k, (m.threads k).cpu.owner ≠ .sub n) m l) :
    ∃ a', Coherent m' a' ∧ a'.Idle (.sub n) ∧ a'.point (.sub n) = p ∧ n ≤ m'.numsCreated := by
  induction l generalizing m a with
  | nil => exact ⟨a, Option.some.inj hrun ▸ h, hidle, hp, Option.some.inj hrun ▸ hn⟩
  | cons x l ih =>
      obtain ⟨m₁, hstep, hrest⟩ := Option.bind_eq_some_iff.mp hrun
      obtain ⟨hx, hd⟩ := hd m₁ hstep
      have hwait := hwait.2 m₁ hstep
      obtain ⟨hreset₀, hreset⟩ := List.forall_mem_cons.mp hreset
      obtain ⟨a₁, h₁, hn₁, hidle₁ | ⟨i, hi⟩, hp₁⟩ := h.idle_step hidle hp hn hx hreset₀ hstep
      · exact ih h₁ hidle₁ hp₁ hn₁ hd hreset hrest hwait
      · exact absurd (h₁.owner_eq_iff.mpr hi) (hwait.head i)

theorem Coherent.running_eq (h : Coherent m a) {i : ι} {n : ℕ} (hruns : a.Runs i (.sub n)) :
    (m.threads i).running = some (.sub n) := by
  have heq := h.eq_of_runs hruns
  cases hr : (m.threads i).running with
  | none => simp [hr] at heq
  | some f => simpa [hr] using heq

/-- The calls by which a fiber lets others run. -/
def Yields (call : FiberCall ι) (f : FiberPtr ι) : Prop :=
  call = .yieldToHold ∨ call = .yield f ∨ call = .schedYield f

/-- **A yield goes on.** The code of a fiber that yielded goes on right behind its
call, on whichever thread the fiber is resumed next, unless it is reset. -/
theorem yield_goes_on {s s₁ s₂ s₃ : FiberMachine ι} {i j : ι} {n pc : ℕ}
    {call : FiberCall ι} {l : List (ι × FiberCall ι × ℕ)} {x : ι × FiberCall ι × ℕ}
    (hs : lts.Guarded Disciplined s) (hcall : Yields call (.sub n))
    (hg : (s.threads i).cpu.owner = .sub n) (hd : s.Disciplined (i, call, pc))
    (h₁ : lts.step s (i, call, pc) = some s₁) (hd₁ : lts.Meets Disciplined s₁ l)
    (h₂ : lts.run s₁ l = some s₂)
    (hwait : lts.Along (fun m => ∀ k, (m.threads k).cpu.owner ≠ .sub n) s₁ l)
    (hd₂ : s₂.Disciplined x) (h₃ : lts.step s₂ x = some s₃)
    (hreset : ∀ y ∈ l ++ [x], ∀ cb, y.2.1 ≠ .reset (.sub n) cb)
    (hj : (s₃.threads j).cpu.owner = .sub n) :
    (s₃.threads j).cpu = ⟨.sub n, .code pc⟩ := by
  obtain ⟨a, -, h, -⟩ := switching.exists_rel hs
  obtain ⟨a₁, hacts, hc₁, hnum, -⟩ := h.step hd h₁
  have hruns := h.owner_eq_iff.mp hg
  have hrun := h.running_eq hruns
  have hn : n ≤ s.numsCreated := by
    by_contra hlt
    obtain ⟨x, hx, -⟩ := h.exec i n (List.mem_of_mem_head? hruns)
    simp [h.created n (by omega)] at hx
  have hleaving : s.acts (i, call, pc) = [.yield i (.code pc), .move i (s.arrival i (.sub n))] := by
    rcases hcall with rfl | rfl | rfl <;> simp [acts, leaving, hrun]
  rw [hleaving] at hacts
  obtain ⟨a', ha', hmove⟩ := steps_of_run hacts
  obtain ⟨g, gs, hgs⟩ : ∃ g gs, a.stack i = .sub n :: g :: gs := by
    obtain ⟨gs, hgs, -⟩ := h.stack_of_sub ⟨n, rfl⟩ hrun
    exact ⟨_, gs, hgs⟩
  have hidle' : a'.Idle (.sub n) ∧ a'.point (.sub n) = .code pc := by
    have hnodup := hgs ▸ h.valid.nodup i
    simp only [Coroutines.step, hgs, Option.some.injEq] at ha'
    subst ha'
    refine ⟨fun k hk => ?_, by simp⟩
    by_cases hki : k = i
    · subst hki
      exact (List.nodup_cons.mp hnodup).1 (by simpa using hk)
    · exact hki (h.valid.disjoint k i (.sub n) (by simpa [hki] using hk) (by simp [hgs]))
  have hidle₁ : a₁.Idle (.sub n) ∧ a₁.point (.sub n) = .code pc := by
    rcases hidle'.1.step hmove with ⟨hidle | ⟨⟨k, q, hq⟩, -⟩, hpt⟩ | ⟨q, hq⟩
    · exact ⟨hidle, hpt.trans hidle'.2⟩
    · cases hq
    · cases hq
  obtain ⟨a₂, hc₂, hidle₂, hp₂, hn₂⟩ := hc₁.idle_run hidle₁.1 hidle₁.2 (Nat.le_trans hn hnum) hd₁
    (fun y hy => hreset y (List.mem_append_left _ hy)) h₂ hwait
  obtain ⟨a₃, hc₃, -, -, hp₃⟩ := hc₂.idle_step hidle₂ hp₂ hn₂ hd₂ (hreset x (by simp)) h₃
  rw [hc₃.cpu (hc₃.owner_eq_iff.mp hj), hp₃]

theorem guarded_migrated_five : lts.Guarded Disciplined (migrated 5) :=
  @Lts.Guarded.of_run _ _ lts Disciplined start _ (migration.take 5) (.init rfl) (by decide) rfl

/-- The fiber yielded on the other thread. -/
theorem yield_goes_on_migration : ((migrated 9).threads false).cpu = ⟨.sub 2, .code 6⟩ := by
  have hd : (migrated 5).Disciplined (true, .yieldToHold, 6) := by decide
  have h₁ : lts.step (migrated 5) (true, .yieldToHold, 6) = some (migrated 6) := rfl
  have hd₁ : lts.Meets Disciplined (migrated 6) ((migration.drop 6).take 2) := by decide
  have h₂ : lts.run (migrated 6) ((migration.drop 6).take 2) = some (migrated 8) := rfl
  have hd₂ : (migrated 8).Disciplined (false, .handleFiber (.sub 2), 9) := by decide
  have h₃ : lts.step (migrated 8) (false, .handleFiber (.sub 2), 9) = some (migrated 9) := rfl
  have hreset : ∀ y ∈ (migration.drop 6).take 2 ++ [(false, .handleFiber (.sub 2), 9)],
      ∀ cb, y.2.1 ≠ .reset (.sub 2) cb := by decide
  have hj : ((migrated 9).threads false).cpu.owner = .sub 2 := by decide
  exact yield_goes_on guarded_migrated_five (.inl rfl) rfl hd h₁ hd₁ h₂ (by decide) hd₂ h₃ hreset hj

/-! ### What does not go wrong -/

/-- **Each callback is called once**, and no thread goes on behind the last switch
of `MainFunc`. -/
theorem mainFunc_once {s : FiberMachine ι} (hs : lts.Guarded Disciplined s) :
    s.called.Nodup ∧ ∀ i, (s.threads i).cpu.point ≠ .ended := by
  obtain ⟨a, -, h, hcb⟩ := switching.exists_rel hs
  refine ⟨hcb.nodup, fun i hended => ?_⟩
  have hruns := h.runs i
  generalize (s.threads i).running.getD (.root i) = f at hruns
  rw [h.cpu hruns] at hended
  have hended : a.point f = .ended := hended
  cases f with
  | root j => exact (h.settled.root j).2 hended
  | sub n =>
      -- a fiber that runs is in the state `EXEC`, one that has ended is not
      obtain ⟨x, hx, hexec⟩ := h.exec i n (List.mem_of_mem_head? hruns)
      rcases (h.fiber _ x hx).ended hended with he | he <;> simp [hexec] at he

theorem settle_isSome {f : FiberPtr ι} {x : Fiber ι} (hx : m.fibers f = some x) :
    (m.settle f).isSome := by
  cases hs : x.state <;> simp [FiberMachine.settle, hx, hs, store]

theorem mainFunc_once_migration : (migrated 6).called.Nodup ∧
    ∀ i, ((migrated 6).threads i).cpu.point ≠ .ended := mainFunc_once guarded_migrated

theorem Coherent.switch_isSome (h : Coherent m a) {i : ι} {f : FiberPtr ι} (hf : f.IsSub)
    (hrun : (m.threads i).running = some f) (x₁ : Fiber ι) (here : Point ι) :
    (((m.setFiber f (some x₁)).setThis i ((m.threads i).resumer i f)).swapcontext i f
      ((m.threads i).resumer i f) here).isSome := by
  obtain ⟨gs, hgs, -⟩ := h.stack_of_sub hf hrun
  obtain ⟨y, hy, hctx⟩ := h.resumer_waits hf hrun
  have hne := h.resumer_ne hf hrun
  generalize (m.threads i).resumer i f = g at *
  rw [swapcontext_of (x := x₁) (by simp [setThis]) hne (by simpa [setThis, hne] using hy)]
  unfold land
  split
  · rename_i f' pc hp
    have hp : a.point g = .handleFiber f' pc := by simpa [hctx] using hp
    obtain rfl : f' = f := h.settled.waits i [] f g gs hgs f' pc hp
    rw [Option.isSome_map]
    exact settle_isSome (by simp; rfl)
  · rfl

theorem Coherent.leave_isSome (h : Coherent m a) {i : ι} {f : FiberPtr ι} (hf : f.IsSub)
    (hrun : (m.threads i).running = some f) (x₁ : Fiber ι) (here : Point ι) :
    ((m.setFiber f (some x₁)).leave i f here).isSome := by
  have hsw := h.switch_isSome hf hrun x₁ here
  unfold FiberMachine.leave
  simp only [setFiber_threads, hrun]
  split
  · rename_i hs
    obtain ⟨g, hg, -⟩ := (h.thread i).sched hs.1
    have hres : (m.threads i).resumer i f = g := by
      simp [FiberThread.resumer, hs.1, hg ▸ hs.2, hg]
    simpa [schedYield, hg, hres] using hsw
  · rename_i hs
    have hres : (m.threads i).resumer i f = .root i := by simp [FiberThread.resumer, hs]
    have hroot : (m.threads i).root = true := (h.thread i).root.mpr (by simp [hrun])
    simpa [FiberMachine.yield, hroot, hres] using hsw

/-- **`YieldToHold` and the end of `MainFunc` do not fail.** In a fiber, no
assertion of theirs fails and no null pointer is followed. -/
theorem fiber_leaves {s : FiberMachine ι} (hs : lts.Guarded Disciplined s) {i : ι} {n pc : ℕ}
    (hg : (s.threads i).cpu.owner = .sub n) (hcode : (s.threads i).cpu.point = .code pc)
    (here : Point ι) (except : Bool) :
    (s.yieldToHold i here).isSome ∧ (s.finish i except).isSome := by
  obtain ⟨a, -, h, -⟩ := switching.exists_rel hs
  have hruns := h.owner_eq_iff.mp hg
  have hrun := h.running_eq hruns
  obtain ⟨x, hx, -⟩ := h.exec i n (List.mem_of_mem_head? hruns)
  constructor
  · have hthis : s.getThis i = s := by simp [getThis, hrun]
    simpa [yieldToHold, hthis, hrun, store, hx] using
      h.leave_isSome ⟨n, rfl⟩ hrun { x with state := .hold } here
  · have hcur : x.cur = some (.sub n) := by
      simpa [h.code hruns hcode] using (h.fiber _ x hx).cur ⟨n, rfl⟩
    simpa [finish, hg, hx, hcur] using h.leave_isSome ⟨n, rfl⟩ hrun _ .ended

theorem fiber_leaves_migration :
    ((migrated 5).yieldToHold true (.code 6)).isSome ∧ ((migrated 5).finish true true).isSome :=
  fiber_leaves guarded_migrated_five (n := 2) (i := true) (by decide) rfl (.code 6) true

/-- **No stack in use is freed.** Where the destructor's assertion holds, no thread
executes on the stack of the fiber, and no other context that may be loaded
is on it. -/
theorem free_unused {s s' : FiberMachine ι} (hs : lts.Guarded Disciplined s) {i : ι} {n pc : ℕ}
    (hfree : lts.step s (i, .free n, pc) = some s') :
    (∀ j, (s.threads j).cpu.owner ≠ .sub n) ∧
      ∀ f x, s'.fibers f = some x → (∀ j, (s.threads j).cpu.owner ≠ f) → x.ctx.owner ≠ .sub n := by
  obtain ⟨a, -, h, -⟩ := switching.exists_rel hs
  obtain ⟨m₁, hm₁, rfl⟩ : ∃ m₁, s.free n = some m₁ ∧ m₁.goOn i (.code pc) = s' := by
    simp only [lts] at hfree
    cases hp : (s.threads i).cpu.point <;> rw [hp] at hfree
    case code => exact Option.map_eq_some_iff.mp hfree
    all_goals cases hfree
  obtain ⟨y, hy, hm₁⟩ := Option.bind_eq_some_iff.mp hm₁
  split at hm₁
  · rename_i hstate
    obtain rfl := Option.some.inj hm₁
    have hidle : a.Idle (.sub n) := h.idle ⟨n, rfl⟩ hy (by rintro he; simp [he] at hstate)
    refine ⟨fun j hj => ?_, fun f x hx hf howner => ?_⟩
    · exact hidle j (List.mem_of_mem_head? (h.owner_eq_iff.mp hj))
    · have hfn : f ≠ .sub n := by
        rintro rfl
        simp [FiberMachine.goOn] at hx
      have hctx := h.ctx f x (by simpa [FiberMachine.goOn, hfn] using hx)
        fun j hj => hf j (h.owner_eq_iff.mpr hj)
      rw [hctx] at howner
      exact hfn howner
  · cases hm₁

theorem free_unused_migration : ((migrated 2).threads true).cpu.owner ≠ .sub 2 := by
  have hs : lts.Guarded Disciplined (migrated 2) :=
    @Lts.Guarded.of_run _ _ lts Disciplined start _ (migration.take 2) (.init rfl) (by decide) rfl
  have hfree : (lts.step (migrated 2) (false, .free 2, 3)).isSome := by decide
  exact (free_unused hs (Option.some_get hfree).symm).1 true

end FiberMachine

end Easy.Base
