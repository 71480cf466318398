import Easy.Lib.Threads
import Mathlib.Data.Nat.Notation

/-!
`getLogger` and `log` on several threads (`easy/base/Logger.cc`).

The lock sections of the manager and of the loggers are the steps. `getLogger` looks for a name
under the read lock, and again under the write lock before it makes a logger. A `log` that finds
no appenders is passed on to `root_`, which the manager sets when it makes a logger, and not for
its root.
-/

namespace Easy.Base

open Lib

variable {ι : Type}

/-- What is used of a `Logger`. Appenders and loggers are pointed to by numbers. -/
structure LoggerObj where
  name : String
  appenders : List ℕ
  root : Option ℕ
  deriving DecidableEq, Repr

/-- `LoggerManager`, and the loggers that have been made. -/
structure LoggerTable where
  objs : List LoggerObj
  loggers : String → Option ℕ
  root : ℕ

namespace LoggerTable

/-- `LoggerManager()`. The appender is a `ConsoleLogAppender`. -/
def make : LoggerTable where
  objs := [⟨"root", [0], none⟩]
  loggers := Function.update (fun _ => none) "root" (some 0)
  root := 0

/-- The section of `getLogger` under the write lock. -/
def insert (t : LoggerTable) (name : String) : ℕ × LoggerTable :=
  match t.loggers name with
  | some p => (p, t)
  | none => (t.objs.length, { t with
      objs := t.objs ++ [⟨name, [], some t.root⟩]
      loggers := Function.update t.loggers name (some t.objs.length) })

/-- `addAppender`, `deleteAppender` and `clearAppender` change the list of a logger. -/
def modifyAppenders (t : LoggerTable) (p : ℕ) (f : List ℕ → List ℕ) : LoggerTable :=
  { t with objs := t.objs.modify p fun l => { l with appenders := f l.appenders } }

def addAppender (t : LoggerTable) (p : ℕ) (appender : ℕ) : LoggerTable :=
  t.modifyAppenders p (· ++ [appender])

def deleteAppender (t : LoggerTable) (p : ℕ) (appender : ℕ) : LoggerTable :=
  t.modifyAppenders p (·.erase appender)

def clearAppender (t : LoggerTable) (p : ℕ) : LoggerTable :=
  t.modifyAppenders p fun _ => []

/-- The section of `log` under the lock of a logger: the appenders that get the record, and the
logger that it is passed on to. -/
def logSection (t : LoggerTable) (p : ℕ) : List ℕ × Option ℕ :=
  match t.objs[p]? with
  | none => ([], none)
  | some l => if l.appenders ≠ [] then (l.appenders, none) else ([], l.root)

/-- `Logger::log`: the appenders that get the record. It is `none` where the fuel does not do. -/
def log : ℕ → LoggerTable → ℕ → Option (List ℕ)
  | 0, _, _ => none
  | fuel + 1, t, p =>
    match t.logSection p with
    | (appenders, none) => some appenders
    | (_, some root) => log fuel t root

end LoggerTable

/-- The table, and what calls of `getLogger` have returned for which names. -/
structure LoggerRun where
  table : LoggerTable
  returned : List (String × ℕ)

/-- Where a thread is: not in a call, in front of one of the locks in `getLogger`, or in a `log`
in front of the lock of a logger, with the number of sections behind it. -/
inductive LoggerPc
  | idle
  | called (name : String)
  | missed (name : String)
  | logging (p : ℕ) (sections : ℕ)
  deriving DecidableEq, Repr

/-- What a thread does next. -/
inductive LoggerAct
  | getLogger (name : String)
  | find
  | insert
  | addAppender (p : ℕ) (appender : ℕ)
  | deleteAppender (p : ℕ) (appender : ℕ)
  | clearAppender (p : ℕ)
  | log (p : ℕ)
  | logSection
  deriving DecidableEq, Repr

namespace LoggerRun

/-- `LoggerManager()` has run. -/
def start : LoggerRun := ⟨.make, []⟩

/-- `getLogger` returns. -/
def record (g : LoggerRun) (name : String) (p : ℕ) : LoggerRun :=
  { g with returned := g.returned ++ [(name, p)] }

/-- The calls of any threads. Pointers come from `getLogger`. -/
def calls (ι : Type) : Threads ι LoggerRun LoggerPc LoggerAct where
  init g pc := g = start ∧ pc = fun _ => .idle
  act _ g pc a := match pc, a with
    | .idle, .getLogger name => some (g, .called name)
    | .called name, .find =>
      match g.table.loggers name with
      | some p => some (g.record name p, .idle)
      | none => some (g, .missed name)
    | .missed name, .insert =>
      let (p, table) := g.table.insert name
      some (record { g with table := table } name p, .idle)
    | .idle, .addAppender p appender =>
      some ({ g with table := g.table.addAppender p appender }, .idle)
    | .idle, .deleteAppender p appender =>
      some ({ g with table := g.table.deleteAppender p appender }, .idle)
    | .idle, .clearAppender p => some ({ g with table := g.table.clearAppender p }, .idle)
    | .idle, .log p => some (g, .logging p 0)
    | .logging p sections, .logSection =>
      match g.table.logSection p with
      | (_, none) => some (g, .idle)
      | (_, some root) => some (g, .logging root (sections + 1))
    | _, _ => none

end LoggerRun

/-! ### What a section does to the table -/

namespace LoggerTable

variable {t t' t'' : LoggerTable} {name : String} {p : ℕ}

/-- No entry of the map is lost or replaced, and the loggers keep their name and their `root_`. -/
structure Extends (t t' : LoggerTable) : Prop where
  root : t'.root = t.root
  loggers : ∀ name p, t.loggers name = some p → t'.loggers name = some p
  objs : ∀ (p : ℕ) l, t.objs[p]? = some l →
    ∃ l', t'.objs[p]? = some l' ∧ l'.name = l.name ∧ l'.root = l.root

theorem Extends.refl (t : LoggerTable) : Extends t t where
  root := rfl
  loggers _ _ h := h
  objs _ l h := ⟨l, h, rfl, rfl⟩

theorem Extends.trans (h : Extends t t') (h' : Extends t' t'') : Extends t t'' where
  root := h'.root.trans h.root
  loggers name p hp := h'.loggers name p (h.loggers name p hp)
  objs p l hl := by
    obtain ⟨l₁, hl₁, hname₁, hroot₁⟩ := h.objs p l hl
    obtain ⟨l₂, hl₂, hname₂, hroot₂⟩ := h'.objs p l₁ hl₁
    exact ⟨l₂, hl₂, hname₂.trans hname₁, hroot₂.trans hroot₁⟩

/-- The map has exactly the loggers, each under its name, the root under "root", and what the
loggers have for `root_` is the root, which has none. -/
structure Rooted (t : LoggerTable) : Prop where
  named : ∀ name p, t.loggers name = some p → ∃ l, t.objs[p]? = some l ∧ l.name = name
  listed : ∀ (p : ℕ) l, t.objs[p]? = some l → t.loggers l.name = some p
  top : t.loggers "root" = some t.root
  bare : ∀ l, t.objs[t.root]? = some l → l.root = none
  chain : ∀ (p : ℕ) l, t.objs[p]? = some l → ∀ r ∈ l.root, r = t.root

theorem rooted_make : make.Rooted where
  named name p h := by
    by_cases hname : name = "root"
    · subst hname
      obtain rfl := Option.some.inj h
      exact ⟨_, rfl, rfl⟩
    · have hother : make.loggers name = none := by simp [make, hname]
      rw [hother] at h
      cases h
  listed p l hl := by
    obtain ⟨hlt, rfl⟩ := List.getElem?_eq_some_iff.mp hl
    obtain rfl := Nat.lt_one_iff.mp hlt
    rfl
  top := rfl
  bare l hl := by
    obtain rfl := Option.some.inj hl
    rfl
  chain p l hl r hr := by
    obtain ⟨hlt, rfl⟩ := List.getElem?_eq_some_iff.mp hl
    obtain rfl := Nat.lt_one_iff.mp hlt
    cases hr

/-- The root is one of the loggers. -/
theorem Rooted.exists_root (h : t.Rooted) : ∃ l, t.objs[t.root]? = some l ∧ l.root = none := by
  obtain ⟨l, hl, -⟩ := h.named "root" t.root h.top
  exact ⟨l, hl, h.bare l hl⟩

theorem extends_modifyAppenders (p : ℕ) (f : List ℕ → List ℕ) :
    Extends t (t.modifyAppenders p f) where
  root := rfl
  loggers _ _ h := h
  objs q l hl := by
    rw [modifyAppenders, List.getElem?_modify, hl]
    refine ⟨_, rfl, ?_⟩
    split <;> exact ⟨rfl, rfl⟩

/-- The loggers of a table with a list changed. -/
theorem exists_of_modifyAppenders {q : ℕ} {f : List ℕ → List ℕ} {l : LoggerObj}
    (h : (t.modifyAppenders p f).objs[q]? = some l) :
    ∃ l₀, t.objs[q]? = some l₀ ∧ l.name = l₀.name ∧ l.root = l₀.root := by
  rw [modifyAppenders, List.getElem?_modify] at h
  obtain ⟨l₀, hl₀, rfl⟩ := Option.map_eq_some_iff.mp h
  refine ⟨l₀, hl₀, ?_⟩
  split <;> exact ⟨rfl, rfl⟩

theorem Rooted.modifyAppenders (h : t.Rooted) (p : ℕ) (f : List ℕ → List ℕ) :
    (t.modifyAppenders p f).Rooted where
  named name q hq := by
    obtain ⟨l, hl, hname⟩ := h.named name q hq
    obtain ⟨l', hl', hname', -⟩ := (extends_modifyAppenders p f).objs q l hl
    exact ⟨l', hl', hname'.trans hname⟩
  listed q l hl := by
    obtain ⟨l₀, hl₀, hname, -⟩ := exists_of_modifyAppenders hl
    exact hname ▸ h.listed q l₀ hl₀
  top := h.top
  bare l hl := by
    obtain ⟨l₀, hl₀, -, hroot⟩ := exists_of_modifyAppenders hl
    exact hroot.trans (h.bare l₀ hl₀)
  chain q l hl r hr := by
    obtain ⟨l₀, hl₀, -, hroot⟩ := exists_of_modifyAppenders hl
    exact h.chain q l₀ hl₀ r (hroot ▸ hr)

theorem insert_of_some (hp : t.loggers name = some p) : t.insert name = (p, t) := by
  rw [insert, hp]

theorem insert_of_none (hnone : t.loggers name = none) : t.insert name = (t.objs.length, { t with
    objs := t.objs ++ [⟨name, [], some t.root⟩]
    loggers := Function.update t.loggers name (some t.objs.length) }) := by
  rw [insert, hnone]

/-- **The section under the write lock** returns the logger that the map has for the name from
then on. -/
theorem loggers_insert (t : LoggerTable) (name : String) :
    (t.insert name).2.loggers name = some (t.insert name).1 := by
  cases hp : t.loggers name with
  | some p => rw [insert_of_some hp, hp]
  | none =>
      rw [insert_of_none hp]
      exact Function.update_self ..

theorem getElem?_insert {l : LoggerObj} (hl : t.objs[p]? = some l) (name : String) :
    (t.insert name).2.objs[p]? = some l := by
  cases hp : t.loggers name with
  | some q => rwa [insert_of_some hp]
  | none =>
      rw [insert_of_none hp, List.getElem?_append_left (List.getElem?_eq_some_iff.mp hl).1, hl]

theorem extends_insert (t : LoggerTable) (name : String) : Extends t (t.insert name).2 := by
  refine ⟨?_, fun name' p hp => ?_, fun p l hl => ⟨l, getElem?_insert hl name, rfl, rfl⟩⟩
  · cases hp : t.loggers name with
    | some p => rw [insert_of_some hp]
    | none => rw [insert_of_none hp]
  · cases hq : t.loggers name with
    | some q => rwa [insert_of_some hq]
    | none =>
        have hne : name' ≠ name := by
          rintro rfl
          rw [hq] at hp
          cases hp
        rw [insert_of_none hq]
        exact (Function.update_of_ne hne _ _).trans hp

/-- A logger that is there now was there before, or is the new one. -/
theorem exists_of_insert {l : LoggerObj} (hl : (t.insert name).2.objs[p]? = some l) :
    t.objs[p]? = some l ∨ l = ⟨name, [], some t.root⟩ ∧ p = (t.insert name).1 := by
  cases hp : t.loggers name with
  | some q =>
      rw [insert_of_some hp] at hl
      exact .inl hl
  | none =>
      rw [insert_of_none hp, List.getElem?_append] at hl
      split at hl
      case isTrue => exact .inl hl
      case isFalse hge =>
        have hlast : p - t.objs.length < 1 := (List.getElem?_eq_some_iff.mp hl).1
        refine .inr ⟨List.mem_singleton.mp (List.mem_of_getElem? hl), ?_⟩
        rw [insert_of_none hp]
        dsimp only
        omega

theorem Rooted.insert (h : t.Rooted) (name : String) : (t.insert name).2.Rooted where
  named name' p hp := by
    cases hq : t.loggers name with
    | some q =>
        rw [insert_of_some hq] at hp ⊢
        exact h.named name' p hp
    | none =>
        rw [insert_of_none hq] at hp ⊢
        dsimp only at hp ⊢
        rw [Function.update_apply] at hp
        split at hp
        case isTrue heq =>
          obtain rfl := Option.some.inj hp
          exact ⟨⟨name, [], some t.root⟩, by simp, heq.symm⟩
        case isFalse =>
          obtain ⟨l, hl, hname⟩ := h.named name' p hp
          have hlt := (List.getElem?_eq_some_iff.mp hl).1
          exact ⟨l, by rw [List.getElem?_append_left hlt, hl], hname⟩
  listed p l hl := by
    rcases exists_of_insert hl with hl | ⟨rfl, rfl⟩
    · exact (extends_insert t name).loggers _ _ (h.listed p l hl)
    · exact loggers_insert t name
  top := by
    rw [(extends_insert t name).root]
    exact (extends_insert t name).loggers _ _ h.top
  bare l hl := by
    obtain ⟨lr, hlr, hbare⟩ := h.exists_root
    rw [(extends_insert t name).root, getElem?_insert hlr] at hl
    exact Option.some.inj hl ▸ hbare
  chain p l hl r hr := by
    rw [(extends_insert t name).root]
    rcases exists_of_insert hl with hl | ⟨rfl, -⟩
    · exact h.chain p l hl r hr
    · exact (Option.some.inj hr).symm

/-- What a record is passed on to has no `root_`. -/
theorem Rooted.logSection (h : t.Rooted) {p root : ℕ} {appenders : List ℕ}
    (hp : t.logSection p = (appenders, some root)) :
    root = t.root ∧ ∃ l, t.objs[root]? = some l ∧ l.root = none := by
  unfold LoggerTable.logSection at hp
  split at hp
  case h_1 => cases hp
  case h_2 l hl =>
    split at hp
    · cases hp
    · have hroot : root = t.root := h.chain p l hl root (Prod.mk.inj hp).2
      exact ⟨hroot, hroot ▸ h.exists_root⟩

/-- A logger without a `root_` passes nothing on. -/
theorem logSection_of_bare {l : LoggerObj} (hl : t.objs[p]? = some l) (hbare : l.root = none) :
    (t.logSection p).2 = none := by
  unfold LoggerTable.logSection
  rw [hl]
  dsimp only
  split
  · rfl
  · exact hbare

/-- **`log` terminates**, behind at most two loggers. -/
theorem Rooted.log_isSome (h : t.Rooted) (p : ℕ) {fuel : ℕ} (hfuel : 2 ≤ fuel) :
    (log fuel t p).isSome := by
  obtain ⟨fuel, rfl⟩ := Nat.exists_eq_add_of_le' hfuel
  rw [log]
  split
  case h_1 => rfl
  case h_2 root hp =>
    obtain ⟨-, l, hl, hbare⟩ := h.logSection hp
    have hend := logSection_of_bare hl hbare
    rw [log]
    split
    case h_1 => rfl
    case h_2 root' hp' =>
      rw [hp'] at hend
      cases hend

end LoggerTable

/-! ### Runs -/

namespace LoggerRun

open LoggerTable

/-- The calls have returned the loggers that the map has for the names. -/
structure Consistent (g : LoggerRun) : Prop where
  rooted : g.table.Rooted
  returned : ∀ name p, (name, p) ∈ g.returned → g.table.loggers name = some p

variable {g g' : LoggerRun} {pc pc' : LoggerPc} {a : LoggerAct} {i : ι}

theorem consistent_start : start.Consistent := ⟨rooted_make, nofun⟩

theorem Consistent.record (h : g.Consistent) {name : String} {p : ℕ}
    (hp : g.table.loggers name = some p) : (g.record name p).Consistent where
  rooted := h.rooted
  returned name' p' hmem := by
    rcases List.mem_append.mp hmem with hmem | hmem
    · exact h.returned name' p' hmem
    · obtain ⟨rfl, rfl⟩ := Prod.mk.inj (List.mem_singleton.mp hmem)
      exact hp

/-- Another table that has the entries. -/
theorem Consistent.extend (h : g.Consistent) {t : LoggerTable} (ht : Extends g.table t)
    (hrooted : t.Rooted) : Consistent { g with table := t } where
  rooted := hrooted
  returned name p hmem := ht.loggers name p (h.returned name p hmem)

theorem Consistent.modifyAppenders (h : g.Consistent) (p : ℕ) (f : List ℕ → List ℕ) :
    Extends g.table (g.table.modifyAppenders p f) ∧
      Consistent { g with table := g.table.modifyAppenders p f } :=
  ⟨extends_modifyAppenders p f,
    h.extend (extends_modifyAppenders p f) (h.rooted.modifyAppenders p f)⟩

/-- **One section** of a thread loses no entry of the table. -/
theorem act_spec (hact : (calls ι).act i g pc a = some (g', pc')) (h : g.Consistent) :
    Extends g.table g'.table ∧ g'.Consistent := by
  simp only [calls] at hact
  split at hact
  case h_1 name =>
    obtain ⟨rfl, rfl⟩ := Prod.mk.inj (Option.some.inj hact)
    exact ⟨.refl _, h⟩
  case h_2 name =>
    split at hact
    case h_1 p hp =>
      obtain ⟨rfl, rfl⟩ := Prod.mk.inj (Option.some.inj hact)
      exact ⟨.refl _, h.record hp⟩
    case h_2 =>
      obtain ⟨rfl, rfl⟩ := Prod.mk.inj (Option.some.inj hact)
      exact ⟨.refl _, h⟩
  case h_3 name =>
    obtain ⟨rfl, rfl⟩ := Prod.mk.inj (Option.some.inj hact)
    exact ⟨extends_insert _ name, (h.extend (extends_insert _ name) (h.rooted.insert name)).record
      (loggers_insert _ name)⟩
  case h_4 p appender =>
    obtain ⟨rfl, rfl⟩ := Prod.mk.inj (Option.some.inj hact)
    exact h.modifyAppenders p (· ++ [appender])
  case h_5 p appender =>
    obtain ⟨rfl, rfl⟩ := Prod.mk.inj (Option.some.inj hact)
    exact h.modifyAppenders p (·.erase appender)
  case h_6 p =>
    obtain ⟨rfl, rfl⟩ := Prod.mk.inj (Option.some.inj hact)
    exact h.modifyAppenders p fun _ => []
  case h_7 p =>
    obtain ⟨rfl, rfl⟩ := Prod.mk.inj (Option.some.inj hact)
    exact ⟨.refl _, h⟩
  case h_8 p sections =>
    split at hact
    all_goals
      obtain ⟨rfl, rfl⟩ := Prod.mk.inj (Option.some.inj hact)
      exact ⟨.refl _, h⟩
  case h_9 => cases hact

/-- A thread in `log` is in front of its first section, or in front of one that ends it. -/
def Ends (t : LoggerTable) : LoggerPc → Prop
  | .logging p sections => sections = 0 ∨ sections = 1 ∧ ∃ l, t.objs[p]? = some l ∧ l.root = none
  | _ => True

theorem Ends.extend {t t' : LoggerTable} (h : Ends t pc) (ht : Extends t t') : Ends t' pc := by
  cases pc with
  | logging p sections =>
      refine h.imp_right fun ⟨hone, l, hl, hbare⟩ => ⟨hone, ?_⟩
      obtain ⟨l', hl', -, hroot⟩ := ht.objs p l hl
      exact ⟨l', hl', hroot.trans hbare⟩
  | _ => trivial

/-- A thread that goes on in `log` has run one section. -/
theorem ends_act (hact : (calls ι).act i g pc a = some (g', pc')) (h : g.Consistent)
    (hends : Ends g.table pc) : Ends g'.table pc' := by
  cases pc' with
  | logging p' sections' =>
      simp only [calls] at hact
      split at hact
      case h_7 p =>
        obtain ⟨rfl, hpc⟩ := Prod.mk.inj (Option.some.inj hact)
        obtain ⟨rfl, rfl⟩ := LoggerPc.logging.inj hpc
        exact .inl rfl
      case h_8 p sections =>
        split at hact
        case h_1 => cases hact
        case h_2 root hroot =>
          obtain ⟨rfl, hpc⟩ := Prod.mk.inj (Option.some.inj hact)
          obtain ⟨rfl, rfl⟩ := LoggerPc.logging.inj hpc
          rcases hends with rfl | ⟨-, l, hl, hbare⟩
          · exact .inr ⟨rfl, (h.rooted.logSection hroot).2⟩
          · have hend := logSection_of_bare hl hbare
            rw [hroot] at hend
            cases hend
      all_goals grind
  | _ => trivial

variable [DecidableEq ι] {s s' : Threads.State ι LoggerRun LoggerPc}

theorem reachable_consistent (h : (calls ι).lts.Reachable s) : s.shared.Consistent := by
  refine h.invariant (I := fun s => s.shared.Consistent) ?_ ?_
  · rintro s ⟨hs, -⟩
    exact hs ▸ consistent_start
  · intro s l s' hstep hs
    obtain ⟨g, pc, hact, rfl⟩ := Threads.step_eq_some.mp hstep
    exact (act_spec hact hs).2

theorem reachable_ends (h : (calls ι).lts.Reachable s) (i : ι) : Ends s.shared.table (s.pc i) := by
  have hlocal := Threads.local_invariant (J := fun _ g pc => g.Consistent ∧ Ends g.table pc)
    (fun g pc hinit i => ?_) (fun i g pc a g' pc' hact hJ => ?_)
    (fun i j g pc a g' pc' pc₂ hact _ hJ hJ₂ => ?_) h i
  · exact hlocal.2
  · obtain ⟨rfl, rfl⟩ := hinit
    exact ⟨consistent_start, trivial⟩
  · exact ⟨(act_spec hact hJ.1).2, ends_act hact hJ.1 hJ.2⟩
  · obtain ⟨hextends, hconsistent⟩ := act_spec hact hJ.1
    exact ⟨hconsistent, hJ₂.2.extend hextends⟩

/-- From a reachable state on no entry is lost or replaced. -/
theorem extends_of_run (h : (calls ι).lts.Reachable s) {ls : List (ι × LoggerAct)}
    (hrun : (calls ι).lts.run s ls = some s') : Extends s.shared.table s'.shared.table := by
  have hrel := Lts.rel_of_run (T := (calls ι).lts)
    (R := fun s s' => s.shared.Consistent → s'.shared.Consistent ∧
      Extends s.shared.table s'.shared.table) (fun s hs => ⟨hs, .refl _⟩) ?_ ?_ hrun
  · exact (hrel (reachable_consistent h)).2
  · intro s₁ s₂ s₃ h₁₂ h₂₃ hs
    obtain ⟨hs₂, hextends⟩ := h₁₂ hs
    obtain ⟨hs₃, hextends'⟩ := h₂₃ hs₂
    exact ⟨hs₃, hextends.trans hextends'⟩
  · intro s l s' hstep hs
    obtain ⟨g, pc, hact, rfl⟩ := Threads.step_eq_some.mp hstep
    exact (act_spec hact hs).symm

/-- The calls for a name have all returned one logger, which is the one that the map has for it
from then on, and that for "root" is the root. A record is passed on once at most, so that `log`
ends, also where the lists of appenders change between its sections. -/
structure OneLogger (s : Threads.State ι LoggerRun LoggerPc) : Prop where
  same : ∀ name p p', (name, p) ∈ s.shared.returned → (name, p') ∈ s.shared.returned → p = p'
  held : ∀ name p, (name, p) ∈ s.shared.returned → s.shared.table.loggers name = some p
  named : ∀ name p, s.shared.table.loggers name = some p →
    ∃ l, s.shared.table.objs[p]? = some l ∧ l.name = name
  kept : ∀ ls s', (calls ι).lts.run s ls = some s' → ∀ name p,
    s.shared.table.loggers name = some p → s'.shared.table.loggers name = some p
  root : s.shared.table.loggers "root" = some s.shared.table.root
  chain : ∀ (p : ℕ) l, s.shared.table.objs[p]? = some l → ∀ r ∈ l.root,
    ∃ l', s.shared.table.objs[r]? = some l' ∧ l'.root = none
  log : ∀ p fuel, 2 ≤ fuel → (log fuel s.shared.table p).isSome
  sections : ∀ i p n, s.pc i = .logging p n → n = 0 ∨
    n = 1 ∧ ∃ l, s.shared.table.objs[p]? = some l ∧ l.root = none

/-- **One logger for each name**, and a `log` that terminates, with any threads in any order of
their sections. -/
theorem oneLogger (h : (calls ι).lts.Reachable s) : OneLogger s where
  same name p p' hp hp' := by
    have hs := reachable_consistent h
    exact Option.some.inj ((hs.returned name p hp).symm.trans (hs.returned name p' hp'))
  held := (reachable_consistent h).returned
  named := (reachable_consistent h).rooted.named
  kept _ _ hrun := (extends_of_run h hrun).loggers
  root := (reachable_consistent h).rooted.top
  chain p l hl r hr := by
    have hrooted := (reachable_consistent h).rooted
    obtain rfl := hrooted.chain p l hl r hr
    exact hrooted.exists_root
  log p _ hfuel := (reachable_consistent h).rooted.log_isSome p hfuel
  sections i p n hpc := by
    have hends := reachable_ends h i
    rw [hpc] at hends
    exact hends

/-- Two threads look for a new name before either makes its logger, and a third one logs to it. -/
theorem oneLogger_race : ∃ s, (calls (Fin 2)).lts.Reachable s ∧ OneLogger s ∧
    s.shared.returned = [("a", 1), ("a", 1)] ∧ s.pc 0 = .logging 0 1 := by
  have hrun : (((calls (Fin 2)).lts.run ⟨start, fun _ => .idle⟩
      [(0, .getLogger "a"), (1, .getLogger "a"), (0, .find), (1, .find), (0, .insert),
        (1, .insert), (0, .log 1), (0, .logSection)]).map
        fun s => (s.shared.returned, s.pc 0)) = some ([("a", 1), ("a", 1)], .logging 0 1) := by
    decide +kernel
  obtain ⟨s, hr, hs⟩ := Lts.Reachable.of_map_run hrun (.init ⟨rfl, rfl⟩)
  obtain ⟨hreturned, hpc⟩ := Prod.mk.inj hs
  exact ⟨s, hr, oneLogger hr, hreturned, hpc⟩

end LoggerRun

end Easy.Base
