import Easy.Base.Logger
import Mathlib.Data.List.Pairwise
import Mathlib.Data.String.Basic

/-!
The logs variable of `easy/base/Logger.cc`, and the listener that `LogIniter` gives it.

A value of the variable is a `std::set` of definitions, which are ordered by name.
`setValue` compares sets by `LogDefine`'s `==`, and so does the listener for each definition
that has been there before. That `==` compares the appenders of a definition with
themselves. A change that it does not see has no effect, and any other one has its full
effect.
-/

namespace Easy.Base

namespace LogDefine

/-- `operator==` -/
def eq (i oth : LogDefine) : Bool :=
  i.name = oth.name ∧ i.level = oth.level ∧ i.formatter = oth.formatter ∧
    i.appenders = i.appenders

/-- Its formatters compile, and its appenders are of a type that there is. -/
def Valid (i : LogDefine) : Prop :=
  (LogFormatter.mk i.formatter).error = false ∧
    ∀ a ∈ i.appenders, (a.type = 1 ∨ a.type = 2) ∧ (LogFormatter.mk a.formatter).error = false

instance : DecidablePred Valid := fun _ => inferInstanceAs (Decidable (_ ∧ _))

end LogDefine

/-- The appender a definition asks for. The console has no file. -/
def LogAppenderDefine.realized (a : LogAppenderDefine) : LogAppenderDefine :=
  if a.type = 2 then { a with file := "" } else a

/-- `std::set<LogDefine>` -/
structure LogDefines where
  defs : List LogDefine
  sorted : defs.Pairwise fun i j => i.name < j.name
  deriving DecidableEq

namespace LogDefines

/-- `find`, by the order of the set. -/
def find (s : LogDefines) (i : LogDefine) : Option LogDefine :=
  s.defs.find? fun j => ¬ j.name < i.name ∧ ¬ i.name < j.name

/-- `operator==` of the sets. -/
def eq (s oth : LogDefines) : Bool := s.defs.isEqv oth.defs LogDefine.eq

end LogDefines

/-! ### The listener -/

namespace LoggerManager

/-- `setLevel` and `setFormatter` of a new appender. -/
def equip (ap : LogAppender) (a : LogAppenderDefine) : LogAppender :=
  let ap := ap.setLevel a.level
  if a.formatter ≠ "" then
    if !(LogFormatter.mk a.formatter).error then ap.setFormatter (some ⟨a.formatter⟩) else ap
  else ap

/-- A new appender, added to a logger. -/
def attach (m : LoggerManager) (name : String) (ap : LogAppender) : LoggerManager :=
  (m.alloc ap).addAppender name m.objs.length (m.length_alloc_lt ap)

/-- The body of the loop over a definition's appenders. `d` is the flag of the command
line. An appender of no type is a null pointer. -/
def installAppender (d : Bool) (name : String) (m : LoggerManager) (a : LogAppenderDefine) :
    Option LoggerManager :=
  if a.type = 1 then some (m.attach name (equip (.make (.file a.file)) a))
  else if a.type = 2 then
    if !d then some (m.attach name (equip (.make .console) a)) else some m
  else none

/-- The logger of a definition, with its level and formatter set and no appenders. -/
def prepare (m : LoggerManager) (i : LogDefine) : LoggerManager :=
  let m := (m.getLogger i.name).2
  let m := m.setLevel i.name i.level
  let m := if i.formatter ≠ "" then m.setFormatter i.name i.formatter else m
  m.clearAppender i.name

/-- What the listener does for a definition that is new or was changed. -/
def configure (d : Bool) (m : LoggerManager) (i : LogDefine) : Option LoggerManager :=
  i.appenders.foldlM (installAppender d i.name) (m.prepare i)

/-- The body of the listener's first loop. -/
def update (d : Bool) (old_value : LogDefines) (m : LoggerManager) (i : LogDefine) :
    Option LoggerManager :=
  match old_value.find i with
  | none => configure d m i
  | some it => if !i.eq it then configure d m i else some m

/-- The body of the listener's second loop. -/
def remove (new_value : LogDefines) (m : LoggerManager) (i : LogDefine) : LoggerManager :=
  match new_value.find i with
  | none => ((m.getLogger i.name).2.setLevel i.name .OFF).clearAppender i.name
  | some _ => m

/-- The listener. -/
def onLoggerConfChanged (d : Bool) (m : LoggerManager) (old_value new_value : LogDefines) :
    Option LoggerManager := do
  let m ← new_value.defs.foldlM (update d old_value) m
  return old_value.defs.foldl (remove new_value) m

end LoggerManager

/-! ### The variable -/

/-- The type of the logs variable, as `ConfigVar` uses it. -/
abbrev logEnv : TypeEnv Unit where
  Val _ := LogDefines
  eq _ := LogDefines.eq
  fromStr _ _ := none
  throws _ _ _ _ := false

/-- The logs variable and the loggers. -/
structure LogState where
  var : ConfigVar LogDefines
  manager : LoggerManager

namespace LogState

/-- The number of the listener of `LogIniter`. -/
def listener : ℕ := 0

/-- `log_defines->setValue(v)`; the listener that is installed is run for its calls. -/
def setValue (d : Bool) (s : LogState) (v : LogDefines) : Option LogState :=
  let (var, calls, _) := ConfigVar.setValue (E := logEnv) (T := ()) s.var v
  let manager := (calls.filter fun call => call.listener = listener).foldlM
    (fun m call => m.onLoggerConfChanged d call.old call.new) s.manager
  manager.map fun manager => ⟨var, manager⟩

/-- The variable has the listener of `LogIniter` and no other. -/
def Installed (s : LogState) : Prop := ∃ id, s.var.cbs = [(id, listener)]

end LogState

namespace LoggerManager

/-- The logger of a definition has its level, and its appenders in order. -/
def Implements (m : LoggerManager) (i : LogDefine) : Prop :=
  m.view i.name = some (i.level, i.appenders.map LogAppenderDefine.realized)

instance (m : LoggerManager) (i : LogDefine) : Decidable (m.Implements i) :=
  inferInstanceAs (Decidable (_ = _))

variable {m : LoggerManager} {i : LogDefine} {d : Bool}

/-! ### One definition -/

/-- An appender that is made for a definition shows it. -/
theorem define_equip {a : LogAppenderDefine} (ha : (LogFormatter.mk a.formatter).error = false)
    (kind : AppenderKind) :
    (equip (.make kind) a).define =
        { (LogAppender.make kind).define with level := a.level, formatter := a.formatter } ∧
      (equip (.make kind) a).hasFormatter = (equip (.make kind) a).formatter.isSome := by
  by_cases hformatter : a.formatter = ""
  · simp [equip, hformatter, LogAppender.define, LogAppender.setLevel, LogAppender.make]
  · simp [equip, hformatter, ha, LogAppender.define, LogAppender.setLevel, LogAppender.setFormatter,
      LogAppender.make]

theorem view_attach {ap : LogAppender} (hap : ap.hasFormatter = ap.formatter.isSome)
    (name name' : String) : (m.attach name ap).view name' =
      if name' = name then (m.view name).map fun v => (v.1, v.2 ++ [ap.define])
      else m.view name' := view_addAppender hap

theorem view_installAppender {a : LogAppenderDefine} (name : String)
    (ha : (a.type = 1 ∨ a.type = 2) ∧ (LogFormatter.mk a.formatter).error = false) :
    ∃ m', installAppender false name m a = some m' ∧ ∀ name', m'.view name' =
      if name' = name then (m.view name).map fun v => (v.1, v.2 ++ [a.realized])
      else m.view name' := by
  obtain ⟨htype, hvalid⟩ := ha
  obtain ⟨type, level, formatter, file⟩ := a
  rcases htype with rfl | rfl
  · obtain ⟨hdefine, hown⟩ := define_equip hvalid (.file file)
    refine ⟨_, rfl, fun name' => ?_⟩
    rw [view_attach hown, hdefine]
    rfl
  · obtain ⟨hdefine, hown⟩ := define_equip hvalid .console
    refine ⟨_, rfl, fun name' => ?_⟩
    rw [view_attach hown, hdefine]
    rfl

/-- **The appenders** of a definition are added in their order. -/
theorem view_installAppenders (name : String) {as : List LogAppenderDefine}
    (h : ∀ a ∈ as, (a.type = 1 ∨ a.type = 2) ∧ (LogFormatter.mk a.formatter).error = false) :
    ∃ m', as.foldlM (installAppender false name) m = some m' ∧ ∀ name', m'.view name' =
      if name' = name then
        (m.view name).map fun v => (v.1, v.2 ++ as.map LogAppenderDefine.realized)
      else m.view name' := by
  induction as generalizing m with
  | nil =>
      refine ⟨m, rfl, fun name' => ?_⟩
      split
      case isTrue heq => simp [heq]
      case isFalse => rfl
  | cons a as ih =>
      obtain ⟨m₁, hinstall, hview₁⟩ := view_installAppender (m := m) name (h a (by simp))
      obtain ⟨m', hrest, hview⟩ := ih (m := m₁) fun b hb => h b (by simp [hb])
      refine ⟨m', ?_, fun name' => ?_⟩
      · rw [List.foldlM_cons, hinstall]
        exact hrest
      · rw [hview, hview₁, if_pos rfl, Option.map_map]
        split
        · simp [Function.comp_def]
        case isFalse hne => rw [hview₁, if_neg hne]

theorem view_prepare (name : String) :
    (m.prepare i).view name = if name = i.name then some (i.level, []) else m.view name := by
  have hset : ∀ n, (if i.formatter ≠ "" then
      ((m.getLogger i.name).2.setLevel i.name i.level).setFormatter i.name i.formatter
    else (m.getLogger i.name).2.setLevel i.name i.level).view n =
      ((m.getLogger i.name).2.setLevel i.name i.level).view n := by
    intro n
    split
    · exact view_setFormatter _
    · rfl
  rw [prepare, view_clearAppender, hset, hset, view_setLevel, view_setLevel, view_getLogger,
    view_getLogger, if_pos rfl, if_pos rfl]
  split
  · rfl
  · rfl

/-- **One definition.** Its logger implements it afterwards, and the others show what
they did. -/
theorem view_configure (hi : i.Valid) :
    ∃ m', configure false m i = some m' ∧ m'.Implements i ∧
      ∀ name, name ≠ i.name → m'.view name = m.view name := by
  obtain ⟨m', hinstall, hview⟩ := view_installAppenders (m := m.prepare i) i.name hi.2
  refine ⟨m', hinstall, ?_, fun name hne => ?_⟩
  · rw [Implements, hview, if_pos rfl, view_prepare, if_pos rfl]
    rfl
  · rw [hview, if_neg hne, view_prepare, if_neg hne]

/-! ### The two loops -/

theorem pairwise_name_ne (s : LogDefines) : s.defs.Pairwise fun i j => i.name ≠ j.name :=
  s.sorted.imp fun hlt => hlt.ne

/-- A set holds at most one definition of a name. -/
theorem name_inj {s : LogDefines} {i j : LogDefine} (hi : i ∈ s.defs) (hj : j ∈ s.defs)
    (h : i.name = j.name) : i = j := by
  have : Std.Symm fun i j : LogDefine => i.name ≠ j.name := ⟨fun _ _ hne => hne.symm⟩
  by_contra hne
  exact (pairwise_name_ne s).forall hi hj hne h

theorem find_eq_none {s : LogDefines} {i : LogDefine} :
    s.find i = none ↔ ∀ j ∈ s.defs, j.name ≠ i.name := by
  simp only [LogDefines.find, List.find?_eq_none, decide_eq_true_eq, not_lt]
  refine forall_congr' fun j => forall_congr' fun _ => not_congr ?_
  exact ⟨fun h => le_antisymm h.2 h.1, fun h => ⟨h.ge, h.le⟩⟩

theorem find_eq_some {s : LogDefines} {i j : LogDefine} :
    s.find i = some j ↔ j ∈ s.defs ∧ j.name = i.name := by
  constructor
  · intro h
    have hname := List.find?_some h
    simp only [decide_eq_true_eq, not_lt] at hname
    exact ⟨List.mem_of_find?_eq_some h, le_antisymm hname.2 hname.1⟩
  · rintro ⟨hj, hname⟩
    cases hfind : s.find i with
    | none => exact absurd hname (find_eq_none.mp hfind j hj)
    | some j' =>
        have hname' := List.find?_some hfind
        simp only [decide_eq_true_eq, not_lt] at hname'
        have hj' := List.mem_of_find?_eq_some hfind
        rw [name_inj hj' hj ((le_antisymm hname'.2 hname'.1).trans hname.symm)]

theorem eq_iff {i j : LogDefine} :
    i.eq j ↔ i.name = j.name ∧ i.level = j.level ∧ i.formatter = j.formatter := by
  simp [LogDefine.eq]

/-- `old_value` has a definition that `==` takes for `i`. -/
def Kept (old_value : LogDefines) (i : LogDefine) : Prop := ∃ j ∈ old_value.defs, i.eq j

/-- A definition that is kept is passed over. -/
theorem update_kept {old_value : LogDefines} (h : Kept old_value i) :
    update d old_value m i = some m := by
  obtain ⟨j, hj, heq⟩ := h
  have hfind : old_value.find i = some j := find_eq_some.mpr ⟨hj, (eq_iff.mp heq).1.symm⟩
  simp [update, hfind, heq]

/-- Any other one is configured. -/
theorem update_not_kept {old_value : LogDefines} (h : ¬ Kept old_value i) :
    update d old_value m i = configure d m i := by
  rw [update]
  cases hfind : old_value.find i with
  | none => rfl
  | some j =>
      have heq : ¬ i.eq j := fun heq => h ⟨j, (find_eq_some.mp hfind).1, heq⟩
      simp [heq]

/-- One round of the first loop, at its own logger and at the others. -/
theorem view_update (old_value : LogDefines) (hi : i.Valid) :
    ∃ m', update false old_value m i = some m' ∧
      (¬ Kept old_value i → m'.Implements i) ∧
      (Kept old_value i → m'.view i.name = m.view i.name) ∧
      ∀ name, name ≠ i.name → m'.view name = m.view name := by
  by_cases hkept : Kept old_value i
  · exact ⟨m, update_kept hkept, fun h => absurd hkept h, fun _ => rfl, fun _ _ => rfl⟩
  · obtain ⟨m', hconf, himp, hothers⟩ := view_configure (m := m) hi
    rw [update_not_kept hkept]
    exact ⟨m', hconf, fun _ => himp, fun h => absurd h hkept, hothers⟩

/-- **The first loop** configures the definitions that are not kept. -/
theorem view_updates (old_value : LogDefines) {defs : List LogDefine}
    (hdistinct : defs.Pairwise fun i j => i.name ≠ j.name) (hvalid : ∀ i ∈ defs, i.Valid) :
    ∃ m', defs.foldlM (update false old_value) m = some m' ∧
      (∀ i ∈ defs, ¬ Kept old_value i → m'.Implements i) ∧
      (∀ i ∈ defs, Kept old_value i → m'.view i.name = m.view i.name) ∧
      ∀ name, (∀ i ∈ defs, i.name ≠ name) → m'.view name = m.view name := by
  induction defs generalizing m with
  | nil => exact ⟨m, rfl, by simp, by simp, fun _ _ => rfl⟩
  | cons i defs ih =>
      obtain ⟨hi, hdistinct⟩ := List.pairwise_cons.mp hdistinct
      obtain ⟨m₁, hstep, hnew, hkept, hothers⟩ :=
        view_update (m := m) old_value (hvalid i (by simp))
      obtain ⟨m', hrest, hnew', hkept', hothers'⟩ :=
        ih (m := m₁) hdistinct fun j hj => hvalid j (by simp [hj])
      have hsame : m'.view i.name = m₁.view i.name :=
        hothers' i.name fun j hj => (hi j hj).symm
      refine ⟨m', ?_, ?_, ?_, fun name hname => ?_⟩
      · rw [List.foldlM_cons, hstep]
        exact hrest
      · intro j hj hnot
        rcases List.mem_cons.mp hj with rfl | hj
        · exact hsame.trans (hnew hnot)
        · exact hnew' j hj hnot
      · intro j hj hk
        rcases List.mem_cons.mp hj with rfl | hj
        · exact hsame.trans (hkept hk)
        · exact (hkept' j hj hk).trans (hothers j.name (hi j hj).symm)
      · rw [hothers' name fun j hj => hname j (by simp [hj])]
        exact hothers name (hname i (by simp)).symm

/-- A logger that is not in the new value is switched off and loses its appenders. -/
theorem view_remove (new_value : LogDefines) (name : String) :
    (m.remove new_value i).view name =
      if name = i.name ∧ new_value.find i = none then some (.OFF, []) else m.view name := by
  rw [remove]
  cases new_value.find i with
  | some j => simp
  | none =>
      simp only [view_clearAppender, view_setLevel, view_getLogger, if_true, Option.map_some,
        and_true]
      split
      · rfl
      · rfl

/-- **The second loop** removes what is not in the new value. -/
theorem view_removes (new_value : LogDefines) (defs : List LogDefine) (name : String) :
    (defs.foldl (remove new_value) m).view name =
      if ∃ i ∈ defs, name = i.name ∧ new_value.find i = none then some (.OFF, [])
      else m.view name := by
  induction defs generalizing m with
  | nil => simp
  | cons i defs ih =>
      rw [List.foldl_cons, ih, view_remove]
      simp only [List.exists_mem_cons_iff]
      by_cases hfirst : name = i.name ∧ new_value.find i = none
      · simp [hfirst]
      · simp [hfirst]

/-- **The listener** configures what is not kept and takes away what is gone. -/
theorem view_onLoggerConfChanged (old_value : LogDefines) {new_value : LogDefines}
    (hvalid : ∀ i ∈ new_value.defs, i.Valid) :
    ∃ m', m.onLoggerConfChanged false old_value new_value = some m' ∧
      (∀ i ∈ new_value.defs, m'.Implements i ↔ (Kept old_value i → m.Implements i)) ∧
      ∀ j ∈ old_value.defs, (∀ i ∈ new_value.defs, i.name ≠ j.name) →
        m'.view j.name = some (.OFF, []) := by
  obtain ⟨m₁, hloop, hnew, hkept, -⟩ :=
    view_updates (m := m) old_value (pairwise_name_ne new_value) hvalid
  have hview := view_removes (m := m₁) new_value old_value.defs
  refine ⟨old_value.defs.foldl (remove new_value) m₁, ?_, fun i hi => ?_, fun j hj hgone => ?_⟩
  · rw [onLoggerConfChanged, hloop]
    rfl
  · -- the second loop leaves a logger alone that the new value names
    have hthere : ¬ ∃ j ∈ old_value.defs, i.name = j.name ∧ new_value.find j = none := by
      rintro ⟨j, -, hname, hgone⟩
      exact find_eq_none.mp hgone i hi hname
    rw [Implements, hview, if_neg hthere]
    by_cases hk : Kept old_value i
    · rw [hkept i hi hk]
      exact ⟨fun himp _ => himp, fun himp => himp hk⟩
    · exact ⟨fun _ h => absurd h hk, fun _ => hnew i hi hk⟩
  · rw [hview, if_pos ⟨j, hj, rfl, find_eq_none.mpr hgone⟩]

end LoggerManager

/-! ### A change of the variable -/

namespace LogState

open LoggerManager

variable {s : LogState} {new : LogDefines}

/-- The variable has the new value, the loggers it names implement their definitions, and
those that only the old one named have no appenders. -/
def TakesEffect (old new : LogDefines) (s : LogState) : Prop :=
  s.var.val = new ∧ (∀ i ∈ new.defs, s.manager.Implements i) ∧
    ∀ j ∈ old.defs, (∀ i ∈ new.defs, i.name ≠ j.name) →
      ∃ level, s.manager.view j.name = some (level, [])

/-- A definition that `==` takes for one of the old value is implemented as it is, and if it
takes all of them, they are the old ones. -/
def Noticed (s : LogState) (new : LogDefines) : Prop :=
  (∀ i ∈ new.defs, Kept s.var.val i → s.manager.Implements i) ∧
    (new.eq s.var.val → new = s.var.val)

/-- A value that `==` takes for the present one is not stored. -/
theorem setValue_of_eq {d : Bool} (h : new.eq s.var.val) : s.setValue d new = some s := by
  have hvar : ConfigVar.setValue (E := logEnv) (T := ()) s.var new = (s.var, [], true) :=
    if_pos h
  rw [setValue, hvar]
  rfl

/-- Any other value is stored after one call of the listener. -/
theorem setValue_of_ne {d : Bool} (hs : s.Installed) (h : ¬ new.eq s.var.val) :
    s.setValue d new = (s.manager.onLoggerConfChanged d s.var.val new).map fun manager =>
      ⟨{ s.var with val := new }, manager⟩ := by
  obtain ⟨⟨val, cbs⟩, manager⟩ := s
  obtain ⟨id, rfl⟩ : ∃ id, cbs = [(id, listener)] := hs
  have hvar : ConfigVar.setValue (E := logEnv) (T := ()) ⟨val, [(id, listener)]⟩ new =
      (⟨new, [(id, listener)]⟩, [⟨listener, (), val, new⟩], true) := if_neg h
  rw [setValue, hvar]
  cases hlistener : manager.onLoggerConfChanged d val new with
  | none => simp [hlistener]
  | some manager' => simp [hlistener]

theorem installed_setValue {d : Bool} {s' : LogState} (hs : s.Installed)
    (h : s.setValue d new = some s') : s'.Installed := by
  by_cases heq : new.eq s.var.val
  · rw [setValue_of_eq heq] at h
    exact Option.some.inj h ▸ hs
  · rw [setValue_of_ne hs heq, Option.map_eq_some_iff] at h
    obtain ⟨manager, -, rfl⟩ := h
    exact hs

/-- **Log configuration.** A change takes its full effect if and only if it is noticed. -/
theorem takes_effect_iff (hs : s.Installed) (hvalid : ∀ i ∈ new.defs, i.Valid) :
    (∃ s', s.setValue false new = some s' ∧ TakesEffect s.var.val new s') ↔ s.Noticed new := by
  by_cases heq : new.eq s.var.val
  · simp only [setValue_of_eq heq, Option.some.injEq, exists_eq_left']
    constructor
    · rintro ⟨hval, himp, -⟩
      exact ⟨fun i hi _ => himp i hi, fun _ => hval.symm⟩
    · rintro ⟨hkept, hsame⟩
      have hval := hsame heq
      refine ⟨hval.symm, fun i hi => hkept i hi ⟨i, hval ▸ hi, eq_iff.mpr ⟨rfl, rfl, rfl⟩⟩, ?_⟩
      intro j hj hgone
      exact absurd rfl (hgone j (hval ▸ hj))
  · obtain ⟨m', hlistener, himp, hgone⟩ :=
      view_onLoggerConfChanged (m := s.manager) s.var.val hvalid
    simp only [setValue_of_ne hs heq, hlistener, Option.map_some, Option.some.injEq,
      exists_eq_left']
    constructor
    · rintro ⟨-, hnew, -⟩
      exact ⟨fun i hi => (himp i hi).mp (hnew i hi), fun h => absurd h heq⟩
    · rintro ⟨hkept, -⟩
      exact ⟨rfl, fun i hi => (himp i hi).mpr (hkept i hi),
        fun j hj hnot => ⟨.OFF, hgone j hj hnot⟩⟩

/-! ### Runs of changes -/

/-- The loggers implement the value of the variable. -/
def Implemented (s : LogState) : Prop := ∀ i ∈ s.var.val.defs, s.manager.Implements i

/-- What `==` takes for the same asks for the same appenders. -/
def Seen (old new : LogDefines) : Prop :=
  (∀ i ∈ new.defs, ∀ j ∈ old.defs, i.eq j →
    i.appenders.map LogAppenderDefine.realized = j.appenders.map LogAppenderDefine.realized) ∧
    (new.eq old → new = old)

/-- Over loggers that implement the old value, what is noticed shows in the two values. -/
theorem noticed_iff (h : s.Implemented) : s.Noticed new ↔ Seen s.var.val new := by
  refine and_congr_left' ⟨fun hkept i hi j hj heq => ?_, ?_⟩
  · obtain ⟨hname, -, -⟩ := eq_iff.mp heq
    have hview := hkept i hi ⟨j, hj, heq⟩
    rw [Implements, hname, h j hj] at hview
    exact (congrArg Prod.snd (Option.some.inj hview)).symm
  · rintro hsame i hi ⟨j, hj, heq⟩
    obtain ⟨hname, hlevel, -⟩ := eq_iff.mp heq
    rw [Implements, hname, hlevel, hsame i hi j hj heq]
    exact h j hj

/-- **A run of changes.** Where each value is seen after the one before it, the loggers
implement the last one. -/
theorem implemented_run {vs : List LogDefines} (hs : s.Installed) (himp : s.Implemented)
    (hvalid : ∀ v ∈ vs, ∀ i ∈ v.defs, i.Valid) (hseen : (s.var.val :: vs).IsChain Seen) :
    ∃ s', vs.foldlM (setValue false) s = some s' ∧ s'.Implemented := by
  induction vs generalizing s with
  | nil => exact ⟨s, rfl, himp⟩
  | cons v vs ih =>
      obtain ⟨hfirst, hrest⟩ := List.isChain_cons_cons.mp hseen
      obtain ⟨s₁, hset, hval, himp₁, -⟩ :=
        (takes_effect_iff hs (hvalid v (by simp))).mpr ((noticed_iff himp).mpr hfirst)
      have hs₁ : s₁.Installed := installed_setValue hs hset
      rw [← hval] at himp₁ hrest
      obtain ⟨s', hrun, himp'⟩ := ih hs₁ himp₁ (fun w hw => hvalid w (by simp [hw])) hrest
      refine ⟨s', ?_, himp'⟩
      rw [List.foldlM_cons, hset]
      exact hrun

/-- The constructors have run, of `LoggerManager` and of `LogIniter`. -/
def start : LogState where
  var := ⟨⟨[], .nil⟩, [(1, listener)]⟩
  manager := (((⟨fun _ => none, [], by simp⟩ : LoggerManager).put "root" (.make false)
    (by simp [Logger.make])).alloc (.make .console)).addAppender "root" 0 (by simp [alloc])

/-- A logger with a file of its own. -/
def system (level : LogLevel) : LogDefines where
  defs := [⟨"system", .INFO, "%d%T%m%n", [⟨1, level, "", "/tmp/system.txt"⟩]⟩]
  sorted := List.pairwise_singleton _ _

/-- The first value that is set. -/
theorem takes_effect_first : ∃ s', start.setValue false (system .DEBUG) = some s' ∧
    TakesEffect start.var.val (system .DEBUG) s' :=
  (takes_effect_iff ⟨1, rfl⟩ (by decide)).mpr
    ⟨fun i _ hkept => by simp [Kept, start] at hkept, fun h => absurd h (by decide)⟩

/-- Then the level of its appender is changed. -/
theorem takes_effect_false : ∃ s s', start.setValue false (system .DEBUG) = some s ∧
    s.Installed ∧ (∀ i ∈ (system .WARN).defs, i.Valid) ∧
      s.setValue false (system .WARN) = some s' ∧ ¬ TakesEffect s.var.val (system .WARN) s' := by
  have hvalid : ∀ i ∈ (system .DEBUG).defs, i.Valid := by decide
  obtain ⟨manager, hlistener, -⟩ :=
    view_onLoggerConfChanged (m := start.manager) start.var.val hvalid
  have hfirst : start.setValue false (system .DEBUG) =
      some ⟨⟨system .DEBUG, [(1, listener)]⟩, manager⟩ := by
    rw [setValue_of_ne ⟨1, rfl⟩ (by decide), hlistener]
    rfl
  have hsame : (system .WARN).eq (system .DEBUG) := by decide
  refine ⟨_, _, hfirst, ⟨1, rfl⟩, by decide, setValue_of_eq hsame, fun h => ?_⟩
  have hval : system .DEBUG = system .WARN := h.1
  exact absurd hval (by decide)

end LogState

end Easy.Base
