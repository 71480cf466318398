import Easy.Base.GetLogger
import Easy.Base.LogOff

/-!
The two models of the manager of the loggers.

By names a logger is what the map has for it, and its `root_` is the logger "root". In the table of
loggers they are objects, and `root_` is a pointer. The operations of the one do what those of the
other do, as long as the map has each logger under its name, which it has in every run. So what
threads reach by their lock sections is reached by calls on the names.
-/

namespace Easy.Base

namespace LoggerTable

variable {t : LoggerTable} {m m' : LoggerManager} {name name' : String} {p : ℕ}

/-- What both have of the logger of a name: its appenders, and whether it has a `root_`. -/
def face (t : LoggerTable) (name : String) : Option (List ℕ × Bool) :=
  (t.loggers name).bind fun p => t.objs[p]?.map fun l => (l.appenders, l.root.isSome)

/-- The manager has the loggers of the table. -/
def Shows (t : LoggerTable) (m : LoggerManager) : Prop :=
  ∀ name, t.face name = (m.loggers name).map fun l => (l.appenders, l.hasRoot)

theorem face_of_some {l : LoggerObj} (hp : t.loggers name = some p) (hl : t.objs[p]? = some l) :
    t.face name = some (l.appenders, l.root.isSome) := by
  rw [face, hp, Option.bind_some, hl, Option.map_some]

theorem face_none (hnone : t.loggers name = none) : t.face name = none := by
  rw [face, hnone, Option.bind_none]

/-- The logger of a name, in both. -/
theorem Shows.exists_logger (h : t.Shows m) (ht : t.Rooted) (hp : t.loggers name = some p) :
    ∃ l logger, t.objs[p]? = some l ∧ m.loggers name = some logger ∧
      logger.appenders = l.appenders ∧ logger.hasRoot = l.root.isSome := by
  obtain ⟨l, hl, -⟩ := ht.named name p hp
  have hface := h name
  rw [face_of_some hp hl] at hface
  obtain ⟨logger, hlogger, heq⟩ := Option.map_eq_some_iff.mp hface.symm
  obtain ⟨happenders, hroot⟩ := Prod.mk.inj heq
  exact ⟨l, logger, hl, hlogger, happenders, hroot⟩

theorem Shows.eq_none (h : t.Shows m) (hnone : t.loggers name = none) : m.loggers name = none := by
  have hface := h name
  rw [face_none hnone] at hface
  exact Option.map_eq_none_iff.mp hface.symm

/-- The constructors. -/
theorem shows_make : make.Shows LogState.start.manager := by
  intro name
  by_cases hname : name = "root"
  · subst hname
    rfl
  · have hnone : LogState.start.manager.loggers name = none := by
      refine Option.eq_none_iff_forall_not_mem.mpr fun logger hlogger => ?_
      exact hname (LoggerManager.loggers_start hlogger).1
    have hnone' : make.loggers name = none := by simp [make, hname]
    rw [face_none hnone', hnone, Option.map_none]

theorem face_insert_self (hnone : t.loggers name = none) :
    (t.insert name).2.face name = some ([], true) := by
  have hfound := t.loggers_insert name
  rw [insert_of_none hnone] at hfound ⊢
  exact face_of_some hfound (l := ⟨name, [], some t.root⟩) (by simp)

theorem face_insert_of_ne (ht : t.Rooted) (hnone : t.loggers name = none) (hne : name' ≠ name) :
    (t.insert name).2.face name' = t.face name' := by
  have hloggers : (t.insert name).2.loggers name' = t.loggers name' := by
    rw [insert_of_none hnone]
    exact Function.update_of_ne hne _ _
  cases hq : t.loggers name' with
  | none => rw [face_none hq, face_none (hloggers.trans hq)]
  | some q =>
      obtain ⟨l, hl, -⟩ := ht.named name' q hq
      rw [face_of_some hq hl, face_of_some (hloggers.trans hq) (getElem?_insert hl name)]

/-- **`getLogger`**, whose section under the write lock is the call on the names. -/
theorem Shows.insert (h : t.Shows m) (ht : t.Rooted) (name : String) :
    (t.insert name).2.Shows (m.getLogger name).2 := by
  cases hp : t.loggers name with
  | some p =>
      obtain ⟨-, logger, -, hlogger, -⟩ := h.exists_logger ht hp
      have hsame : (m.getLogger name).2 = m := by rw [LoggerManager.getLogger, hlogger]
      rwa [insert_of_some hp, hsame]
  | none =>
      intro name'
      rcases m.loggers_getLogger name name' with hsame | ⟨rfl, -, hnew⟩
      · have hne : name' ≠ name := by
          rintro rfl
          rw [m.getLogger_found, h.eq_none hp] at hsame
          cases hsame
        rw [face_insert_of_ne ht hp hne, hsame, h name']
      · rw [face_insert_self hp, hnew]
        rfl

/-- **A change of the appenders** of a logger, by its pointer and by its name. -/
theorem Shows.modifyAppenders (h : t.Shows m) (ht : t.Rooted) (hp : t.loggers name = some p)
    {f : List ℕ → List ℕ}
    (hchange : m.Changes name (fun l => { l with appenders := f l.appenders }) m') :
    (t.modifyAppenders p f).Shows m' := by
  intro name'
  have hloggers : (t.modifyAppenders p f).loggers name' = t.loggers name' := rfl
  cases hq : t.loggers name' with
  | none =>
      have hne : name' ≠ name := by
        rintro rfl
        rw [hp] at hq
        cases hq
      rw [face_none (hloggers.trans hq), hchange name', if_neg hne, h.eq_none hq, Option.map_none]
  | some q =>
      obtain ⟨l, logger, hl, hlogger, happenders, hroot⟩ := h.exists_logger ht hq
      -- the pointers of different names are different
      have hsame : p = q ↔ name' = name := by
        constructor
        · rintro rfl
          obtain ⟨l₁, hl₁, hname₁⟩ := ht.named name p hp
          obtain ⟨l₂, hl₂, hname₂⟩ := ht.named name' p hq
          obtain rfl := Option.some.inj (hl₁.symm.trans hl₂)
          exact hname₂.symm.trans hname₁
        · rintro rfl
          exact Option.some.inj (hp.symm.trans hq)
      have hl' : (t.modifyAppenders p f).objs[q]? =
          some (if p = q then { l with appenders := f l.appenders } else l) := by
        rw [LoggerTable.modifyAppenders, List.getElem?_modify, hl]
        rfl
      rw [face_of_some (hloggers.trans hq) hl', hchange.found hlogger]
      by_cases heq : p = q
      · rw [if_pos heq, if_pos (hsame.mp heq), Option.map_some, happenders, hroot]
      · rw [if_neg heq, if_neg (heq ∘ hsame.mpr), Option.map_some, happenders, hroot]

theorem Shows.addAppender (h : t.Shows m) (ht : t.Rooted) (hp : t.loggers name = some p)
    {appender : ℕ} (happender : appender < m.objs.length) :
    (t.addAppender p appender).Shows (m.addAppender name appender happender) :=
  h.modifyAppenders ht hp (LoggerManager.changes_addAppender m name happender)

theorem Shows.deleteAppender (h : t.Shows m) (ht : t.Rooted) (hp : t.loggers name = some p)
    (appender : ℕ) : (t.deleteAppender p appender).Shows (m.deleteAppender name appender) :=
  h.modifyAppenders ht hp (LoggerManager.changes_deleteAppender m name appender)

theorem Shows.clearAppender (h : t.Shows m) (ht : t.Rooted) (hp : t.loggers name = some p) :
    (t.clearAppender p).Shows (m.clearAppender name) :=
  h.modifyAppenders ht hp (LoggerManager.changes_clearAppender m name)

/-- **`log`** gives the record to the same appenders, of which some write it. -/
theorem Shows.log (h : t.Shows m) (ht : t.Rooted) (hp : t.loggers name = some p) (level : LogLevel)
    (fuel : ℕ) : m.log fuel name level = (LoggerTable.log fuel t p).map (m.written · level) := by
  induction fuel generalizing name p with
  | zero => rfl
  | succ fuel ih =>
      obtain ⟨l, logger, hl, hlogger, happenders, hroot⟩ := h.exists_logger ht hp
      rw [LoggerManager.log, hlogger, LoggerTable.log, logSection, hl]
      simp only [happenders, hroot]
      by_cases hown : l.appenders = []
      · cases hr : l.root with
        | none => simp [hown, LoggerManager.written]
        | some r =>
            obtain rfl := ht.chain p l hl r hr
            simpa [hown, hr] using ih ht.top
      · simp [hown]

end LoggerTable

/-! ### Runs -/

namespace LoggerManager

variable {m m' : LoggerManager}

/-- Appenders can be made until there are as many as are asked for. -/
theorem exists_appenders (m : LoggerManager) (n : ℕ) :
    ∃ m', m.Leads m' ∧ m'.loggers = m.loggers ∧ n < m'.objs.length := by
  induction n with
  | zero =>
      refine ⟨m.alloc (.make .console), ?_, rfl, by simp [alloc]⟩
      exact .of_step (.formatter (.makeAppender .console)) rfl
  | succ n ih =>
      obtain ⟨m', hleads, hloggers, hlt⟩ := ih
      refine ⟨m'.alloc (.make .console), ?_, hloggers, by simp [alloc, hlt]⟩
      exact hleads.trans (.of_step (.formatter (.makeAppender .console)) rfl)

theorem Leads.reachable (h : m.Leads m') (hm : logLts.Reachable m) : logLts.Reachable m' := by
  obtain ⟨ops, hops⟩ := h
  exact hm.of_run hops

end LoggerManager

namespace LoggerRun

open Lib LoggerTable LoggerManager

variable {ι : Type} {g g' : LoggerRun} {pc pc' : LoggerPc} {a : LoggerAct} {i : ι}
  {m : LoggerManager}

/-- A pointer to no logger changes nothing, and one to a logger is to that of its name. -/
theorem shows_modify {t : LoggerTable} (h : t.Shows m) (ht : t.Rooted) (p : ℕ) {f : List ℕ → List ℕ}
    (hcall : ∀ name, t.loggers name = some p → ∃ m', m.Leads m' ∧
      (t.modifyAppenders p f).Shows m') : ∃ m', m.Leads m' ∧ (t.modifyAppenders p f).Shows m' := by
  cases hp : t.objs[p]? with
  | some l => exact hcall l.name (ht.listed p l hp)
  | none =>
      have hsame : t.modifyAppenders p f = t := by
        rw [LoggerTable.modifyAppenders, List.modify_eq_self (List.getElem?_eq_none_iff.mp hp)]
      exact ⟨m, .refl m, hsame.symm ▸ h⟩

/-- **A section** of a thread is a run of calls on the names. -/
theorem exists_leads (hact : (calls ι).act i g pc a = some (g', pc')) (hg : g.Consistent)
    (h : g.table.Shows m) : ∃ m', m.Leads m' ∧ g'.table.Shows m' := by
  have ht := hg.rooted
  simp only [calls] at hact
  split at hact
  case h_1 name =>
    obtain ⟨rfl, rfl⟩ := Prod.mk.inj (Option.some.inj hact)
    exact ⟨m, .refl m, h⟩
  case h_2 name =>
    split at hact
    all_goals
      obtain ⟨rfl, rfl⟩ := Prod.mk.inj (Option.some.inj hact)
      exact ⟨m, .refl m, h⟩
  case h_3 name =>
    obtain ⟨rfl, rfl⟩ := Prod.mk.inj (Option.some.inj hact)
    exact ⟨_, leads_getLogger m name, h.insert ht name⟩
  case h_4 p appender =>
    obtain ⟨rfl, rfl⟩ := Prod.mk.inj (Option.some.inj hact)
    refine shows_modify h ht p fun name hp => ?_
    obtain ⟨m₁, hleads, hloggers, hlt⟩ := m.exists_appenders appender
    have h₁ : g.table.Shows m₁ := fun name => hloggers ▸ h name
    refine ⟨m₁.addAppender name appender hlt, hleads.trans ?_, h₁.addAppender ht hp hlt⟩
    refine .of_step (.formatter (.addAppender name appender)) ?_
    rw [logStep, formatterStep, dif_pos hlt]
  case h_5 p appender =>
    obtain ⟨rfl, rfl⟩ := Prod.mk.inj (Option.some.inj hact)
    refine shows_modify h ht p fun name hp => ⟨_, ?_, h.deleteAppender ht hp appender⟩
    exact .of_step (.formatter (.deleteAppender name appender)) rfl
  case h_6 p =>
    obtain ⟨rfl, rfl⟩ := Prod.mk.inj (Option.some.inj hact)
    exact shows_modify h ht p fun name hp => ⟨_, leads_clearAppender m name, h.clearAppender ht hp⟩
  case h_7 p =>
    obtain ⟨rfl, rfl⟩ := Prod.mk.inj (Option.some.inj hact)
    exact ⟨m, .refl m, h⟩
  case h_8 p sections =>
    split at hact
    all_goals
      obtain ⟨rfl, rfl⟩ := Prod.mk.inj (Option.some.inj hact)
      exact ⟨m, .refl m, h⟩
  case h_9 => cases hact

variable [DecidableEq ι] {s : Threads.State ι LoggerRun LoggerPc}

/-- **The threads** only reach what calls on the names, one after the other, reach. -/
theorem exists_shows (h : (calls ι).lts.Reachable s) :
    ∃ m, logLts.Reachable m ∧ s.shared.table.Shows m := by
  have hboth := h.invariant (I := fun s => s.shared.Consistent ∧
    ∃ m, logLts.Reachable m ∧ s.shared.table.Shows m) ?_ ?_
  · exact hboth.2
  · rintro s ⟨hs, -⟩
    exact ⟨hs ▸ consistent_start, LogState.start.manager, .init rfl, hs ▸ shows_make⟩
  · rintro s l s' hstep ⟨hs, m, hm, hshows⟩
    obtain ⟨g, pc, hact, rfl⟩ := Threads.step_eq_some.mp hstep
    obtain ⟨m', hleads, hshows'⟩ := exists_leads hact hs hshows
    exact ⟨(act_spec hact hs).2, m', hleads.reachable hm, hshows'⟩

end LoggerRun

end Easy.Base
