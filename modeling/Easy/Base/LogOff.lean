import Easy.Base.AppenderFormatters
import Easy.Base.LogConfig

/-!
Loggers whose level is `OFF` (`easy/base/Logger.h`, `Logger.cc`).

The macros ask whether the level of the logger is at most that of the record. `OFF` is the lowest
level, so that every record passes a logger that is `OFF`, and one without appenders hands it to
the root. It is silent if and only if neither it nor the root has an appender.
-/

namespace Easy.Base

namespace LoggerManager

variable {m m' : LoggerManager} {name name' : String} {logger logger' root : Logger} {p : ℕ}
  {level : LogLevel}

/-- The appenders that write a record of a level, out of those it is given to. -/
def written (m : LoggerManager) (ps : List ℕ) (level : LogLevel) : List ℕ :=
  ps.filter fun p => m.objs[p]?.any (·.shouldLog level)

/-- `Logger::log`, by the appenders that write the record. It is `none` where the fuel does not
do. -/
def log (m : LoggerManager) : ℕ → String → LogLevel → Option (List ℕ)
  | 0, _, _ => none
  | fuel + 1, name, level =>
    match m.loggers name with
    | none => some []
    | some logger =>
      if logger.appenders ≠ [] then some (m.written logger.appenders level)
      else if logger.hasRoot then log m fuel "root" level
      else some []

/-- `ELOG_LEVEL`; `~LogRecordRAII` calls `log`, which passes a record on once. -/
def elogLevel (m : LoggerManager) (name : String) (level : LogLevel) : Option (List ℕ) :=
  match m.loggers name with
  | none => some []
  | some logger => if logger.level.ctorIdx ≤ level.ctorIdx then m.log 2 name level else some []

/-- `LogAppender::setLevel` -/
def setAppenderLevel (m : LoggerManager) (p : ℕ) (val : LogLevel) : LoggerManager :=
  m.withObjs (m.objs.modify p (·.setLevel val)) (by simp)

/-- A call on a logger or an appender. -/
inductive LogOp
  | formatter (op : FormatterOp)
  | setLevel (name : String) (val : LogLevel)
  | setAppenderLevel (p : ℕ) (val : LogLevel)

def logStep (m : LoggerManager) : LogOp → Option LoggerManager
  | .formatter op => m.formatterStep op
  | .setLevel name val => some (m.setLevel name val)
  | .setAppenderLevel p val =>
    if p < m.objs.length then some (m.setAppenderLevel p val) else none

/-- Runs of calls, behind the constructor of the manager. -/
def logLts : Lib.Lts LoggerManager LogOp := ⟨(· = LogState.start.manager), logStep⟩

/-- A logger that is `OFF` writes a record to no appender. -/
def Silent (m : LoggerManager) : Prop := ∀ name logger, m.loggers name = some logger →
  logger.level = .OFF → ∀ level, m.elogLevel name level = some []

/-! ### Where a record goes -/

/-- The root is there, and it is what the other loggers have for `root_`. -/
structure Rooted (m : LoggerManager) : Prop where
  exists_root : ∃ root, m.loggers "root" = some root ∧ root.hasRoot = false
  hasRoot : ∀ name logger, m.loggers name = some logger → name ≠ "root" → logger.hasRoot = true

/-- Neither a logger that is `OFF` nor the root of one has an appender. -/
def Quiet (m : LoggerManager) : Prop := ∀ name logger root, m.loggers name = some logger →
  m.loggers "root" = some root → logger.level = .OFF →
    logger.appenders = [] ∧ root.appenders = []

/-- A record of the highest level is written by all appenders. -/
theorem written_FATAL (hlogger : m.loggers name = some logger) :
    m.written logger.appenders .FATAL = logger.appenders := by
  refine List.filter_eq_self.mpr fun p hp => ?_
  have hp := m.valid name logger hlogger p hp
  rw [List.getElem?_eq_getElem hp, Option.any_some, LogAppender.shouldLog]
  cases (m.objs[p]).level <;> rfl

theorem log_own (hlogger : m.loggers name = some logger) (hown : logger.appenders ≠ [])
    (fuel : ℕ) (level : LogLevel) :
    m.log (fuel + 1) name level = some (m.written logger.appenders level) := by
  rw [log, hlogger]
  simp [hown]

theorem log_root (hroot : m.loggers "root" = some root) (hbare : root.hasRoot = false) (fuel : ℕ)
    (level : LogLevel) : m.log (fuel + 1) "root" level = some (m.written root.appenders level) := by
  by_cases hown : root.appenders = []
  · rw [log, hroot]
    simp [hown, hbare, written]
  · exact log_own hroot hown fuel level

/-- A logger without appenders hands the record to the root. -/
theorem log_bare (h : m.Rooted) (hlogger : m.loggers name = some logger)
    (hbare : logger.appenders = []) (hroot : m.loggers "root" = some root) (fuel : ℕ)
    (level : LogLevel) : m.log (fuel + 2) name level = some (m.written root.appenders level) := by
  obtain ⟨root', hroot', hend⟩ := h.exists_root
  obtain rfl := Option.some.inj (hroot.symm.trans hroot')
  by_cases hname : name = "root"
  · subst hname
    exact log_root hroot hend _ level
  · rw [log, hlogger]
    simpa [hbare, h.hasRoot name logger hlogger hname] using log_root hroot hend fuel level

/-- Every record passes the macros to a logger that is `OFF`. -/
theorem ELOG_LEVEL_OFF (hlogger : m.loggers name = some logger) (hoff : logger.level = .OFF)
    (level : LogLevel) : m.elogLevel name level = m.log 2 name level := by
  have hpass : logger.level.ctorIdx ≤ level.ctorIdx := hoff ▸ Nat.zero_le _
  rw [elogLevel, hlogger]
  exact if_pos hpass

/-- **Silence** is that there are no appenders. -/
theorem Rooted.silent_iff (h : m.Rooted) : m.Silent ↔ m.Quiet := by
  constructor
  · intro hsilent name logger root hlogger hroot hoff
    have hlog := hsilent name logger hlogger hoff .FATAL
    rw [ELOG_LEVEL_OFF hlogger hoff] at hlog
    by_cases hown : logger.appenders = []
    · rw [log_bare h hlogger hown hroot, written_FATAL hroot] at hlog
      exact ⟨hown, Option.some.inj hlog⟩
    · rw [log_own hlogger hown, written_FATAL hlogger] at hlog
      exact absurd (Option.some.inj hlog) hown
  · intro hquiet name logger hlogger hoff level
    obtain ⟨root, hroot, -⟩ := h.exists_root
    obtain ⟨hown, hempty⟩ := hquiet name logger root hlogger hroot hoff
    rw [ELOG_LEVEL_OFF hlogger hoff, log_bare h hlogger hown hroot, hempty]
    rfl

/-! ### What the calls do to the loggers -/

theorem Changes.id_of (h : m'.loggers = m.loggers) : Changes m name id m' := by
  intro name'
  rw [h, Option.map_id, id]
  split
  case isTrue heq => rw [heq]
  case isFalse => rfl

theorem changes_deleteAppender (m : LoggerManager) (name : String) (p : ℕ) :
    Changes m name (fun l => { l with appenders := l.appenders.erase p })
      (m.deleteAppender name p) := by
  rw [deleteAppender]
  split
  case h_1 hlogger => exact .none hlogger _
  case h_2 logger hlogger => exact .put rfl hlogger _

/-- The logger that a call changes, and how. -/
def LogOp.change : LogOp → String × (Logger → Logger)
  | .setLevel name val => (name, ({ · with level := val }))
  | .formatter (.addAppender name p) => (name, fun l => { l with appenders := l.appenders ++ [p] })
  | .formatter (.deleteAppender name p) =>
    (name, fun l => { l with appenders := l.appenders.erase p })
  | .formatter (.clearAppender name) => (name, ({ · with appenders := [] }))
  | .formatter (.setFormatterPtr name val) => (name, ({ · with formatter := some val }))
  | .formatter (.setFormatter name val) =>
    (name, if (LogFormatter.mk val).error then id else ({ · with formatter := some ⟨val⟩ }))
  | _ => ("root", id)

theorem LogOp.hasRoot_change (op : LogOp) (l : Logger) : (op.change.2 l).hasRoot = l.hasRoot := by
  cases op with
  | formatter op =>
      cases op with
      | setFormatter name val =>
          simp only [change]
          split <;> rfl
      | _ => rfl
  | _ => rfl

/-- **A call** makes a logger, or changes one. -/
theorem logStep_spec {op : LogOp} (hstep : m.logStep op = some m') :
    (∃ name, op = .formatter (.getLogger name) ∧ m' = (m.getLogger name).2) ∨
      Changes m op.change.1 op.change.2 m' := by
  cases op with
  | setLevel name val => exact .inr (Option.some.inj hstep ▸ changes_setLevel m name val)
  | setAppenderLevel p val =>
      simp only [logStep] at hstep
      split at hstep
      case isTrue => exact .inr (Option.some.inj hstep ▸ .id_of rfl)
      case isFalse => cases hstep
  | formatter op =>
      cases op with
      | getLogger name => exact .inl ⟨name, rfl, (Option.some.inj hstep).symm⟩
      | makeAppender kind => exact .inr (Option.some.inj hstep ▸ .id_of rfl)
      | addAppender name p =>
          simp only [logStep, formatterStep] at hstep
          split at hstep
          case isTrue hp => exact .inr (Option.some.inj hstep ▸ changes_addAppender m name hp)
          case isFalse => cases hstep
      | deleteAppender name p =>
          exact .inr (Option.some.inj hstep ▸ changes_deleteAppender m name p)
      | clearAppender name => exact .inr (Option.some.inj hstep ▸ changes_clearAppender m name)
      | setFormatterPtr name val =>
          exact .inr (Option.some.inj hstep ▸ changes_setFormatterPtr m name (some val))
      | setFormatter name val =>
          obtain rfl := Option.some.inj hstep
          refine .inr ?_
          rw [setFormatter, LogOp.change]
          split
          · exact .id_of rfl
          · exact changes_setFormatterPtr m name (some ⟨val⟩)
      | setAppenderFormatter p val =>
          simp only [logStep, formatterStep] at hstep
          split at hstep
          case isTrue => exact .inr (Option.some.inj hstep ▸ .id_of rfl)
          case isFalse => cases hstep

variable {f : Logger → Logger}

/-- A logger behind a change was there before. -/
theorem Changes.exists_before (h : Changes m name f m')
    (hlogger : m'.loggers name' = some logger) : ∃ before, m.loggers name' = some before ∧
      logger = if name' = name then f before else before := by
  rw [h name'] at hlogger
  split at hlogger
  case isTrue heq =>
    obtain ⟨before, hbefore, rfl⟩ := Option.map_eq_some_iff.mp hlogger
    exact ⟨before, heq ▸ hbefore, (if_pos heq).symm⟩
  case isFalse hne => exact ⟨logger, hlogger, (if_neg hne).symm⟩

theorem Changes.found (h : Changes m name f m') (hlogger : m.loggers name' = some logger) :
    m'.loggers name' = some (if name' = name then f logger else logger) := by
  rw [h name']
  split
  case isTrue heq => rw [← heq, hlogger, Option.map_some]
  case isFalse => exact hlogger

theorem Rooted.change (h : m.Rooted) (hchange : Changes m name f m')
    (hf : ∀ l, (f l).hasRoot = l.hasRoot) : m'.Rooted where
  exists_root := by
    obtain ⟨root, hroot, hbare⟩ := h.exists_root
    refine ⟨_, hchange.found hroot, ?_⟩
    split
    · exact (hf root).trans hbare
    · exact hbare
  hasRoot name' logger hlogger hne := by
    obtain ⟨before, hbefore, rfl⟩ := hchange.exists_before hlogger
    have hsome := h.hasRoot name' before hbefore hne
    split
    · exact (hf before).trans hsome
    · exact hsome

/-- A new logger has a level, and no appenders. -/
theorem loggers_getLogger (m : LoggerManager) (name name' : String) :
    (m.getLogger name).2.loggers name' = m.loggers name' ∨
      name' = name ∧ m.loggers name = none ∧
        (m.getLogger name).2.loggers name' = some (.make true) := by
  rw [getLogger]
  split
  case h_1 => exact .inl rfl
  case h_2 hnone =>
    rw [loggers_put]
    split
    case isTrue heq => exact .inr ⟨heq, hnone, rfl⟩
    case isFalse => exact .inl rfl

theorem root_getLogger (h : m.Rooted) (name : String) :
    (m.getLogger name).2.loggers "root" = m.loggers "root" := by
  rcases loggers_getLogger m name "root" with hsame | ⟨heq, hnone, -⟩
  · exact hsame
  · obtain ⟨root, hroot, -⟩ := h.exists_root
    rw [heq, hnone] at hroot
    cases hroot

theorem Rooted.getLogger (h : m.Rooted) (name : String) : (m.getLogger name).2.Rooted where
  exists_root := root_getLogger h name ▸ h.exists_root
  hasRoot name' logger hlogger hne := by
    rcases loggers_getLogger m name name' with hsame | ⟨-, -, hnew⟩
    · exact h.hasRoot name' logger (hsame ▸ hlogger) hne
    · obtain rfl := Option.some.inj (hnew.symm.trans hlogger)
      rfl

theorem Quiet.getLogger (h : m.Quiet) (hm : m.Rooted) (name : String) :
    (m.getLogger name).2.Quiet := by
  intro name' logger root hlogger hroot hoff
  rw [root_getLogger hm] at hroot
  rcases loggers_getLogger m name name' with hsame | ⟨-, -, hnew⟩
  · exact h name' logger root (hsame ▸ hlogger) hroot hoff
  · obtain rfl := Option.some.inj (hnew.symm.trans hlogger)
    cases hoff

/-- Changes that switch no logger off and give none an appender. -/
theorem Quiet.change (h : m.Quiet) (hchange : Changes m name f m')
    (hlevel : ∀ l, (f l).level = .OFF → l.level = .OFF)
    (happenders : ∀ l, l.appenders = [] → (f l).appenders = []) : m'.Quiet := by
  intro name' logger' root' hlogger' hroot' hoff
  obtain ⟨logger, hlogger, rfl⟩ := hchange.exists_before hlogger'
  obtain ⟨root, hroot, rfl⟩ := hchange.exists_before hroot'
  have hoff' : logger.level = .OFF := by
    split at hoff
    · exact hlevel logger hoff
    · exact hoff
  obtain ⟨hown, hempty⟩ := h name' logger root hlogger hroot hoff'
  constructor
  · split
    · exact happenders logger hown
    · exact hown
  · split
    · exact happenders root hempty
    · exact hempty

/-! ### Runs -/

/-- A logger is switched off when neither it nor the root has an appender. An appender is given to
a logger that is not `OFF`, and to the root when no logger is. -/
def Hushed (m : LoggerManager) : LogOp → Prop
  | .setLevel name .OFF => ∀ logger root, m.loggers name = some logger →
      m.loggers "root" = some root → logger.appenders = [] ∧ root.appenders = []
  | .formatter (.addAppender name _) => ∀ logger, m.loggers name = some logger →
      logger.level ≠ .OFF ∧
        (name = "root" → ∀ name' logger', m.loggers name' = some logger' → logger'.level ≠ .OFF)
  | _ => True

/-- A logger that is switched off. -/
theorem quiet_setLevel_OFF (h : m.Quiet) (name : String) :
    (m.setLevel name .OFF).Quiet ↔ m.Hushed (.setLevel name .OFF) := by
  have hchange := changes_setLevel m name .OFF
  constructor
  · intro hquiet logger root hlogger hroot
    have hempty := hquiet name _ _ (hchange.found hlogger) (hchange.found hroot)
      (by rw [if_pos rfl])
    obtain ⟨hown, hnone⟩ := hempty
    constructor
    · simpa using hown
    · split at hnone <;> exact hnone
  · intro hhushed name' logger' root' hlogger' hroot' hoff
    obtain ⟨logger, hlogger, rfl⟩ := hchange.exists_before hlogger'
    obtain ⟨root, hroot, rfl⟩ := hchange.exists_before hroot'
    have hempty : logger.appenders = [] ∧ root.appenders = [] := by
      split at hoff
      case isTrue heq => exact hhushed logger root (heq ▸ hlogger) hroot
      case isFalse => exact h name' logger root hlogger hroot hoff
    constructor
    · split <;> exact hempty.1
    · split <;> exact hempty.2

/-- A logger that gets an appender. -/
theorem quiet_addAppender (h : m.Quiet) (hm : m.Rooted) (name : String) (hp : p < m.objs.length) :
    (m.addAppender name p hp).Quiet ↔ m.Hushed (.formatter (.addAppender name p)) := by
  have hchange := changes_addAppender m name hp
  obtain ⟨root, hroot, -⟩ := hm.exists_root
  constructor
  · intro hquiet logger hlogger
    constructor
    · intro hoff
      have hempty := hquiet name _ _ (hchange.found hlogger) (hchange.found hroot)
        (by rw [if_pos rfl]; exact hoff)
      simpa using hempty.1
    · rintro rfl name' logger' hlogger' hoff
      have hoff' : (if name' = "root" then
          { logger' with appenders := logger'.appenders ++ [p] } else logger').level = .OFF := by
        split <;> exact hoff
      have hempty := hquiet name' _ _ (hchange.found hlogger') (hchange.found hroot) hoff'
      simpa using hempty.2
  · intro hhushed name' logger' root' hlogger' hroot' hoff
    obtain ⟨logger, hlogger, rfl⟩ := hchange.exists_before hlogger'
    obtain ⟨root₁, hroot₁, rfl⟩ := hchange.exists_before hroot'
    have hne : name' ≠ name := by
      rintro rfl
      rw [if_pos rfl] at hoff
      exact (hhushed logger hlogger).1 hoff
    rw [if_neg hne] at hoff ⊢
    have hne' : "root" ≠ name := by
      rintro rfl
      exact (hhushed root₁ hroot₁).2 rfl name' logger hlogger hoff
    rw [if_neg hne']
    exact h name' logger root₁ hlogger hroot₁ hoff

theorem Rooted.logStep {op : LogOp} (hstep : m.logStep op = some m') (h : m.Rooted) :
    m'.Rooted := by
  rcases logStep_spec hstep with ⟨name, -, rfl⟩ | hchange
  · exact h.getLogger name
  · exact h.change hchange op.hasRoot_change

/-- **One call** keeps the loggers that are `OFF` quiet if and only if it meets the condition. -/
theorem quiet_logStep_iff {op : LogOp} (hstep : m.logStep op = some m') (hm : m.Rooted)
    (h : m.Quiet) : m'.Quiet ↔ m.Hushed op := by
  rcases logStep_spec hstep with ⟨name, rfl, rfl⟩ | hchange
  · exact iff_of_true (h.getLogger hm name) trivial
  · cases op with
    | setLevel name val =>
        cases val with
        | OFF =>
            obtain rfl := Option.some.inj hstep
            exact quiet_setLevel_OFF h name
        | _ => exact iff_of_true (h.change hchange nofun fun _ hl => hl) trivial
    | setAppenderLevel p val =>
        exact iff_of_true (h.change hchange (fun _ hl => hl) fun _ hl => hl) trivial
    | formatter op =>
        cases op with
        | addAppender name p =>
            simp only [LoggerManager.logStep, formatterStep] at hstep
            split at hstep
            case isTrue hp =>
              obtain rfl := Option.some.inj hstep
              exact quiet_addAppender h hm name hp
            case isFalse => cases hstep
        | deleteAppender name p =>
            refine iff_of_true (h.change hchange (fun _ hl => hl) fun l hl => ?_) trivial
            simp [LogOp.change, hl]
        | clearAppender name =>
            exact iff_of_true (h.change hchange (fun _ hl => hl) fun _ _ => rfl) trivial
        | setFormatter name val =>
            refine iff_of_true (h.change hchange (fun l hl => ?_) fun l hl => ?_) trivial
            · simp only [LogOp.change] at hl
              split at hl <;> exact hl
            · simp only [LogOp.change]
              split <;> exact hl
        | _ => exact iff_of_true (h.change hchange (fun _ hl => hl) fun _ hl => hl) trivial

/-- The root is the only logger behind the constructor of the manager. -/
theorem loggers_start (h : LogState.start.manager.loggers name = some logger) :
    name = "root" ∧ logger = { Logger.make false with appenders := [0] } := by
  by_cases hname : name = "root"
  · subst hname
    exact ⟨rfl, (Option.some.inj h).symm⟩
  · have hnone : LogState.start.manager.loggers name = none :=
      (Function.update_of_ne hname _ _).trans (Function.update_of_ne hname _ _)
    rw [hnone] at h
    cases h

theorem rooted_start : LogState.start.manager.Rooted where
  exists_root := ⟨_, rfl, rfl⟩
  hasRoot _ _ hlogger hne := absurd (loggers_start hlogger).1 hne

theorem quiet_start : LogState.start.manager.Quiet := by
  intro name logger root hlogger _ hoff
  rw [(loggers_start hlogger).2] at hoff
  cases hoff

/-- **Loggers that are `OFF`** are silent along a run if and only if a logger is switched off only
when neither it nor the root has an appender, and no appender is given to one that is `OFF`, or to
the root while one is. -/
theorem silent_along_iff (ops : List LogOp) :
    logLts.Along Silent LogState.start.manager ops ↔
      logLts.Meets Hushed LogState.start.manager ops := by
  refine Lib.Lts.along_iff_meets (I := Rooted) (fun _ _ _ hstep h _ => h.logStep hstep) ?_
    rooted_start (rooted_start.silent_iff.mpr quiet_start) ops
  intro m op m' hstep hm hsilent
  rw [(hm.logStep hstep).silent_iff]
  exact quiet_logStep_iff hstep hm (hm.silent_iff.mp hsilent)

/-- A logger is switched off, as one is whose definition is deleted: its records go to the console
of the root. -/
theorem silent_along_false : ¬∀ ops, logLts.Along Silent LogState.start.manager ops := by
  intro h
  have hrun := h [.formatter (.getLogger "a"), .setLevel "a" .OFF, .formatter (.clearAppender "a")]
  have hlast : Silent _ := ((hrun.2 _ rfl).2 _ rfl).2 _ rfl
  have hlog := hlast "a" _ rfl rfl .INFO
  revert hlog
  decide +kernel

/-! ### The listener -/

/-- A run of calls leads from the one to the other. -/
def Leads (m m' : LoggerManager) : Prop := ∃ ops, logLts.run m ops = some m'

theorem Leads.refl (m : LoggerManager) : m.Leads m := ⟨[], rfl⟩

theorem Leads.trans {m'' : LoggerManager} (h : m.Leads m') (h' : m'.Leads m'') : m.Leads m'' := by
  obtain ⟨ops, hops⟩ := h
  obtain ⟨ops', hops'⟩ := h'
  exact ⟨ops ++ ops', Lib.Lts.run_append hops hops'⟩

theorem Leads.of_step (op : LogOp) (h : m.logStep op = some m') : m.Leads m' :=
  ⟨[op], by simp [Lib.Lts.run, logLts, h]⟩

theorem leads_getLogger (m : LoggerManager) (name : String) : m.Leads (m.getLogger name).2 :=
  .of_step (.formatter (.getLogger name)) rfl

theorem leads_setLevel (m : LoggerManager) (name : String) (val : LogLevel) :
    m.Leads (m.setLevel name val) := .of_step (.setLevel name val) rfl

theorem leads_clearAppender (m : LoggerManager) (name : String) :
    m.Leads (m.clearAppender name) := .of_step (.formatter (.clearAppender name)) rfl

/-- A new object is changed before it is attached. -/
theorem alloc_modify (m : LoggerManager) (ap : LogAppender) (g : LogAppender → LogAppender) :
    (m.alloc ap).withObjs ((m.alloc ap).objs.modify m.objs.length g) (by simp) =
      m.alloc (g ap) := by
  have hmodify : (m.objs ++ [ap]).modify m.objs.length g = m.objs ++ [g ap] :=
    List.modifyTailIdx_add _ 0 m.objs [ap]
  simp [alloc, withObjs, hmodify]

theorem leads_equip (m : LoggerManager) (kind : AppenderKind) (a : LogAppenderDefine) :
    m.Leads (m.alloc (equip (.make kind) a)) := by
  have hmake : m.Leads (m.alloc (.make kind)) :=
    .of_step (.formatter (.makeAppender kind)) rfl
  have hlevel : (m.alloc (.make kind)).Leads
      (m.alloc ((LogAppender.make kind).setLevel a.level)) := by
    refine .of_step (.setAppenderLevel m.objs.length a.level) ?_
    rw [logStep, if_pos (m.length_alloc_lt _), setAppenderLevel, alloc_modify]
  refine hmake.trans (hlevel.trans ?_)
  rw [equip]
  split
  · split
    · refine .of_step
        (.formatter (.setAppenderFormatter m.objs.length (some ⟨a.formatter⟩))) ?_
      rw [logStep, formatterStep, if_pos (m.length_alloc_lt _), setAppenderFormatter, alloc_modify]
    · exact .refl _
  · exact .refl _

theorem leads_attach (m : LoggerManager) (name : String) (kind : AppenderKind)
    (a : LogAppenderDefine) : m.Leads (m.attach name (equip (.make kind) a)) := by
  refine (leads_equip m kind a).trans ?_
  refine .of_step (.formatter (.addAppender name m.objs.length)) ?_
  rw [logStep, formatterStep, dif_pos (m.length_alloc_lt _), attach]

theorem leads_installAppender {d : Bool} {a : LogAppenderDefine}
    (h : installAppender d name m a = some m') : m.Leads m' := by
  rw [installAppender] at h
  split at h
  · exact Option.some.inj h ▸ leads_attach m name _ a
  · split at h
    · split at h
      · exact Option.some.inj h ▸ leads_attach m name _ a
      · exact Option.some.inj h ▸ .refl m
    · cases h

theorem leads_prepare (m : LoggerManager) (i : LogDefine) : m.Leads (m.prepare i) := by
  rw [prepare]
  refine (leads_getLogger m i.name).trans ((leads_setLevel _ i.name i.level).trans ?_)
  split
  · have hformatter : ∀ m : LoggerManager, m.Leads (m.setFormatter i.name i.formatter) := fun m =>
      .of_step (.formatter (.setFormatter i.name i.formatter)) rfl
    exact (hformatter _).trans (leads_clearAppender _ i.name)
  · exact leads_clearAppender _ i.name

/-- A loop whose body is a run. -/
theorem leads_foldlM {β : Type} {body : LoggerManager → β → Option LoggerManager}
    (hbody : ∀ m b m', body m b = some m' → m.Leads m') {bs : List β}
    (h : bs.foldlM body m = some m') : m.Leads m' := by
  induction bs generalizing m with
  | nil => exact Option.some.inj h ▸ .refl m
  | cons b bs ih =>
      rw [List.foldlM_cons] at h
      obtain ⟨m₁, h₁, h₂⟩ := Option.bind_eq_some_iff.mp h
      exact (hbody m b m₁ h₁).trans (ih h₂)

theorem leads_update {d : Bool} {old_value : LogDefines} {i : LogDefine}
    (h : update d old_value m i = some m') : m.Leads m' := by
  have hconfigure : ∀ m', configure d m i = some m' → m.Leads m' := fun m' h =>
    (leads_prepare m i).trans (leads_foldlM (fun _ _ _ => leads_installAppender) h)
  rw [update] at h
  split at h
  · exact hconfigure m' h
  · split at h
    · exact hconfigure m' h
    · exact Option.some.inj h ▸ .refl m

theorem leads_remove (new_value : LogDefines) (m : LoggerManager) (i : LogDefine) :
    m.Leads (remove new_value m i) := by
  rw [remove]
  split
  · exact (leads_getLogger m i.name).trans ((leads_setLevel _ _ _).trans (leads_clearAppender _ _))
  · exact .refl m

/-- **The listener** makes a run of calls, so that the configurations it leaves are reached. -/
theorem leads_onLoggerConfChanged {d : Bool} {old_value new_value : LogDefines}
    (h : m.onLoggerConfChanged d old_value new_value = some m') : m.Leads m' := by
  rw [onLoggerConfChanged] at h
  obtain ⟨m₁, h₁, h₂⟩ := Option.bind_eq_some_iff.mp h
  obtain rfl := Option.some.inj h₂
  refine (leads_foldlM (fun _ _ _ => leads_update) h₁).trans ?_
  have hremoves : ∀ (defs : List LogDefine) (m : LoggerManager),
      m.Leads (defs.foldl (remove new_value) m) := by
    intro defs
    induction defs with
    | nil => exact fun m => .refl m
    | cons i defs ih => exact fun m => (leads_remove new_value m i).trans (ih _)
  exact hremoves old_value.defs m₁

theorem getLogger_found (m : LoggerManager) (name : String) :
    (m.getLogger name).2.loggers name = some (m.getLogger name).1 := by
  rw [getLogger]
  split
  case h_1 logger hlogger => exact hlogger
  case h_2 => exact Function.update_self ..

/-- **A logger whose definition is deleted** has each record written by the appenders of the
root. -/
theorem elogLevel_remove (h : m.Rooted) {new_value : LogDefines} {i : LogDefine}
    (hdeleted : new_value.find i = none) (hname : i.name ≠ "root")
    (hroot : m.loggers "root" = some root) (level : LogLevel) :
    (remove new_value m i).elogLevel i.name level = some (m.written root.appenders level) := by
  have hremove : remove new_value m i =
      ((m.getLogger i.name).2.setLevel i.name .OFF).clearAppender i.name := by rw [remove, hdeleted]
  have hlevel := changes_setLevel (m.getLogger i.name).2 i.name .OFF
  have hclear := changes_clearAppender ((m.getLogger i.name).2.setLevel i.name .OFF) i.name
  have hrooted : (remove new_value m i).Rooted := by
    rw [hremove]
    exact ((h.getLogger i.name).change hlevel fun _ => rfl).change hclear fun _ => rfl
  have hlogger : (remove new_value m i).loggers i.name =
      some { (m.getLogger i.name).1 with level := .OFF, appenders := [] } := by
    rw [hremove, hclear.found (hlevel.found (m.getLogger_found i.name)), if_pos rfl, if_pos rfl]
  have hroot' : (remove new_value m i).loggers "root" = some root := by
    rw [← root_getLogger h i.name] at hroot
    rw [hremove, hclear.found (hlevel.found hroot), if_neg hname.symm, if_neg hname.symm]
  have hobjs : (remove new_value m i).objs = m.objs := by simp [hremove]
  rw [ELOG_LEVEL_OFF hlogger rfl, log_bare hrooted hlogger rfl hroot', written, written, hobjs]

end LoggerManager

end Easy.Base
