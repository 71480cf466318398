import Easy.Lib.Lts
import Easy.Base.Logger

/-!
The formatters of attached appenders (`easy/base/Logger.cc`, `LogAppender.cc`).

A logger pushes its formatter to its appenders when they are attached and when it gets
another one. `addAppender` asks whether the appender has any formatter, not whether it has its
own, so that one with the formatter of another logger keeps it. `LogAppender::setFormatter`
does not know the logger, so that one whose own formatter is taken away has none.
-/

namespace Easy.Base

/-! ### `log` of an appender -/

namespace LogAppender

/-- `shouldLog` -/
def shouldLog (ap : LogAppender) (level : LogLevel) : Bool := ap.level.ctorIdx ≤ level.ctorIdx

/-- The color that the console has for a record. -/
def color : LogLevel → String
  | .WARN => "\x1B[93m"
  | .ERROR => "\x1B[91m"
  | .FATAL => "\x1B[97m\x1B[41m"
  | _ => ""

def cleanColor (level : LogLevel) : String :=
  if LogLevel.WARN.ctorIdx ≤ level.ctorIdx then "\x1B[0m\x1B[0K" else ""

/-- What `log` writes of a record whose text by a formatter is `format`. It is `none` where
`formatter_` is null and `log` uses it. -/
def log (ap : LogAppender) (format : LogFormatter → String) (level : LogLevel) : Option String :=
  if ap.shouldLog level then
    match ap.kind with
    | .console => ap.formatter.map fun f => color level ++ format f ++ cleanColor level
    | .file _ => ap.formatter.map format
  else some ""

theorem isSome_log {ap : LogAppender} (h : ap.formatter.isSome) (format : LogFormatter → String)
    (level : LogLevel) : (ap.log format level).isSome := by
  rw [log]
  split
  case isTrue => split <;> rwa [Option.isSome_map]
  case isFalse => rfl

theorem inherit_own {ap : LogAppender} (h : ap.hasFormatter) (val : Option LogFormatter) :
    ap.inherit val = ap := by
  rw [inherit, h]
  rfl

theorem inherit_other {ap : LogAppender} (h : ap.hasFormatter = false)
    (val : Option LogFormatter) : ap.inherit val = { ap with formatter := val } := by
  rw [inherit, h]
  rfl

/-- What `addAppender` leaves of an appender. -/
def borrow (val : Option LogFormatter) (ap : LogAppender) : LogAppender :=
  if ap.formatter.isNone then { ap with formatter := val } else ap

theorem borrow_of_isSome {ap : LogAppender} (h : ap.formatter.isSome) (val : Option LogFormatter) :
    ap.borrow val = ap := by
  rw [borrow, if_neg]
  simpa using Option.isSome_iff_ne_none.mp h

theorem borrow_of_none {ap : LogAppender} (h : ap.formatter = none) (val : Option LogFormatter) :
    ap.borrow val = { ap with formatter := val } := by
  rw [borrow, h]
  rfl

@[simp] theorem hasFormatter_borrow (ap : LogAppender) (val : Option LogFormatter) :
    (ap.borrow val).hasFormatter = ap.hasFormatter := by
  rw [borrow]
  split <;> rfl

theorem isSome_borrow (ap : LogAppender) {val : Option LogFormatter} (h : val.isSome) :
    (ap.borrow val).formatter.isSome := by
  cases hf : ap.formatter with
  | none => rwa [borrow_of_none hf]
  | some f =>
      have hsome : ap.formatter.isSome := hf ▸ rfl
      rwa [borrow_of_isSome hsome]

end LogAppender

/-! ### The operations -/

namespace LoggerManager

variable {m m' : LoggerManager} {name name' : String} {logger logger' : Logger} {p : ℕ}
  {ap : LogAppender}

/-- `Logger::deleteAppender`; `std::list::erase` of the first one found. -/
def deleteAppender (m : LoggerManager) (name : String) (p : ℕ) : LoggerManager :=
  match h : m.loggers name with
  | none => m
  | some logger =>
    m.put name { logger with appenders := logger.appenders.erase p } fun q hq =>
      m.valid name logger h q (List.mem_of_mem_erase hq)

/-- `LogAppender::setFormatter` -/
def setAppenderFormatter (m : LoggerManager) (p : ℕ) (val : Option LogFormatter) :
    LoggerManager :=
  m.withObjs (m.objs.modify p (·.setFormatter val)) (by simp)

/-- A call on a logger or an appender. A logger that is made without the manager is one of a
name of its own. -/
inductive FormatterOp
  | getLogger (name : String)
  | makeAppender (kind : AppenderKind)
  | addAppender (name : String) (p : ℕ)
  | deleteAppender (name : String) (p : ℕ)
  | clearAppender (name : String)
  | setFormatterPtr (name : String) (val : LogFormatter)
  | setFormatter (name : String) (val : String)
  | setAppenderFormatter (p : ℕ) (val : Option LogFormatter)

/-- What a call does. Appenders are there before they are used. -/
def formatterStep (m : LoggerManager) : FormatterOp → Option LoggerManager
  | .getLogger name => some (m.getLogger name).2
  | .makeAppender kind => some (m.alloc (.make kind))
  | .addAppender name p => if h : p < m.objs.length then some (m.addAppender name p h) else none
  | .deleteAppender name p => some (m.deleteAppender name p)
  | .clearAppender name => some (m.clearAppender name)
  | .setFormatterPtr name val => some (m.setFormatterPtr name (some val))
  | .setFormatter name val => some (m.setFormatter name val)
  | .setAppenderFormatter p val =>
    if p < m.objs.length then some (m.setAppenderFormatter p val) else none

/-- Loggers and appenders as they are made. -/
structure New (m : LoggerManager) : Prop where
  loggers : ∀ name logger, m.loggers name = some logger → ∃ hasRoot, logger = .make hasRoot
  objs : ∀ ap ∈ m.objs, ∃ kind, ap = .make kind

/-- Runs of calls. -/
def formatterLts : Lib.Lts LoggerManager FormatterOp := ⟨New, formatterStep⟩

/-! ### Attached appenders -/

/-- The appender `p`, which is `ap`, is attached to the logger of a name. -/
structure Attached (m : LoggerManager) (name : String) (logger : Logger) (p : ℕ)
    (ap : LogAppender) : Prop where
  found : m.loggers name = some logger
  mem : p ∈ logger.appenders
  obj : m.objs[p]? = some ap

/-- No appender is attached to two loggers. -/
def Single (m : LoggerManager) : Prop := ∀ name name' logger logger' p,
  m.loggers name = some logger → m.loggers name' = some logger' → p ∈ logger.appenders →
    p ∈ logger'.appenders → name = name'

/-- Attached appenders have a formatter, with which they can write every record, and it is
their own or the present one of their logger. -/
structure Formatted (m : LoggerManager) : Prop where
  formatter : ∀ name logger p ap, m.Attached name logger p ap → ap.formatter.isSome
  log : ∀ name logger p ap, m.Attached name logger p ap →
    ∀ format level, (ap.log format level).isSome
  inherited : ∀ name logger p ap, m.Attached name logger p ap → ap.hasFormatter = false →
    ap.formatter = logger.formatter

/-- The loggers have a formatter, the appenders with a formatter of their own have one, and
the others that are attached have that of their logger. -/
structure Inherits (m : LoggerManager) : Prop where
  default : ∀ name logger, m.loggers name = some logger → logger.formatter.isSome
  own : ∀ (p : ℕ) (ap : LogAppender), m.objs[p]? = some ap → ap.hasFormatter →
    ap.formatter.isSome
  inherited : ∀ name logger p ap, m.Attached name logger p ap → ap.hasFormatter = false →
    ap.formatter = logger.formatter

theorem Inherits.isSome (h : m.Inherits) (hap : m.Attached name logger p ap) :
    ap.formatter.isSome := by
  cases hown : ap.hasFormatter with
  | true => exact h.own p ap hap.obj hown
  | false =>
      rw [h.inherited name logger p ap hap hown]
      exact h.default name logger hap.found

theorem Inherits.formatted (h : m.Inherits) : m.Formatted where
  formatter _ _ _ _ hap := h.isSome hap
  log _ _ _ _ hap format level := LogAppender.isSome_log (h.isSome hap) format level
  inherited := h.inherited

theorem New.inherits (h : m.New) : m.Inherits where
  default name logger hlogger := by
    obtain ⟨hasRoot, rfl⟩ := h.loggers name logger hlogger
    rfl
  own p ap hap hown := by
    obtain ⟨kind, rfl⟩ := h.objs ap (List.mem_of_getElem? hap)
    cases hown
  inherited name logger p ap hap := by
    obtain ⟨hasRoot, rfl⟩ := h.loggers name logger hap.found
    exact absurd hap.mem List.not_mem_nil

/-! ### What the operations keep -/

/-- A store to a logger whose appenders have its formatter or their own. The objects need be as
they should for the other loggers only. -/
theorem inherits_put (hlt : ∀ p ∈ logger.appenders, p < m.objs.length)
    (hdefault : ∀ name' logger', m.loggers name' = some logger' → logger'.formatter.isSome)
    (hown : ∀ (p : ℕ) (ap : LogAppender), m.objs[p]? = some ap → ap.hasFormatter →
      ap.formatter.isSome)
    (hothers : ∀ name', name' ≠ name → ∀ logger' p ap, m.Attached name' logger' p ap →
      ap.hasFormatter = false → ap.formatter = logger'.formatter)
    (hsome : logger.formatter.isSome)
    (hself : ∀ p ∈ logger.appenders, ∀ ap, m.objs[p]? = some ap → ap.hasFormatter = false →
      ap.formatter = logger.formatter) : (m.put name logger hlt).Inherits where
  default name' logger' hlogger := by
    rw [loggers_put] at hlogger
    split at hlogger
    · exact Option.some.inj hlogger ▸ hsome
    · exact hdefault name' logger' hlogger
  own := hown
  inherited name' logger' p ap hap hfalse := by
    obtain ⟨hlogger, hmem, hobj⟩ := hap
    rw [loggers_put] at hlogger
    split at hlogger
    case isTrue =>
      obtain rfl := Option.some.inj hlogger
      exact hself p hmem ap hobj hfalse
    case isFalse hne => exact hothers name' hne logger' p ap ⟨hlogger, hmem, hobj⟩ hfalse

theorem Inherits.put (h : m.Inherits) (hlt : ∀ p ∈ logger.appenders, p < m.objs.length)
    (hsome : logger.formatter.isSome)
    (hself : ∀ p ∈ logger.appenders, ∀ ap, m.objs[p]? = some ap → ap.hasFormatter = false →
      ap.formatter = logger.formatter) : (m.put name logger hlt).Inherits :=
  inherits_put hlt h.default h.own (fun name' _ => h.inherited name') hsome hself

/-- A logger that is left with some of its appenders. -/
theorem Inherits.put_subset (h : m.Inherits) (hlogger : m.loggers name = some logger)
    {ps : List ℕ} (hlt : ∀ p ∈ ps, p < m.objs.length) (hps : ∀ p ∈ ps, p ∈ logger.appenders) :
    (m.put name { logger with appenders := ps } hlt).Inherits :=
  h.put _ (h.default name logger hlogger) fun p hp ap hobj hown =>
    h.inherited name logger p ap ⟨hlogger, hps p hp, hobj⟩ hown

theorem Inherits.getLogger (h : m.Inherits) : (m.getLogger name).2.Inherits := by
  rw [LoggerManager.getLogger]
  split
  case h_1 => exact h
  case h_2 =>
    have hnone : ∀ p : ℕ, p ∉ (Logger.make true).appenders := fun _ => List.not_mem_nil
    exact h.put (fun p hp => absurd hp (hnone p)) rfl fun p hp => absurd hp (hnone p)

theorem Inherits.deleteAppender (h : m.Inherits) : (m.deleteAppender name p).Inherits := by
  rw [LoggerManager.deleteAppender]
  split
  case h_1 => exact h
  case h_2 logger hlogger => exact h.put_subset hlogger _ fun q hq => List.mem_of_mem_erase hq

theorem Inherits.clearAppender (h : m.Inherits) : (m.clearAppender name).Inherits := by
  rw [LoggerManager.clearAppender]
  split
  case h_1 => exact h
  case h_2 logger hlogger =>
    exact h.put_subset hlogger _ fun q hq => absurd hq List.not_mem_nil

/-- A new appender is not attached. -/
theorem Inherits.alloc (h : m.Inherits) (kind : AppenderKind) :
    (m.alloc (.make kind)).Inherits where
  default := h.default
  own p ap hobj hown := by
    rcases List.mem_append.mp (List.mem_of_getElem? hobj) with hmem | hmem
    · obtain ⟨q, hq⟩ := List.getElem?_of_mem hmem
      exact h.own q ap hq hown
    · obtain rfl := List.mem_singleton.mp hmem
      cases hown
  inherited name logger p ap hap hown := by
    have hobj := hap.obj
    rw [LoggerManager.alloc,
      List.getElem?_append_left (m.valid name logger hap.found p hap.mem)] at hobj
    exact h.inherited name logger p ap ⟨hap.found, hap.mem, hobj⟩ hown

/-- **A logger's formatter** reaches its appenders, which no other logger has. -/
theorem Inherits.setFormatterPtr (h : m.Inherits) (hsingle : m.Single) (val : LogFormatter) :
    (m.setFormatterPtr name (some val)).Inherits := by
  rw [LoggerManager.setFormatterPtr]
  split
  case h_1 => exact h
  case h_2 logger hlogger =>
    have hobjs : ∀ p ap, (m.objs.mapIdx fun p ap =>
        if p ∈ logger.appenders then ap.inherit (some val) else ap)[p]? = some ap →
          ∃ ap', m.objs[p]? = some ap' ∧
            ap = if p ∈ logger.appenders then ap'.inherit (some val) else ap' := by
      intro p ap hap
      rw [List.getElem?_mapIdx] at hap
      obtain ⟨ap', hap', heq⟩ := Option.map_eq_some_iff.mp hap
      exact ⟨ap', hap', heq.symm⟩
    refine inherits_put _ h.default ?_ ?_ rfl ?_
    · intro p ap hap hown
      obtain ⟨ap', hap', rfl⟩ := hobjs p ap hap
      have hsome := h.own p ap' hap'
      cases hap'own : ap'.hasFormatter with
      | true =>
          rw [LogAppender.inherit_own hap'own, ite_self]
          exact hsome hap'own
      | false =>
          rw [LogAppender.inherit_other hap'own] at hown ⊢
          split
          case isTrue => rfl
          case isFalse hmem =>
            rw [if_neg hmem] at hown
            exact hsome hown
    · rintro name' hne logger' p ap ⟨hlogger', hmem, hap⟩ hown
      obtain ⟨ap', hap', rfl⟩ := hobjs p ap hap
      have hother : p ∉ logger.appenders := fun hmem' =>
        hne (hsingle name' name logger' logger p hlogger' hlogger hmem hmem')
      rw [if_neg hother] at hown ⊢
      exact h.inherited name' logger' p ap' ⟨hlogger', hmem, hap'⟩ hown
    · intro p hmem ap hap hown
      obtain ⟨ap', hap', rfl⟩ := hobjs p ap hap
      rw [if_pos hmem] at hown ⊢
      cases hap'own : ap'.hasFormatter with
      | true =>
          rw [LogAppender.inherit_own hap'own, hap'own] at hown
          cases hown
      | false => rw [LogAppender.inherit_other hap'own]

/-! ### What the two other operations may do -/

/-- The appender that a call of `addAppender` is for has a formatter of its own, or that of the
logger, or none. One that loses its formatter is not attached. -/
def Spares (m : LoggerManager) : FormatterOp → Prop
  | .addAppender name p => ∀ logger ap, m.loggers name = some logger → m.objs[p]? = some ap →
      ap.hasFormatter = false → ap.formatter = none ∨ ap.formatter = logger.formatter
  | .setAppenderFormatter p none => ∀ name logger, m.loggers name = some logger →
      p ∉ logger.appenders
  | _ => True

/-- The objects after a change of one of them. -/
theorem exists_of_modify {objs : List LogAppender} {g : LogAppender → LogAppender} {q : ℕ}
    (h : (objs.modify p g)[q]? = some ap) :
    ∃ ap', objs[q]? = some ap' ∧ ap = if p = q then g ap' else ap' := by
  rw [List.getElem?_modify] at h
  obtain ⟨ap', hap', heq⟩ := Option.map_eq_some_iff.mp h
  exact ⟨ap', hap', heq.symm⟩

theorem Inherits.addAppender (h : m.Inherits) (hp : p < m.objs.length)
    (hspares : m.Spares (.addAppender name p)) : (m.addAppender name p hp).Inherits := by
  rw [LoggerManager.addAppender]
  split
  case h_1 => exact h
  case h_2 logger hlogger =>
    have hsome := h.default name logger hlogger
    -- the objects that are attached somewhere stay as they are
    have hattached : ∀ name' logger' q ap, m.loggers name' = some logger' →
        q ∈ logger'.appenders → (m.objs.modify p (·.borrow logger.formatter))[q]? = some ap →
          m.Attached name' logger' q ap := by
      intro name' logger' q ap hlogger' hmem hap
      obtain ⟨ap', hap', rfl⟩ := exists_of_modify (g := (·.borrow logger.formatter)) hap
      have hap'some := h.isSome ⟨hlogger', hmem, hap'⟩
      rw [LogAppender.borrow_of_isSome hap'some, ite_self]
      exact ⟨hlogger', hmem, hap'⟩
    refine inherits_put _ h.default ?_ ?_ hsome ?_
    · intro q ap hap hown
      obtain ⟨ap', hap', rfl⟩ := exists_of_modify (g := (·.borrow logger.formatter)) hap
      split
      case isTrue => exact ap'.isSome_borrow hsome
      case isFalse hne =>
        rw [if_neg hne] at hown
        exact h.own q ap' hap' hown
    · rintro name' - logger' q ap ⟨hlogger', hmem, hap⟩
      exact h.inherited name' logger' q ap (hattached name' logger' q ap hlogger' hmem hap)
    · intro q hmem ap hap hown
      rcases List.mem_append.mp hmem with hmem | hmem
      · exact h.inherited name logger q ap (hattached name logger q ap hlogger hmem hap) hown
      · obtain ⟨ap', hap', rfl⟩ := exists_of_modify (g := (·.borrow logger.formatter)) hap
        obtain rfl := List.mem_singleton.mp hmem
        rw [if_pos rfl] at hown ⊢
        rw [LogAppender.hasFormatter_borrow] at hown
        rcases hspares logger ap' hlogger hap' hown with hnone | hsame
        · rw [LogAppender.borrow_of_none hnone]
        · rwa [LogAppender.borrow_of_isSome (hsame ▸ hsome)]

theorem Inherits.setAppenderFormatter (h : m.Inherits) {val : Option LogFormatter}
    (hspares : m.Spares (.setAppenderFormatter p val)) :
    (m.setAppenderFormatter p val).Inherits := by
  refine ⟨h.default, ?_, ?_⟩
  · intro q ap hap hown
    obtain ⟨ap', hap', rfl⟩ := exists_of_modify hap
    split at hown
    case isTrue heq =>
      rw [if_pos heq]
      exact hown
    case isFalse hne =>
      rw [if_neg hne]
      exact h.own q ap' hap' hown
  · rintro name logger q ap ⟨hlogger, hmem, hap⟩ hown
    obtain ⟨ap', hap', rfl⟩ := exists_of_modify hap
    split at hown
    case isTrue heq =>
      subst heq
      cases val with
      | none => exact absurd hmem (hspares name logger hlogger)
      | some f => cases hown
    case isFalse hne =>
      rw [if_neg hne]
      exact h.inherited name logger q ap' ⟨hlogger, hmem, hap'⟩ hown

/-- **A step** that meets the condition leaves the appenders as they should be. -/
theorem Inherits.step {op : FormatterOp} (hstep : m.formatterStep op = some m')
    (hsingle : m.Single) (h : m.Inherits) (hspares : m.Spares op) : m'.Inherits := by
  cases op with
  | getLogger name => exact Option.some.inj hstep ▸ h.getLogger
  | makeAppender kind => exact Option.some.inj hstep ▸ h.alloc kind
  | addAppender name p =>
      simp only [formatterStep] at hstep
      split at hstep
      case isTrue hp => exact Option.some.inj hstep ▸ h.addAppender hp hspares
      case isFalse => cases hstep
  | deleteAppender name p => exact Option.some.inj hstep ▸ h.deleteAppender
  | clearAppender name => exact Option.some.inj hstep ▸ h.clearAppender
  | setFormatterPtr name val => exact Option.some.inj hstep ▸ h.setFormatterPtr hsingle val
  | setFormatter name val =>
      obtain rfl := Option.some.inj hstep
      rw [LoggerManager.setFormatter]
      split
      · exact h
      · exact h.setFormatterPtr hsingle _
  | setAppenderFormatter p val =>
      simp only [formatterStep] at hstep
      split at hstep
      case isTrue => exact Option.some.inj hstep ▸ h.setAppenderFormatter hspares
      case isFalse => cases hstep

/-- An appender with a formatter is attached as it is. -/
theorem attached_addAppender (hlogger : m.loggers name = some logger) (hp : p < m.objs.length)
    (hap : m.objs[p]? = some ap) (hsome : ap.formatter.isSome) :
    (m.addAppender name p hp).Attached name
      { logger with appenders := logger.appenders ++ [p] } p ap := by
  rw [LoggerManager.addAppender]
  split
  case h_1 hnone =>
    rw [hlogger] at hnone
    cases hnone
  case h_2 logger' hlogger' =>
    obtain rfl := Option.some.inj (hlogger.symm.trans hlogger')
    refine ⟨by simp [loggers_put], by simp, ?_⟩
    change (m.objs.modify p (·.borrow logger.formatter))[p]? = some ap
    simp [hap, LogAppender.borrow_of_isSome hsome]

/-- **The other steps** leave an attached appender that is not. -/
theorem not_formatted_step {op : FormatterOp} (hstep : m.formatterStep op = some m')
    (h : ¬m.Spares op) : ¬m'.Formatted := by
  intro hformatted
  cases op with
  | addAppender name p =>
      simp only [formatterStep] at hstep
      split at hstep
      case isFalse => cases hstep
      case isTrue hp =>
        obtain rfl := Option.some.inj hstep
        refine h fun logger ap hlogger hap hown => ?_
        by_contra hstale
        obtain ⟨hsome, hother⟩ := not_or.mp hstale
        have hattached := attached_addAppender hlogger hp hap (Option.isSome_iff_ne_none.mpr hsome)
        have hsame := hformatted.inherited _ _ _ _ hattached hown
        exact hother hsame
  | setAppenderFormatter p val =>
      simp only [formatterStep] at hstep
      split at hstep
      case isFalse => cases hstep
      case isTrue hp =>
        obtain rfl := Option.some.inj hstep
        cases val with
        | some f => exact h trivial
        | none =>
            refine h fun name logger hlogger hmem => ?_
            have hap : (m.setAppenderFormatter p none).Attached name logger p
                ((m.objs[p]).setFormatter none) :=
              ⟨hlogger, hmem, by simp [setAppenderFormatter, withObjs, hp]⟩
            have hsome := hformatted.formatter name logger p _ hap
            cases hsome
  | _ => exact h trivial

/-- **Formatters of attached appenders.** In a run in which no appender is attached to two
loggers, the attached appenders have their own formatter, or the present one of their logger,
if and only if all steps meet the condition. -/
theorem formatted_along_iff {ops : List FormatterOp} (hs : formatterLts.init m)
    (hsingle : formatterLts.Along Single m ops) :
    formatterLts.Along Formatted m ops ↔ formatterLts.Meets Spares m ops :=
  Lib.Lts.along_iff_meets_within (T := formatterLts) (J := Inherits)
    (fun _ => Inherits.formatted)
    (fun _ _ _ hstep hsingle h hspares => h.step hstep hsingle hspares)
    (fun _ _ _ hstep _ _ hspares => not_formatted_step hstep hspares) (New.inherits hs) hsingle

theorem single_of_one {a : String} (h : ∀ name, name ≠ a → m.loggers name = none) : m.Single := by
  have heq : ∀ name logger, m.loggers name = some logger → name = a := by
    intro name logger hlogger
    by_contra hne
    rw [h name hne] at hlogger
    cases hlogger
  intro name name' logger logger' p hlogger hlogger' _ _
  rw [heq name logger hlogger, heq name' logger' hlogger']

/-- A logger, and a console appender that is not attached. -/
def oneLogger : LoggerManager :=
  ((⟨fun _ => none, [], fun _ _ h => (by cases h)⟩ : LoggerManager).put "a" (.make true)
    fun _ hp => absurd hp List.not_mem_nil).alloc (.make .console)

theorem new_oneLogger : formatterLts.init oneLogger where
  loggers name logger hlogger := by
    by_cases hname : name = "a"
    · subst hname
      exact ⟨true, (Option.some.inj hlogger).symm⟩
    · cases (Function.update_of_ne hname _ _).symm.trans hlogger
  objs ap hap := ⟨.console, List.mem_singleton.mp hap⟩

/-- The appender is attached, and a call follows. -/
theorem along_single_attached {op : FormatterOp} (h : ∀ m',
    (oneLogger.addAppender "a" 0 Nat.zero_lt_one).formatterStep op = some m' →
      ∀ name, name ≠ "a" → m'.loggers name =
        (oneLogger.addAppender "a" 0 Nat.zero_lt_one).loggers name) :
    formatterLts.Along Single oneLogger [.addAppender "a" 0, op] := by
  have hone : ∀ name, name ≠ "a" → oneLogger.loggers name = none := fun _ hne =>
    Function.update_of_ne hne _ _
  have hattached : ∀ name, name ≠ "a" →
      (oneLogger.addAppender "a" 0 Nat.zero_lt_one).loggers name = none := fun name hne =>
    (Function.update_of_ne hne _ _).trans (hone name hne)
  refine ⟨single_of_one hone, fun s' hs' => ?_⟩
  obtain rfl := Option.some.inj hs'
  refine ⟨single_of_one hattached, fun s' hs' => ?_⟩
  exact single_of_one fun name hne => (h s' hs' name hne).trans (hattached name hne)

/-- An appender that is attached, and gets the formatter of the logger twice. -/
theorem formatted_along_pushed :
    formatterLts.Along Formatted oneLogger [.addAppender "a" 0, .setFormatterPtr "a" ⟨"%m"⟩] := by
  refine (formatted_along_iff new_oneLogger (along_single_attached ?_)).mpr ?_
  · intro m' hm' name hne
    obtain rfl := Option.some.inj hm'
    exact Function.update_of_ne hne _ _
  · refine fun s' hs' => ⟨fun logger ap _ hap _ => .inl ?_, fun _ _ => ⟨trivial, trivial⟩⟩
    obtain rfl := Option.some.inj hap
    rfl

/-- An attached appender that is given the null formatter. -/
theorem formatted_along_false : formatterLts.init oneLogger ∧
    formatterLts.Along Single oneLogger [.addAppender "a" 0, .setAppenderFormatter 0 none] ∧
      ¬formatterLts.Along Formatted oneLogger
        [.addAppender "a" 0, .setAppenderFormatter 0 none] := by
  refine ⟨new_oneLogger, along_single_attached fun m' hm' name _ => ?_, fun h => ?_⟩
  · obtain rfl := Option.some.inj hm'
    rfl
  · have hlast : Formatted _ := (h.2 _ rfl).2 _ rfl
    have hsome := hlast.formatter "a" _ 0 _ ⟨rfl, List.mem_singleton_self _, rfl⟩
    cases hsome

end LoggerManager

end Easy.Base
