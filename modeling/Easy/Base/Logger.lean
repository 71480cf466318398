import Easy.Base.LogDefine

/-!
Loggers, appenders and formatters (`easy/base/Logger.cc`, `LogAppender.cc`,
`LogFormatter.cc`).

An appender is an object that loggers hold pointers to; appenders live in `objs`, and a
pointer to one is its index. A logger is the object that the manager's map has for its name,
which it never replaces. A formatter does not change once it is made, so it stands for
itself. The files of appenders and what they write are left out.
-/

namespace Easy.Base

/-! ### Formatters -/

inductive STATUS
  | UNIT
  | STR
  deriving DecidableEq, Repr

/-- The classes of format units, by the table `s_format_units`. -/
inductive UnitClass
  | message
  | level
  | elapse
  | name
  | threadId
  | newLine
  | dateTime
  | filename
  | function
  | line
  | tab
  | space
  | fiberId
  | threadName
  deriving DecidableEq, Repr

/-- An element of `units_`: text, or a unit of a class made with its argument. -/
inductive FormatUnit
  | string (str : String)
  | directive (cls : UnitClass) (fmt : String)
  deriving DecidableEq, Repr

/-- `s_format_units.find` -/
def sFormatUnits : Char → Option UnitClass
  | 'm' => some .message
  | 'p' => some .level
  | 'r' => some .elapse
  | 'c' => some .name
  | 't' => some .threadId
  | 'n' => some .newLine
  | 'd' => some .dateTime
  | 'F' => some .filename
  | 'f' => some .function
  | 'L' => some .line
  | 'T' => some .tab
  | 'b' => some .space
  | 'C' => some .fiberId
  | 'N' => some .threadName
  | _ => none

/-- The argument in braces in front of a list, and what follows it. -/
def braces : List Char → Option (String × List Char)
  | '{' :: cs =>
    if '}' ∈ cs then some (.ofList (cs.takeWhile (· ≠ '}')), (cs.dropWhile (· ≠ '}')).drop 1)
    else none
  | _ => none

/-- The first loop of `compile`: the elements of `units`. The fuel is the number of
characters. -/
def scan : ℕ → STATUS → List Char → List (Char × String × STATUS)
  | 0, _, _ => []
  | _ + 1, _, [] => []
  | fuel + 1, .STR, c :: cs =>
    if c = '%' then scan fuel .UNIT cs else (c, "", .STR) :: scan fuel .STR cs
  | fuel + 1, .UNIT, c :: cs =>
    match braces cs with
    | some (arg, rest) => (c, arg, .UNIT) :: scan fuel .STR rest
    | none => (c, "", .UNIT) :: scan fuel .STR cs

/-- The second loop of `compile`: an element of `units_`, and whether it sets `error_`. -/
def compileUnit : Char × String × STATUS → FormatUnit × Bool
  | (a, _, .STR) => (.string (.ofList [a]), false)
  | (a, b, .UNIT) =>
    match sFormatUnits a with
    | some cls => (.directive cls b, false)
    | none => (.string ("<<error_format %" ++ .ofList [a] ++ ">>"), true)

/-- `LogFormatter` -/
structure LogFormatter where
  pattern : String
  deriving DecidableEq, Repr

namespace LogFormatter

/-- `compile` -/
def compile (f : LogFormatter) : List (FormatUnit × Bool) :=
  (scan f.pattern.toList.length .STR f.pattern.toList).map compileUnit

def units (f : LogFormatter) : List FormatUnit := f.compile.map Prod.fst

def error (f : LogFormatter) : Bool := f.compile.any Prod.snd

end LogFormatter

/-! ### Appenders -/

inductive AppenderKind
  | file (filename : String)
  | console
  deriving DecidableEq, Repr

structure LogAppender where
  kind : AppenderKind
  level : LogLevel
  hasFormatter : Bool
  formatter : Option LogFormatter
  deriving DecidableEq, Repr

namespace LogAppender

/-- A new appender. -/
def make (kind : AppenderKind) : LogAppender := ⟨kind, .TRACE, false, none⟩

def setFormatter (ap : LogAppender) (val : Option LogFormatter) : LogAppender :=
  { ap with formatter := val, hasFormatter := val.isSome }

def setLevel (ap : LogAppender) (val : LogLevel) : LogAppender := { ap with level := val }

/-- An appender without a formatter of its own takes that of its logger. -/
def inherit (ap : LogAppender) (val : Option LogFormatter) : LogAppender :=
  if !ap.hasFormatter then { ap with formatter := val } else ap

end LogAppender

/-! ### Loggers -/

structure Logger where
  level : LogLevel
  appenders : List ℕ
  formatter : Option LogFormatter
  /-- `root_` is not null. -/
  hasRoot : Bool
  deriving DecidableEq, Repr

/-- `Logger(name)` -/
def Logger.make (hasRoot : Bool) : Logger where
  level := .TRACE
  appenders := []
  formatter := some ⟨"[%d{%Y-%m-%d %H:%M:%S}]%b%t%b%N%b%C%b[%p]%b[%c]%b%f%b%F:%L%b%m%n"⟩
  hasRoot := hasRoot

/-- `LoggerManager`, and the appenders that have been made. -/
structure LoggerManager where
  loggers : String → Option Logger
  objs : List LogAppender
  valid : ∀ name logger, loggers name = some logger → ∀ p ∈ logger.appenders, p < objs.length

namespace LoggerManager

/-- A store to the logger of a name, whose appenders exist. -/
def put (m : LoggerManager) (name : String) (logger : Logger)
    (h : ∀ p ∈ logger.appenders, p < m.objs.length) : LoggerManager where
  loggers := Function.update m.loggers name (some logger)
  objs := m.objs
  valid := by
    intro name' logger' hlogger
    by_cases hname : name' = name
    · subst hname
      rw [Function.update_self] at hlogger
      exact Option.some.inj hlogger ▸ h
    · rw [Function.update_of_ne hname] at hlogger
      exact m.valid name' logger' hlogger

/-- Stores to appender objects. -/
def withObjs (m : LoggerManager) (objs : List LogAppender) (h : objs.length = m.objs.length) :
    LoggerManager where
  loggers := m.loggers
  objs := objs
  valid := by
    rw [h]
    exact m.valid

/-- `getLogger` -/
def getLogger (m : LoggerManager) (name : String) : Logger × LoggerManager :=
  match m.loggers name with
  | some logger => (logger, m)
  | none => (.make true, m.put name (.make true) fun p hp => by simp [Logger.make] at hp)

/-- `Logger::setLevel` -/
def setLevel (m : LoggerManager) (name : String) (val : LogLevel) : LoggerManager :=
  match h : m.loggers name with
  | none => m
  | some logger => m.put name { logger with level := val } (m.valid name logger h)

/-- `Logger::setFormatter(LogFormatter::ptr)` -/
def setFormatterPtr (m : LoggerManager) (name : String) (val : Option LogFormatter) :
    LoggerManager :=
  match h : m.loggers name with
  | none => m
  | some logger =>
    let objs := m.objs.mapIdx fun p ap => if p ∈ logger.appenders then ap.inherit val else ap
    (m.withObjs objs (by simp [objs])).put name { logger with formatter := val }
      (by simpa [withObjs, objs] using m.valid name logger h)

/-- `Logger::setFormatter(const std::string&)` -/
def setFormatter (m : LoggerManager) (name : String) (val : String) : LoggerManager :=
  if (LogFormatter.mk val).error then m else m.setFormatterPtr name (some ⟨val⟩)

/-- `Logger::clearAppender` -/
def clearAppender (m : LoggerManager) (name : String) : LoggerManager :=
  match m.loggers name with
  | none => m
  | some logger => m.put name { logger with appenders := [] } (by simp)

/-- A new appender object, whose pointer is the number of those before it. -/
def alloc (m : LoggerManager) (ap : LogAppender) : LoggerManager where
  loggers := m.loggers
  objs := m.objs ++ [ap]
  valid := by
    intro name logger h p hp
    have := m.valid name logger h p hp
    rw [List.length_append]
    omega

theorem length_alloc_lt (m : LoggerManager) (ap : LogAppender) :
    m.objs.length < (m.alloc ap).objs.length := by
  rw [alloc, List.length_append]
  exact Nat.lt_add_one _

/-- `Logger::addAppender` -/
def addAppender (m : LoggerManager) (name : String) (p : ℕ) (hp : p < m.objs.length) :
    LoggerManager :=
  match h : m.loggers name with
  | none => m
  | some logger =>
    let objs := m.objs.modify p fun ap =>
      if ap.formatter.isNone then { ap with formatter := logger.formatter } else ap
    (m.withObjs objs (by simp [objs])).put name
      { logger with appenders := logger.appenders ++ [p] } (by
        intro q hq
        rw [withObjs, List.length_modify]
        rcases List.mem_append.mp hq with hq | hq
        · exact m.valid name logger h q hq
        · rwa [List.mem_singleton.mp hq])

/-! ### What the operations change -/

variable {m m' : LoggerManager} {name name' : String} {logger : Logger} {f : Logger → Logger}

theorem loggers_put (logger : Logger) (h : ∀ p ∈ logger.appenders, p < m.objs.length) :
    (m.put name logger h).loggers name' = if name' = name then some logger else m.loggers name' :=
  Function.update_apply ..

/-- The logger of a name is changed, and nothing is done if there is none. -/
def Changes (m : LoggerManager) (name : String) (f : Logger → Logger) (m' : LoggerManager) : Prop :=
  ∀ name', m'.loggers name' =
    if name' = name then (m.loggers name).map f else m.loggers name'

theorem Changes.none (hlogger : m.loggers name = none) (f : Logger → Logger) :
    Changes m name f m := by
  intro name'
  split
  case isTrue heq => rw [heq, hlogger, Option.map_none]
  case isFalse => rfl

theorem Changes.put {m₀ : LoggerManager} (h₀ : m₀.loggers = m.loggers)
    (hlogger : m.loggers name = some logger)
    (hlt : ∀ p ∈ (f logger).appenders, p < m₀.objs.length) :
    Changes m name f (m₀.put name (f logger) hlt) := by
  intro name'
  rw [loggers_put, hlogger, h₀, Option.map_some]

theorem changes_setLevel (m : LoggerManager) (name : String) (val : LogLevel) :
    Changes m name ({ · with level := val }) (m.setLevel name val) := by
  rw [setLevel]
  split
  case h_1 hlogger => exact .none hlogger _
  case h_2 logger hlogger => exact .put rfl hlogger _

theorem changes_setFormatterPtr (m : LoggerManager) (name : String) (val : Option LogFormatter) :
    Changes m name ({ · with formatter := val }) (m.setFormatterPtr name val) := by
  rw [setFormatterPtr]
  split
  case h_1 hlogger => exact .none hlogger _
  case h_2 logger hlogger =>
    refine .put ?_ hlogger _
    rfl

theorem changes_clearAppender (m : LoggerManager) (name : String) :
    Changes m name ({ · with appenders := [] }) (m.clearAppender name) := by
  rw [clearAppender]
  split
  case h_1 hlogger => exact .none hlogger _
  case h_2 logger hlogger => exact .put rfl hlogger _

theorem changes_addAppender (m : LoggerManager) (name : String) {p : ℕ}
    (hp : p < m.objs.length) :
    Changes m name (fun l => { l with appenders := l.appenders ++ [p] })
      (m.addAppender name p hp) := by
  rw [addAppender]
  split
  case h_1 hlogger => exact .none hlogger _
  case h_2 logger hlogger =>
    refine .put ?_ hlogger _
    rfl

@[simp] theorem objs_getLogger (m : LoggerManager) (name : String) :
    (m.getLogger name).2.objs = m.objs := by
  rw [getLogger]
  split <;> rfl

@[simp] theorem objs_setLevel (m : LoggerManager) (name : String) (val : LogLevel) :
    (m.setLevel name val).objs = m.objs := by
  rw [setLevel]
  split <;> rfl

@[simp] theorem objs_clearAppender (m : LoggerManager) (name : String) :
    (m.clearAppender name).objs = m.objs := by
  rw [clearAppender]
  split <;> rfl

/-! ### What a logger shows -/

end LoggerManager

/-- The definition of an appender, by what it is now. The formatter is its own. -/
def LogAppender.define (ap : LogAppender) : LogAppenderDefine where
  type := match ap.kind with
    | .file _ => 1
    | .console => 2
  level := ap.level
  formatter := if ap.hasFormatter then ap.formatter.elim "" LogFormatter.pattern else ""
  file := match ap.kind with
    | .file filename => filename
    | .console => ""

theorem LogAppender.define_inherit (ap : LogAppender) (val : Option LogFormatter) :
    (ap.inherit val).define = ap.define := by
  rw [inherit]
  split
  case isTrue h =>
    have h : ap.hasFormatter = false := by simpa using h
    simp [define, h]
  case isFalse => rfl

namespace LoggerManager

variable {m m' : LoggerManager} {name name' : String}

/-- The definitions of the appenders that pointers are to. -/
def defines (m : LoggerManager) (ps : List ℕ) : List LogAppenderDefine :=
  ps.filterMap fun p => m.objs[p]?.map LogAppender.define

/-- The level of the logger of a name, and the definitions of its appenders. -/
def view (m : LoggerManager) (name : String) : Option (LogLevel × List LogAppenderDefine) :=
  (m.loggers name).map fun logger => (logger.level, m.defines logger.appenders)

/-- Pointers show the same where the objects they are to do. -/
theorem defines_congr {m' : LoggerManager} {ps : List ℕ}
    (h : ∀ p ∈ ps, m'.objs[p]?.map LogAppender.define = m.objs[p]?.map LogAppender.define) :
    m'.defines ps = m.defines ps := List.filterMap_congr h

/-- **A change of one logger**, seen from any name. The objects show the same as before, but for
those the change is about. -/
theorem Changes.view {f : Logger → Logger} (h : Changes m name f m')
    {g : LogLevel × List LogAppenderDefine → LogLevel × List LogAppenderDefine}
    (hothers : ∀ logger, m.loggers name' = some logger →
      m'.defines logger.appenders = m.defines logger.appenders)
    (hself : ∀ logger, m.loggers name = some logger →
      ((f logger).level, m'.defines (f logger).appenders) =
        g (logger.level, m.defines logger.appenders)) :
    m'.view name' = if name' = name then (m.view name).map g else m.view name' := by
  rw [LoggerManager.view, h name']
  split
  case isTrue =>
    rw [LoggerManager.view]
    cases hlogger : m.loggers name with
    | none => rfl
    | some logger => exact congrArg some (hself logger hlogger)
  case isFalse =>
    rw [LoggerManager.view]
    cases hlogger : m.loggers name' with
    | none => rfl
    | some logger => exact congrArg some (congrArg (logger.level, ·) (hothers logger hlogger))

theorem defines_of_objs {m' : LoggerManager} (h : m'.objs = m.objs) (ps : List ℕ) :
    m'.defines ps = m.defines ps := by
  rw [defines, h, defines]

theorem view_getLogger : (m.getLogger name).2.view name' =
    if name' = name then some ((m.view name).getD (.TRACE, [])) else m.view name' := by
  simp only [getLogger]
  split
  case h_1 logger hlogger =>
    by_cases heq : name' = name
    · rw [if_pos heq, heq, view, hlogger]
      rfl
    · rw [if_neg heq]
  case h_2 hlogger =>
    rw [view, loggers_put, view, hlogger]
    split <;> rfl

theorem view_setLevel (val : LogLevel) : (m.setLevel name val).view name' =
    if name' = name then (m.view name).map fun v => (val, v.2) else m.view name' :=
  (changes_setLevel m name val).view (fun _ _ => defines_of_objs (objs_setLevel m name val) _)
    fun _ _ => congrArg (val, ·) (defines_of_objs (objs_setLevel m name val) _)

theorem view_clearAppender : (m.clearAppender name).view name' =
    if name' = name then (m.view name).map fun v => (v.1, []) else m.view name' :=
  (changes_clearAppender m name).view (fun _ _ => defines_of_objs (objs_clearAppender m name) _)
    fun _ _ => rfl

/-- The same loggers over objects that show the same. -/
theorem view_congr {m' : LoggerManager} (hloggers : m'.loggers = m.loggers)
    (hdefines : ∀ logger, m.loggers name' = some logger →
      m'.defines logger.appenders = m.defines logger.appenders) : m'.view name' = m.view name' := by
  rw [view, view, hloggers]
  cases hlogger : m.loggers name' with
  | none => rfl
  | some logger => rw [Option.map_some, Option.map_some, hdefines logger hlogger]

theorem defines_setFormatterPtr (val : Option LogFormatter) (ps : List ℕ) :
    (m.setFormatterPtr name val).defines ps = m.defines ps := by
  rw [setFormatterPtr]
  split
  case h_1 => rfl
  case h_2 logger hlogger =>
    refine defines_congr fun p _ => ?_
    change ((m.objs.mapIdx fun p ap =>
      if p ∈ logger.appenders then ap.inherit val else ap)[p]?).map LogAppender.define = _
    rw [List.getElem?_mapIdx, Option.map_map]
    refine congrArg (Option.map · m.objs[p]?) (funext fun ap => ?_)
    change (if p ∈ logger.appenders then ap.inherit val else ap).define = ap.define
    split
    · exact ap.define_inherit val
    · rfl

/-- The formatter of a logger is not its appenders' own. -/
theorem view_setFormatterPtr (val : Option LogFormatter) :
    (m.setFormatterPtr name val).view name' = m.view name' := by
  have hview : (m.setFormatterPtr name val).view name' =
      if name' = name then (m.view name).map id else m.view name' :=
    (changes_setFormatterPtr m name val).view (fun _ _ => defines_setFormatterPtr val _)
      fun logger _ => congrArg (logger.level, ·) (defines_setFormatterPtr val logger.appenders)
  rw [hview, Option.map_id, id]
  split
  case isTrue heq => rw [heq]
  case isFalse => rfl

theorem view_setFormatter (val : String) : (m.setFormatter name val).view name' = m.view name' := by
  rw [setFormatter]
  split
  · rfl
  · exact view_setFormatterPtr _

theorem view_alloc (ap : LogAppender) : (m.alloc ap).view name' = m.view name' := by
  refine view_congr rfl fun logger hlogger => defines_congr fun p hp => ?_
  rw [alloc, List.getElem?_append_left (m.valid name' logger hlogger p hp)]

/-- Taking the formatter of its logger does not give an appender one of its own. -/
theorem define_borrow {ap : LogAppender} (hap : ap.hasFormatter = ap.formatter.isSome)
    (val : Option LogFormatter) :
    (if ap.formatter.isNone then { ap with formatter := val } else ap).define = ap.define := by
  split
  case isTrue h =>
    have hown : ap.hasFormatter = false := by
      rw [hap, Option.isNone_iff_eq_none.mp h]
      rfl
    simp [LogAppender.define, hown]
  case isFalse => rfl

/-- An appender that is attached shows what it did before. -/
theorem defines_addAppender (m : LoggerManager) (name : String) {p : ℕ} (hp : p < m.objs.length)
    (hap : ∀ ap, m.objs[p]? = some ap → ap.hasFormatter = ap.formatter.isSome) (ps : List ℕ) :
    (m.addAppender name p hp).defines ps = m.defines ps := by
  rw [addAppender]
  split
  case h_1 => rfl
  case h_2 logger hlogger =>
    refine defines_congr fun q _ => ?_
    change ((m.objs.modify p fun ap => if ap.formatter.isNone then
      { ap with formatter := logger.formatter } else ap)[q]?).map LogAppender.define = _
    rw [List.getElem?_modify]
    split
    case isTrue heq =>
      subst heq
      cases hobj : m.objs[p]? with
      | none => rfl
      | some ap => exact congrArg some (define_borrow (hap ap hobj) _)
    case isFalse => simp

/-- A new appender stands behind those its logger has. -/
theorem view_addAppender {ap : LogAppender} (hap : ap.hasFormatter = ap.formatter.isSome) :
    ((m.alloc ap).addAppender name m.objs.length (m.length_alloc_lt ap)).view name' =
      if name' = name then (m.view name).map fun v => (v.1, v.2 ++ [ap.define])
      else m.view name' := by
  have hlast : (m.alloc ap).objs[m.objs.length]? = some ap := by simp [alloc]
  have hdefines := (m.alloc ap).defines_addAppender name (m.length_alloc_lt ap) fun ap' hap' =>
    Option.some.inj (hlast.symm.trans hap') ▸ hap
  have hnew : (m.alloc ap).defines [m.objs.length] = [ap.define] := by simp [defines, hlast]
  have hview : ((m.alloc ap).addAppender name m.objs.length (m.length_alloc_lt ap)).view name' =
      if name' = name then ((m.alloc ap).view name).map fun v => (v.1, v.2 ++ [ap.define])
      else (m.alloc ap).view name' := by
    refine (changes_addAppender (m.alloc ap) name _).view (fun _ _ => hdefines _) fun logger _ => ?_
    rw [hdefines, defines, List.filterMap_append, ← hnew]
    rfl
  rwa [view_alloc, view_alloc] at hview

end LoggerManager

end Easy.Base
