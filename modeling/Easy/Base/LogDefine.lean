import Easy.Base.Config
import Mathlib.Data.Int.Notation

/-!
`LogLevel` of `easy/base/LogLevel.cc`, and the log definitions of `Logger.cc` with their
conversions from and to text.

A definition is printed as a YAML tree and read back from one. What the code uses of
yaml-cpp is `YamlCpp`. The reader never looks at the level of an appender, so that a
definition survives if and only if its appenders have the level they are made with.
-/

namespace Easy.Base

inductive LogLevel
  | OFF
  | TRACE
  | DEBUG
  | INFO
  | WARN
  | ERROR
  | FATAL
  deriving DecidableEq, Repr

namespace LogLevel

def toString : LogLevel → String
  | .TRACE => "TRACE"
  | .DEBUG => "DEBUG"
  | .INFO => "INFO"
  | .WARN => "WARN"
  | .ERROR => "ERROR"
  | .FATAL => "FATAL"
  | .OFF => "OFF"

def fromString (str : String) : LogLevel :=
  if str = "trace" then .TRACE
  else if str = "debug" then .DEBUG
  else if str = "info" then .INFO
  else if str = "warn" then .WARN
  else if str = "error" then .ERROR
  else if str = "fatal" then .FATAL
  else if str = "TRACE" then .TRACE
  else if str = "DEBUG" then .DEBUG
  else if str = "INFO" then .INFO
  else if str = "WARN" then .WARN
  else if str = "ERROR" then .ERROR
  else if str = "FATAL" then .FATAL
  else .OFF

/-- Every level is read back from its name. -/
theorem fromString_toString (level : LogLevel) : fromString level.toString = level := by
  cases level <;> decide

end LogLevel

/-- `LogAppenderDefine`; type 1 is a file, type 2 the console. -/
structure LogAppenderDefine where
  type : ℤ
  level : LogLevel
  formatter : String
  file : String
  deriving DecidableEq, Repr

structure LogDefine where
  name : String
  level : LogLevel
  formatter : String
  appenders : List LogAppenderDefine
  deriving DecidableEq, Repr

/-! ### YAML -/

/-- What the conversions use of yaml-cpp: `YAML::Load`, the `operator<<` of a node, and
`as<std::string>()`. `none` is an exception. -/
structure YamlCpp where
  load : String → Option Yaml
  emit : Yaml → String
  asString : Yaml → Option String

namespace Yaml

/-- A map built by assignments, which is null before the first of them. -/
def ofEntries : List (String × Yaml) → Yaml
  | [] => .null
  | entries => .map entries

/-- `n[key]`, and `none` inside where it is not defined. On a scalar it throws. -/
def sub (n : Yaml) (key : String) : Option (Option Yaml) :=
  match n with
  | .scalar _ => none
  | .map entries => some (entries.lookup key)
  | .null | .sequence _ => some none

/-- The elements of a sequence, which are as many as `size()` says. -/
def items : Yaml → List Yaml
  | .sequence items => items
  | _ => []

end Yaml

namespace YamlCpp

variable (Y : YamlCpp)

/-- `n[key].as<std::string>()` if it is defined. -/
def text (n : Yaml) (key : String) : Option (Option String) := do
  match ← n.sub key with
  | none => return none
  | some v => return some (← Y.asString v)

/-! ### Reading -/

/-- The body of the loop over `n["appenders"]`: an appender that is not complete is left
out. -/
def readAppender (a : Yaml) : Option (Option LogAppenderDefine) := do
  match ← Y.text a "type" with
  | none => return none
  | some type =>
    if type = "FileLogAppender" then
      match ← Y.text a "file" with
      | none => return none
      | some file =>
        let formatter ← Y.text a "formatter"
        return some ⟨1, .OFF, formatter.getD "", file⟩
    else if type = "ConsoleLogAppender" then
      let formatter ← Y.text a "formatter"
      return some ⟨2, .OFF, formatter.getD "", ""⟩
    else return none

/-- The loop over `n["appenders"]`. -/
def readAppenders : List Yaml → Option (List LogAppenderDefine)
  | [] => some []
  | a :: as => do
    let lad ← Y.readAppender a
    let lads ← readAppenders as
    return lad.toList ++ lads

/-- `LexicalCast<std::string, LogDefine>` on the loaded tree. -/
def readDefine (n : Yaml) : Option LogDefine := do
  match ← Y.text n "name" with
  | none => none
  | some name =>
    let level ← Y.text n "level"
    let formatter ← Y.text n "formatter"
    let appenders ← n.sub "appenders"
    let lads ← Y.readAppenders (appenders.elim [] Yaml.items)
    return ⟨name, .fromString (level.getD ""), formatter.getD "", lads⟩

/-- `LexicalCast<std::string, LogDefine>` -/
def parse (v : String) : Option LogDefine := do Y.readDefine (← Y.load v)

end YamlCpp

/-! ### Printing -/

/-- `n["level"]`, which is left out where it is off. -/
def levelEntry (level : LogLevel) : List (String × Yaml) :=
  if level ≠ .OFF then [("level", .scalar level.toString)] else []

/-- `n["formatter"]`, which is left out where it is empty. -/
def formatterEntry (formatter : String) : List (String × Yaml) :=
  if formatter ≠ "" then [("formatter", .scalar formatter)] else []

def LogAppenderDefine.node (a : LogAppenderDefine) : Yaml :=
  .ofEntries ((if a.type = 1 then [("type", .scalar "FileLogAppender"), ("file", .scalar a.file)]
      else if a.type = 2 then [("type", .scalar "ConsoleLogAppender")]
      else []) ++ levelEntry a.level ++ formatterEntry a.formatter)

/-- The tree that `LexicalCast<LogDefine, std::string>` prints. -/
def LogDefine.node (i : LogDefine) : Yaml :=
  .ofEntries ([("name", .scalar i.name)] ++ levelEntry i.level ++ formatterEntry i.formatter ++
    if i.appenders = [] then []
    else [("appenders", .sequence (i.appenders.map LogAppenderDefine.node))])

/-- `LexicalCast<LogDefine, std::string>` -/
def YamlCpp.print (Y : YamlCpp) (i : LogDefine) : String := Y.emit i.node

/-! ### There and back -/

/-- An appender of a type that there is, and with a file only if it has that type. -/
def LogAppenderDefine.Wf (a : LogAppenderDefine) : Prop := a.type = 1 ∨ a.type = 2 ∧ a.file = ""

instance : DecidablePred LogAppenderDefine.Wf := fun _ => inferInstanceAs (Decidable (_ ∨ _))

/-- What the reader makes of an appender. -/
def LogAppenderDefine.unleveled (a : LogAppenderDefine) : LogAppenderDefine :=
  { a with level := .OFF }

/-- A formatter that is empty is left out, and one that is left out is empty. -/
def optional (formatter : String) : Option String :=
  if formatter = "" then none else some formatter

theorem optional_getD (formatter : String) : (optional formatter).getD "" = formatter := by
  rw [optional]
  split_ifs with h
  · exact h.symm
  · rfl

theorem lookup_levelEntry_ne (level : LogLevel) {key : String} (h : key ≠ "level") :
    (levelEntry level).lookup key = none := by
  rw [levelEntry]
  split_ifs
  · rw [List.lookup_cons, beq_false_of_ne h]
    rfl
  · rfl

theorem lookup_formatterEntry_ne (formatter : String) {key : String} (h : key ≠ "formatter") :
    (formatterEntry formatter).lookup key = none := by
  rw [formatterEntry]
  split_ifs
  · rw [List.lookup_cons, beq_false_of_ne h]
    rfl
  · rfl

theorem lookup_level (level : LogLevel) (formatter : String) {more : List (String × Yaml)}
    (hmore : more.lookup "level" = none) :
    (levelEntry level ++ formatterEntry formatter ++ more).lookup "level" =
      (if level = .OFF then none else some level.toString).map Yaml.scalar := by
  rw [List.lookup_append, List.lookup_append, lookup_formatterEntry_ne formatter (by decide), hmore,
    Option.or_none, Option.or_none, levelEntry]
  split_ifs <;> first | contradiction | rfl

theorem lookup_formatter (level : LogLevel) (formatter : String) {more : List (String × Yaml)}
    (hmore : more.lookup "formatter" = none) :
    (levelEntry level ++ formatterEntry formatter ++ more).lookup "formatter" =
      (optional formatter).map Yaml.scalar := by
  rw [List.lookup_append, List.lookup_append, lookup_levelEntry_ne level (by decide), hmore,
    Option.none_or, Option.or_none, formatterEntry, optional]
  split_ifs <;> first | contradiction | rfl

section

variable {Y : YamlCpp} (hstring : ∀ text, Y.asString (.scalar text) = some text)
include hstring

/-- The text under a key of a printed map. -/
theorem text_map {entries : List (String × Yaml)} {key : String} {text : Option String}
    (h : entries.lookup key = text.map Yaml.scalar) : Y.text (.map entries) key = some text := by
  rw [YamlCpp.text, Yaml.sub, h]
  cases text with
  | none => rfl
  | some t => simp [hstring]

theorem readAppender_node {a : LogAppenderDefine} (ha : a.Wf) :
    Y.readAppender a.node = some (some a.unleveled) := by
  obtain ⟨type, level, formatter, file⟩ := a
  have hformatter := lookup_formatter level formatter List.lookup_nil
  rw [List.append_nil] at hformatter
  rcases ha with rfl | ⟨rfl, rfl⟩
  · have hnode : LogAppenderDefine.node ⟨1, level, formatter, file⟩ =
        .map (("type", .scalar "FileLogAppender") :: ("file", .scalar file) ::
          (levelEntry level ++ formatterEntry formatter)) := rfl
    generalize LogAppenderDefine.node ⟨1, level, formatter, file⟩ = n at hnode
    have htype : Y.text n "type" = some (some "FileLogAppender") := by
      rw [hnode]
      exact text_map hstring rfl
    have hfile : Y.text n "file" = some (some file) := by
      rw [hnode]
      exact text_map hstring rfl
    have htext : Y.text n "formatter" = some (optional formatter) := by
      rw [hnode]
      exact text_map hstring hformatter
    simp [YamlCpp.readAppender, htype, hfile, htext, LogAppenderDefine.unleveled, optional_getD]
  · have hnode : LogAppenderDefine.node ⟨2, level, formatter, ""⟩ =
        .map (("type", .scalar "ConsoleLogAppender") ::
          (levelEntry level ++ formatterEntry formatter)) := rfl
    generalize LogAppenderDefine.node ⟨2, level, formatter, ""⟩ = n at hnode
    have htype : Y.text n "type" = some (some "ConsoleLogAppender") := by
      rw [hnode]
      exact text_map hstring rfl
    have htext : Y.text n "formatter" = some (optional formatter) := by
      rw [hnode]
      exact text_map hstring hformatter
    simp [YamlCpp.readAppender, htype, htext, LogAppenderDefine.unleveled, optional_getD]

theorem readAppenders_nodes {as : List LogAppenderDefine} (h : ∀ a ∈ as, a.Wf) :
    Y.readAppenders (as.map LogAppenderDefine.node) =
      some (as.map LogAppenderDefine.unleveled) := by
  induction as with
  | nil => rfl
  | cons a as ih =>
      rw [List.map_cons, YamlCpp.readAppenders, readAppender_node hstring (h a (by simp)),
        ih fun b hb => h b (by simp [hb])]
      rfl

/-- **What is read back** of a printed definition: all but the levels of its appenders. -/
theorem readDefine_node {i : LogDefine} (h : ∀ a ∈ i.appenders, a.Wf) :
    Y.readDefine i.node =
      some { i with appenders := i.appenders.map LogAppenderDefine.unleveled } := by
  obtain ⟨name, level, formatter, appenders⟩ := i
  have hread := readAppenders_nodes hstring h
  generalize hmore : (if appenders = [] then [] else
    [("appenders", Yaml.sequence (appenders.map LogAppenderDefine.node))]) = more
  have hnode : LogDefine.node ⟨name, level, formatter, appenders⟩ =
      .map (("name", .scalar name) :: (levelEntry level ++ formatterEntry formatter ++ more)) := by
    rw [← hmore]
    rfl
  generalize LogDefine.node ⟨name, level, formatter, appenders⟩ = n at hnode
  have hname : Y.text n "name" = some (some name) := by
    rw [hnode]
    exact text_map hstring rfl
  have hlevel : Y.text n "level" = some (if level = .OFF then none else some level.toString) := by
    rw [hnode]
    refine text_map hstring (lookup_level level formatter ?_)
    rw [← hmore]
    split_ifs <;> rfl
  have hback : LogLevel.fromString ((if level = .OFF then none else some level.toString).getD "") =
      level := by
    split_ifs with hoff
    · rw [hoff]
      rfl
    · exact LogLevel.fromString_toString level
  have hformatter : Y.text n "formatter" = some (optional formatter) := by
    rw [hnode]
    refine text_map hstring (lookup_formatter level formatter ?_)
    rw [← hmore]
    split_ifs <;> rfl
  have happenders : n.sub "appenders" = some (more.lookup "appenders") := by
    rw [hnode, Yaml.sub, List.lookup_cons, beq_false_of_ne (by decide), List.lookup_append,
      List.lookup_append, lookup_levelEntry_ne level (by decide),
      lookup_formatterEntry_ne formatter (by decide), Option.none_or, Option.none_or]
  have hitems : (more.lookup "appenders").elim [] Yaml.items =
      appenders.map LogAppenderDefine.node := by
    rw [← hmore]
    split_ifs with hnil
    · rw [hnil]
      rfl
    · rfl
  simp only [YamlCpp.readDefine, hname, hlevel, hformatter, happenders, Option.bind_eq_bind,
    Option.bind_some, hitems, hread, hback, optional_getD]
  rfl

/-- **Log definitions.** A definition that is printed and loaded as the same tree is read back
if and only if the level of each of its appenders is off. -/
theorem define_round_trip_iff {i : LogDefine} (h : ∀ a ∈ i.appenders, a.Wf)
    (hload : Y.load (Y.emit i.node) = some i.node) :
    Y.parse (Y.print i) = some i ↔ ∀ a ∈ i.appenders, a.level = .OFF := by
  have hread : Y.parse (Y.print i) =
      some { i with appenders := i.appenders.map LogAppenderDefine.unleveled } := by
    rw [YamlCpp.parse, YamlCpp.print, hload]
    exact readDefine_node hstring h
  have hsame : i.appenders.map LogAppenderDefine.unleveled = i.appenders ↔
      ∀ a ∈ i.appenders, a.unleveled = a := by
    rw [← List.map_inj_left (g := fun a => a), List.map_id']
  rw [hread]
  constructor
  · intro heq a ha
    rw [← hsame.mp (congrArg LogDefine.appenders (Option.some.inj heq)) a ha]
    rfl
  · intro hoff
    rw [hsame.mpr fun a ha => by rw [LogAppenderDefine.unleveled, ← hoff a ha]]

end

/-- A library that prints one tree, as this text. -/
def YamlCpp.single (n : Yaml) (text : String) : YamlCpp where
  load v := if v = text then some n else none
  emit _ := text
  asString
    | .scalar t => some t
    | _ => none

theorem load_single (n n' : Yaml) (text : String) :
    (YamlCpp.single n text).load ((YamlCpp.single n text).emit n') = some n := if_pos rfl

/-- A logger with the console as its appender. -/
theorem define_round_trip_console :
    (YamlCpp.single (LogDefine.node ⟨"root", .INFO, "", [⟨2, .OFF, "", ""⟩]⟩)
        "name: root\nlevel: INFO\nappenders:\n  - type: ConsoleLogAppender").parse
      ((YamlCpp.single (LogDefine.node ⟨"root", .INFO, "", [⟨2, .OFF, "", ""⟩]⟩)
        "name: root\nlevel: INFO\nappenders:\n  - type: ConsoleLogAppender").print
          ⟨"root", .INFO, "", [⟨2, .OFF, "", ""⟩]⟩) =
        some ⟨"root", .INFO, "", [⟨2, .OFF, "", ""⟩]⟩ ↔
      ∀ a ∈ ([⟨2, .OFF, "", ""⟩] : List LogAppenderDefine), a.level = .OFF :=
  define_round_trip_iff (fun _ => rfl) (i := ⟨"root", .INFO, "", [⟨2, .OFF, "", ""⟩]⟩) (by decide)
    (load_single ..)

/-- The same logger with an appender for `DEBUG`. -/
theorem define_round_trip_false : ∃ (Y : YamlCpp) (i : LogDefine),
    (∀ text, Y.asString (.scalar text) = some text) ∧ (∀ a ∈ i.appenders, a.Wf) ∧
      Y.load (Y.emit i.node) = some i.node ∧ Y.parse (Y.print i) ≠ some i := by
  refine ⟨.single (LogDefine.node ⟨"root", .INFO, "", [⟨2, .DEBUG, "", ""⟩]⟩)
    "name: root\nlevel: INFO\nappenders:\n  - type: ConsoleLogAppender\n    level: DEBUG",
    ⟨"root", .INFO, "", [⟨2, .DEBUG, "", ""⟩]⟩, fun _ => rfl, by decide, load_single .., ?_⟩
  decide

end Easy.Base
