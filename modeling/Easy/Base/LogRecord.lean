import Easy.Base.LogPattern
import Easy.Base.DateTime

/-!
What formatters write of records (`easy/base/LogRecord.h`, `LogFormatter.h`).

A record is what `LogRecord` keeps of one call of the macros, and the text that was put into its
stream. The units of a formatter write one after another. Those for dates share the buffer of
the thread, with those of all other formatters. `Reads` is what a pattern says of a record: its
text, with what each directive stands for in its place.

What `vasprintf` prints into a record is part of its text.
-/

namespace Easy.Base

open Lib.Digits

/-! ### Records -/

/-- `strrchr` -/
def strrchr (c : Char) : List Char → Option (List Char)
  | [] => none
  | d :: s => (strrchr c s).or (if d = c then some (d :: s) else none)

structure LogRecord where
  fileName : List Char
  line : BitVec 32
  function : List Char
  elapse : BitVec 32
  threadId : BitVec 32
  fiberId : BitVec 32
  timestamp : ℤ
  threadName : List Char
  content : List Char
  logger : String
  level : LogLevel
  deriving DecidableEq, Repr

namespace LogRecord

def getBaseName (filename : List Char) : List Char :=
  match strrchr '/' filename with
  | some s => s.drop 1
  | none => filename

/-- `LogRecord::LogRecord`, with nothing in the stream. -/
def make (logger : String) (level : LogLevel) (file : List Char) (line : BitVec 32)
    (function : List Char) (elapse threadId fiberId : BitVec 32) (time : ℤ)
    (threadName : List Char) : LogRecord where
  fileName := getBaseName file
  line := line
  function := function
  elapse := elapse
  threadId := threadId
  fiberId := fiberId
  timestamp := time
  threadName := threadName
  content := []
  logger := logger
  level := level

end LogRecord

/-! ### Units -/

/-- What `<<` writes of an integer. -/
def decimal (n : ℤ) : List Char :=
  if n < 0 then '-' :: Nat.toDigits 10 n.natAbs else Nat.toDigits 10 n.natAbs

section Units

variable {Tm : Type*} (cal : Calendar Tm) (level : LogLevel) (record : LogRecord)

/-- What the `format` of a class writes. Dates need the buffer of the thread. -/
def UnitClass.text : UnitClass → Option (List Char)
  | .message => some record.content
  | .level => some level.toString.toList
  | .elapse => some (decimal record.elapse.toNat)
  | .name => some record.logger.toList
  | .threadId => some (decimal record.threadId.toNat)
  | .newLine => some ['\n']
  | .dateTime => none
  | .filename => some record.fileName
  | .function => some record.function
  | .line => some (decimal record.line.toInt)
  | .tab => some ['\t']
  | .space => some [' ']
  | .fiberId => some (decimal record.fiberId.toNat)
  | .threadName => some record.threadName

/-- `FormatUnit::format` -/
def FormatUnit.format : FormatUnit → TimeCache → List Char × TimeCache
  | .string str, c => (str.toList, c)
  | .directive cls fmt, c =>
    match cls.text level record with
    | some text => (text, c)
    | none => DateTimeFormatUnit.format cal ⟨fmt.toList⟩ record.timestamp c

/-- The loop of `LogFormatter::format`. -/
def formatUnits : List FormatUnit → TimeCache → List Char × TimeCache
  | [], c => ([], c)
  | u :: units, c =>
    let (text, c) := u.format cal level record c
    let (texts, c) := formatUnits units c
    (text ++ texts, c)

/-- `LogFormatter::format` -/
def LogFormatter.format (f : LogFormatter) (c : TimeCache) : List Char × TimeCache :=
  formatUnits cal level record f.units c

/-- A call of `format` on a thread. -/
structure FormatCall where
  formatter : LogFormatter
  level : LogLevel
  record : LogRecord
  deriving DecidableEq, Repr

/-- What the calls on a thread write. -/
def formatCalls : TimeCache → List FormatCall → List (List Char)
  | _, [] => []
  | c, call :: calls =>
    (call.formatter.format cal call.level call.record c).1 ::
      formatCalls (call.formatter.format cal call.level call.record c).2 calls

/-! ### What patterns say -/

/-- What a unit stands for. -/
def FormatUnit.Says : FormatUnit → List Char → Prop
  | .string str, out => out = str.toList
  | .directive cls fmt, out =>
    match cls.text level record with
    | some text => out = text
    | none => DateCall.Right cal ⟨⟨fmt.toList⟩, record.timestamp⟩ out

/-- A pattern with what its directives stand for in their places. -/
inductive Reads : List Char → List Char → Prop
  | nil : Reads [] []
  | plain {c : Char} {s out : List Char} (hc : c ≠ '%') (hs : Reads s out) :
      Reads (c :: s) (c :: out)
  | directive {d : Char} {cls : UnitClass} {s part out : List Char}
      (hd : sFormatUnits d = some cls) (harg : ¬HasArgument s)
      (hpart : FormatUnit.Says cal level record (.directive cls "") part) (hs : Reads s out) :
      Reads ('%' :: d :: s) (part ++ out)
  | argument {d : Char} {cls : UnitClass} {arg s part out : List Char}
      (hd : sFormatUnits d = some cls) (harg : '}' ∉ arg)
      (hpart : FormatUnit.Says cal level record (.directive cls (.ofList arg)) part)
      (hs : Reads s out) :
      Reads ('%' :: d :: '{' :: (arg ++ '}' :: s)) (part ++ out)

variable {cal level record}

theorem reads_of_parses {s : List Char} {units : List FormatUnit} (h : Parses s units)
    {parts : List (List Char)}
    (hparts : List.Forall₂ (FormatUnit.Says cal level record) units parts) :
    Reads cal level record s parts.flatten := by
  induction h generalizing parts with
  | nil =>
      obtain rfl := List.forall₂_nil_left_iff.mp hparts
      exact .nil
  | plain hc _ ih =>
      obtain ⟨part, parts, hpart, hrest, rfl⟩ := List.forall₂_cons_left_iff.mp hparts
      obtain rfl : part = _ := hpart
      simpa using Reads.plain hc (ih hrest)
  | directive hd harg _ ih =>
      obtain ⟨part, parts, hpart, hrest, rfl⟩ := List.forall₂_cons_left_iff.mp hparts
      exact .directive hd harg hpart (ih hrest)
  | argument hd harg _ ih =>
      obtain ⟨part, parts, hpart, hrest, rfl⟩ := List.forall₂_cons_left_iff.mp hparts
      exact .argument hd harg hpart (ih hrest)

/-! ### Dates -/

/-- The calls that a unit makes for the date. -/
def FormatUnit.dates (record : LogRecord) : FormatUnit → List DateCall
  | .directive .dateTime fmt => [⟨⟨fmt.toList⟩, record.timestamp⟩]
  | _ => []

def FormatCall.dates (call : FormatCall) : List DateCall :=
  call.formatter.units.flatMap (·.dates call.record)

/-- All calls for dates write what they should, from a state of the buffer. -/
def AllRight (cal : Calendar Tm) (c : TimeCache) (dates : List DateCall) : Prop :=
  List.Forall₂ (DateCall.Right cal) dates (formatAll cal c dates)

variable {c : TimeCache} {dates : List DateCall}

theorem format_unit (level : LogLevel) (u : FormatUnit)
    (h : AllRight cal c (u.dates record ++ dates)) :
    u.Says cal level record (u.format cal level record c).1 ∧
      AllRight cal (u.format cal level record c).2 dates := by
  cases u with
  | string str => exact ⟨rfl, h⟩
  | directive cls fmt =>
      cases cls with
      | dateTime => exact List.forall₂_cons.mp h
      | _ => exact ⟨rfl, h⟩

theorem formatUnits_parts (level : LogLevel) (units : List FormatUnit)
    (h : AllRight cal c (units.flatMap (·.dates record) ++ dates)) :
    (∃ parts, List.Forall₂ (FormatUnit.Says cal level record) units parts ∧
      (formatUnits cal level record units c).1 = parts.flatten) ∧
        AllRight cal (formatUnits cal level record units c).2 dates := by
  induction units generalizing c with
  | nil => exact ⟨⟨[], .nil, rfl⟩, h⟩
  | cons u units ih =>
      rw [List.flatMap_cons, List.append_assoc] at h
      obtain ⟨hunit, hrest⟩ := format_unit level u h
      obtain ⟨⟨parts, hparts, hout⟩, hdates⟩ := ih hrest
      exact ⟨⟨_ :: parts, .cons hunit hparts, congrArg (_ ++ ·) hout⟩, hdates⟩

theorem formatCalls_read {calls : List FormatCall}
    (hformed : ∀ call ∈ calls, WellFormed call.formatter.pattern.toList)
    (h : AllRight cal c (calls.flatMap FormatCall.dates)) :
    List.Forall₂ (fun call => Reads cal call.level call.record call.formatter.pattern.toList)
      calls (formatCalls cal c calls) := by
  induction calls generalizing c with
  | nil => exact .nil
  | cons call calls ih =>
      obtain ⟨units, hunits⟩ := hformed call List.mem_cons_self
      have heq : call.formatter.units = units := (LogFormatter.units_of_parses hunits).2.1
      rw [List.flatMap_cons] at h
      obtain ⟨⟨parts, hparts, hout⟩, hrest⟩ :=
        formatUnits_parts call.level call.formatter.units h
      refine .cons ?_ (ih (fun call hcall => hformed call (List.mem_cons_of_mem _ hcall)) hrest)
      rw [LogFormatter.format, hout]
      exact reads_of_parses hunits (heq ▸ hparts)

theorem timestamp_of_mem_dates {call : FormatCall} {date : DateCall} (h : date ∈ call.dates) :
    call.record.timestamp = date.timestamp := by
  obtain ⟨u, -, hdate⟩ := List.mem_flatMap.mp h
  cases u with
  | string str => cases hdate
  | directive cls fmt =>
      cases cls with
      | dateTime => rw [List.mem_singleton.mp hdate]
      | _ => cases hdate

end Units

/-- The seconds of a record, and its text. -/
def secondsFormatter : LogFormatter := ⟨"%d{%S}%b%m"⟩

/-- Two records of a second. -/
def twoRecords : List FormatCall :=
  let record := LogRecord.make "root" .INFO "src/a.cc".toList 7 "f".toList 0 1 0 61000000 []
  [⟨secondsFormatter, .INFO, { record with content := ['x'] }⟩,
    ⟨secondsFormatter, .INFO, { record with content := ['y'], timestamp := 61500000 }⟩]

theorem wellFormed_secondsFormatter : WellFormed secondsFormatter.pattern.toList := by
  have hlist : secondsFormatter.pattern.toList =
      '%' :: 'd' :: '{' :: (['%', 'S'] ++ '}' :: ['%', 'b', '%', 'm']) := by decide
  have hnone : ∀ c s, c ≠ '{' → ¬HasArgument (c :: s) := by
    rintro c s hc ⟨t, ht, -⟩
    exact hc (List.cons.inj ht).1
  have hnil : ¬HasArgument [] := fun ⟨_, ht, _⟩ => by cases ht
  rw [hlist]
  exact ⟨_, .argument rfl (by decide) (.directive rfl (hnone _ _ (by decide))
    (.directive rfl hnil .nil))⟩

example : formatCalls utc .zero twoRecords = ["01.000000 x".toList, "01.500000 y".toList] := by
  decide

end Easy.Base
