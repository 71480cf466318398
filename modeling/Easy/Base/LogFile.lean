import Easy.Lib.Lts
import Easy.Base.LogRecord
import Easy.Base.OpenForWrite

/-!
Log files (`FileLogAppender` of `easy/base/LogAppender.cc`).

Any number of threads log to one appender, and other processes move and remove files meanwhile.
A record has its time from the clock when it is made, and is given to the appender later. There
`lastTime_` is read and stored without the lock, and `reopen` and the writing of one record hold
it. Somebody else can call `reopen`, and set the level and the formatter.

What a stream has taken counts as written to its file, so that closing it does not fail, and a
write that fails may have written part. The clock may be set back. `stood` is when the file name
last was the name of a file, and `base` what was in a file when it was new. Of each record that
came to the stream there is an entry. Other processes do not write to the files.
-/

namespace Easy.Base

open Lib.Posix

/-- `timeDifference` -/
def timeDifference (high low : ℤ) : ℤ := (high - low).tdiv Timestamp.kMillisecondPerSeond

structure FileLogAppender where
  filename_ : List Char
  filestream_ : OfStream
  lastTime_ : ℤ
  level_ : LogLevel
  formatter_ : Option LogFormatter

namespace FileLogAppender

def kRoutineIntervalMs : ℤ := 3000

/-- `reopen` -/
def reopen (refused : Path → Bool) (ap : FileLogAppender) (d : Disk) :
    Bool × FileLogAppender × Disk :=
  -- `if (filestream_)` is false of a stream that has failed
  let ofs := if !ap.filestream_.fail then ap.filestream_.close else ap.filestream_
  let (ofs, d) := FileUtil.openForWrite refused ap.filename_ ofs d
  (ofs.isOpen, { ap with filestream_ := ofs }, d)

/-- A new appender, before its constructor opens the file. -/
def unopened (filename : List Char) : FileLogAppender :=
  ⟨filename, ⟨none, false⟩, 0, .TRACE, none⟩

def shouldLog (ap : FileLogAppender) (level : LogLevel) : Bool :=
  ap.level_.ctorIdx ≤ level.ctorIdx

/-- What is true of the timestamp of a record that has to wait for `reopen`. -/
def Routine (ap : FileLogAppender) (now : ℤ) : Prop :=
  kRoutineIntervalMs ≤ timeDifference now ap.lastTime_

instance (ap : FileLogAppender) (now : ℤ) : Decidable (ap.Routine now) :=
  inferInstanceAs (Decidable (_ ≤ _))

end FileLogAppender

/-- What has become of a record. -/
inductive LogFate
  /-- All of it is in the file. -/
  | written (file : ℕ)
  /-- The write has failed, behind so many characters. -/
  | cut (file : ℕ) (length : ℕ)
  /-- The stream had failed before. -/
  | dropped
  deriving DecidableEq, Repr

/-- A record that came to the stream, with the formatter and the state of the thread's buffer. -/
structure LogEntry where
  record : LogRecord
  formatter : LogFormatter
  cache : TimeCache
  fate : LogFate
  /-- The last time that the file name was the name of the file that was open. -/
  stood : Option ℤ

/-- Where a thread is. -/
inductive LogPc
  | idle
  /-- The record is made. -/
  | made (record : LogRecord)
  /-- In front of `reopen`. -/
  | routine (record : LogRecord)
  /-- Behind it, in front of the store to `lastTime_`. -/
  | reopened (record : LogRecord)
  /-- In front of the lock. -/
  | ready (record : LogRecord)

structure LogFile (ι : Type*) where
  ap : FileLogAppender
  disk : Disk
  now : ℤ
  pc : ι → LogPc
  stood : ℕ → Option ℤ
  base : ℕ → List Char
  entries : List LogEntry

namespace LogFile

variable {ι : Type*} [DecidableEq ι] {Tm : Type*} (cal : Calendar Tm) (s : LogFile ι)

/-- The file that has the file name. -/
def named : Option ℕ := s.disk.file (names s.ap.filename_)

/-- The ghosts after a step of something that had `next` as the first free number. -/
def look (next : ℕ) : LogFile ι :=
  { s with
    stood := s.named.elim s.stood fun i => Function.update s.stood i (some s.now)
    base := fun i => if i < next then s.base i else s.disk.data i }

def setPc (i : ι) (p : LogPc) : LogFile ι := { s with pc := Function.update s.pc i p }

/-- `log`, up to the check of the time. -/
def log (i : ι) (record : LogRecord) : LogFile ι :=
  if s.ap.shouldLog record.level then
    if s.ap.Routine record.timestamp then s.setPc i (.routine record)
    else s.setPc i (.ready record)
  else s.setPc i .idle

/-- Another stream, and another disk. -/
def withStream (ofs : OfStream) (d : Disk) : LogFile ι :=
  { s with ap := { s.ap with filestream_ := ofs }, disk := d }

/-- A call of `reopen`. -/
def reopen (refused : Path → Bool) : LogFile ι :=
  let (_, ap, d) := s.ap.reopen refused s.disk
  { s with ap := ap, disk := d }

/-- The formatter writes to the stream. `fails` is where a write fails. -/
def format (record : LogRecord) (formatter : LogFormatter) (cache : TimeCache)
    (fails : Option ℕ) : LogFile ι :=
  let text := (formatter.format cal record.level record cache).1
  let ofs := s.ap.filestream_
  match ofs.fail, ofs.file, fails with
  | false, some file, none =>
    { s with
      disk := s.disk.append file text
      entries := s.entries ++ [⟨record, formatter, cache, .written file, s.stood file⟩] }
  | false, some file, some length =>
    { s with
      ap := { s.ap with filestream_ := { ofs with fail := true } }
      disk := s.disk.append file (text.take length)
      entries := s.entries ++ [⟨record, formatter, cache, .cut file length, s.stood file⟩] }
  -- it had failed, or has no file open
  | _, _, _ =>
    { s with
      ap := { s.ap with filestream_ := { ofs with fail := true } }
      entries := s.entries ++ [⟨record, formatter, cache, .dropped, none⟩] }

/-- What can happen next. -/
inductive Turn (ι : Type*)
  /-- The clock shows another time. -/
  | tick (now : ℤ)
  /-- Other processes change names. -/
  | others (disk : Disk)
  | make (i : ι) (record : LogRecord)
  | log (i : ι)
  | routine (i : ι) (refused : Path → Bool)
  | store (i : ι)
  | format (i : ι) (cache : TimeCache) (fails : Option ℕ)
  /-- Somebody calls `reopen`. -/
  | reopen (refused : Path → Bool)
  | setLevel (val : LogLevel)
  | setFormatter (val : Option LogFormatter)

/-- The files are the same, whatever their names are. -/
def SameFiles (d d' : Disk) : Prop := d.next ≤ d'.next ∧ ∀ i < d.next, d'.data i = d.data i

instance (d d' : Disk) : Decidable (SameFiles d d') := inferInstanceAs (Decidable (_ ∧ _))

/-- A thread without a formatter would go wrong. -/
def act : Turn ι → Option (LogFile ι)
  | .tick now => some { s with now := now }
  -- what is in the files stays
  | .others disk => if SameFiles s.disk disk then some { s with disk := disk } else none
  | .make i record =>
    match s.pc i with
    | .idle => if record.timestamp = s.now then some (s.setPc i (.made record)) else none
    | _ => none
  | .log i =>
    match s.pc i with
    | .made record => some (s.log i record)
    | _ => none
  | .routine i refused =>
    match s.pc i with
    | .routine record => some ((s.reopen refused).setPc i (.reopened record))
    | _ => none
  | .store i =>
    match s.pc i with
    | .reopened record =>
      some { s.setPc i (.ready record) with ap := { s.ap with lastTime_ := record.timestamp } }
    | _ => none
  | .format i cache fails =>
    match s.pc i, s.ap.formatter_ with
    | .ready record, some formatter =>
      some ((s.format cal record formatter cache fails).setPc i .idle)
    | _, _ => none
  | .reopen refused => some (s.reopen refused)
  | .setLevel val => some { s with ap := { s.ap with level_ := val } }
  | .setFormatter val => some { s with ap := { s.ap with formatter_ := val } }

def step (l : Turn ι) : Option (LogFile ι) := (s.act cal l).map (·.look s.disk.next)

/-- In the constructor, before `reopen`. -/
def unopened (filename : List Char) (d : Disk) (now : ℤ) : LogFile ι :=
  ⟨.unopened filename, d, now, fun _ => .idle, fun _ => none, d.data, []⟩

/-- Behind the constructor, with no thread in `log`. -/
def start (filename : List Char) (refused : Path → Bool) (d : Disk) (now : ℤ) : LogFile ι :=
  ((unopened filename d now).reopen refused).look d.next

def lts : Lib.Lts (LogFile ι) (Turn ι) where
  init s := ∃ filename refused d now, 0 ≤ now ∧ s = start filename refused d now
  step s := s.step cal

end LogFile

end Easy.Base
