import Easy.Base.LogFile

/-!
Log files that are moved away (`FileLogAppender` of `easy/base/LogAppender.cc`).

A record is in a file that had the file name when the record was less than three seconds old, or
later, as long as the clock is not set back. It is there in one piece, in the order in which the
threads took the lock. `reopen` makes the directory of the file again where it was removed. But
it does not close a stream that has failed: after a write to an open stream fails, the stream
stays as it is, and drops all that comes.
-/

namespace Easy.Base

open Lib.Posix

variable {ι : Type*} {Tm : Type*} {cal : Calendar Tm} {s s' : LogFile ι}

/-! ### What steps do -/

/-- The record of a thread. -/
def LogPc.record : LogPc → Option LogRecord
  | .idle => none
  | .made r | .routine r | .reopened r | .ready r => some r

/-- The file that a record has come to. -/
def LogFate.file : LogFate → Option ℕ
  | .written i => some i
  | .cut i _ => some i
  | .dropped => none

def LogFate.IsCut : LogFate → Prop
  | .cut _ _ => True
  | _ => False

namespace LogEntry

variable (cal) (e : LogEntry)

def text : List Char := (e.formatter.format cal e.record.level e.record e.cache).1

/-- What a file got of a record. -/
def part (i : ℕ) : List Char :=
  match e.fate with
  | .written j => if j = i then e.text cal else []
  | .cut j length => if j = i then (e.text cal).take length else []
  | .dropped => []

/-- The record is in no file, or in one that is not too old. -/
def Recent : Prop :=
  ∀ i, e.fate.file = some i → ∃ t, e.stood = some t ∧ e.record.timestamp - 3000000 < t

variable {e}

/-- A record is in one file at most. -/
theorem part_eq_nil {i : ℕ} (h : e.fate.file ≠ some i) : e.part cal i = [] := by
  cases hfate : e.fate with
  | written j =>
      rw [hfate] at h
      have hne : j ≠ i := fun heq => h (congrArg some heq)
      simp [part, hfate, hne]
  | cut j length =>
      rw [hfate] at h
      have hne : j ≠ i := fun heq => h (congrArg some heq)
      simp [part, hfate, hne]
  | dropped => simp [part, hfate]

end LogEntry

namespace LogFile

/-- A stream that `reopen` leaves behind, and the disk. -/
inductive Reopens (s : LogFile ι) : OfStream → Disk → Prop
  | opened {i : ℕ} {d : Disk} (hfile : d.file (names s.ap.filename_) = some i) (hlt : i < d.next)
      (hgrown : s.disk.Grown d)
      (hnot : s.ap.filestream_.fail = false ∨ s.ap.filestream_.file = none) :
      Reopens s ⟨some i, false⟩ d
  | closed {d : Disk} (hgrown : s.disk.Grown d)
      (hnot : s.ap.filestream_.fail = false ∨ s.ap.filestream_.file = none) :
      Reopens s ⟨none, true⟩ d
  | stuck {i : ℕ} (hfile : s.ap.filestream_ = ⟨some i, true⟩) : Reopens s ⟨some i, true⟩ s.disk

/-- What is open is there. -/
theorem Reopens.file_lt {ofs : OfStream} {d : Disk} (h : s.Reopens ofs d)
    (hopened : ∀ i, s.ap.filestream_.file = some i → i < s.disk.next) (i : ℕ)
    (hi : ofs.file = some i) : i < d.next := by
  cases h with
  | opened _ hlt =>
      obtain rfl := Option.some.inj hi
      exact hlt
  | closed => cases hi
  | stuck hfile =>
      obtain rfl := Option.some.inj hi
      exact hopened _ (by rw [hfile])

theorem Reopens.sameFiles {ofs : OfStream} {d : Disk} (h : s.Reopens ofs d) :
    SameFiles s.disk d := by
  cases h with
  | opened _ _ hgrown => exact ⟨hgrown.next, hgrown.data⟩
  | closed hgrown => exact ⟨hgrown.next, hgrown.data⟩
  | stuck => exact ⟨le_rfl, fun _ _ => rfl⟩

theorem reopen_cases (s : LogFile ι) (refused : Path → Bool) : ∃ ofs d, s.Reopens ofs d ∧
    s.reopen refused = s.withStream ofs d := by
  rcases hopen : FileUtil.openForWrite refused s.ap.filename_
    (if !s.ap.filestream_.fail then s.ap.filestream_.close else s.ap.filestream_) s.disk
    with ⟨ofs, d⟩
  refine ⟨ofs, d, ?_, by simp only [reopen, FileLogAppender.reopen, hopen, withStream]⟩
  have hclosed : ∀ ofs₁ : OfStream, ofs₁.isOpen = false →
      FileUtil.openForWrite refused s.ap.filename_ ofs₁ s.disk = (ofs, d) →
      s.ap.filestream_.fail = false ∨ s.ap.filestream_.file = none → s.Reopens ofs d := by
    intro ofs₁ hclosed hopen hnot
    obtain ⟨hgrown, rfl | ⟨i, rfl, hfile, hlt⟩⟩ := opens_openForWrite hclosed hopen
    · exact .closed hgrown hnot
    · exact .opened hfile hlt hgrown hnot
  cases hfail : s.ap.filestream_.fail with
  | false =>
      rw [hfail] at hopen
      exact hclosed _ rfl hopen (.inl hfail)
  | true =>
      rw [hfail] at hopen
      cases hfile : s.ap.filestream_.file with
      | none => exact hclosed _ (by simp [OfStream.isOpen, hfile]) hopen (.inr hfile)
      | some i =>
          have hstuck := hopen.symm.trans
            (openForWrite_isOpen (by simp [OfStream.isOpen, hfile]))
          obtain ⟨rfl, rfl⟩ := Prod.mk.inj hstuck
          have hofs : s.ap.filestream_ = ⟨some i, true⟩ := by rw [← hfile, ← hfail]
          rw [hofs]
          exact .stuck hofs

/-- What the formatter does to the stream. -/
theorem format_cases (cal : Calendar Tm) (s : LogFile ι) (record : LogRecord)
    (formatter : LogFormatter) (cache : TimeCache) (fails : Option ℕ) : ∃ e ofs d,
      s.format cal record formatter cache fails =
        { s.withStream ofs d with entries := s.entries ++ [e] } ∧
      e.record = record ∧ ofs.file = s.ap.filestream_.file ∧
      ((∃ i, e.fate.file = some i ∧ s.ap.filestream_ = ⟨some i, false⟩ ∧ e.stood = s.stood i ∧
          d = s.disk.append i (e.part cal i) ∧ (ofs.fail = true ↔ e.fate.IsCut)) ∨
        e.fate = .dropped ∧ d = s.disk ∧ ofs.fail = true ∧
          (s.ap.filestream_.fail = true ∨ s.ap.filestream_.file = none)) := by
  generalize hformat : s.format cal record formatter cache fails = s'
  unfold format at hformat
  dsimp only at hformat
  split at hformat <;> subst hformat
  case h_1 i hfail hfile =>
    refine ⟨⟨record, formatter, cache, .written i, s.stood i⟩, s.ap.filestream_,
      s.disk.append i _, rfl, rfl, rfl, .inl ⟨i, rfl, ?_, rfl, ?_, ?_⟩⟩
    · rw [← hfile, ← hfail]
    · simp [LogEntry.part, LogEntry.text]
    · rw [hfail]
      exact iff_of_false Bool.false_ne_true fun hcut => hcut
  case h_2 i length hfail hfile =>
    refine ⟨⟨record, formatter, cache, .cut i length, s.stood i⟩,
      ⟨s.ap.filestream_.file, true⟩, s.disk.append i _, rfl, rfl, rfl,
      .inl ⟨i, rfl, ?_, rfl, ?_, ?_⟩⟩
    · rw [← hfile, ← hfail]
    · simp [LogEntry.part, LogEntry.text]
    · exact iff_of_true rfl trivial
  case h_3 fails _ _ _ hwritten hcut =>
    refine ⟨⟨record, formatter, cache, .dropped, none⟩, ⟨s.ap.filestream_.file, true⟩, s.disk, rfl,
      rfl, rfl, .inr ⟨rfl, rfl, rfl, ?_⟩⟩
    cases hfail : s.ap.filestream_.fail with
    | true => exact .inl rfl
    | false =>
        cases hfile : s.ap.filestream_.file with
        | none => exact .inr rfl
        | some i =>
            cases fails with
            | none => exact (hwritten i hfail hfile rfl).elim
            | some length => exact (hcut i length hfail hfile rfl).elim

/-- The clock is not set back. -/
def Forward (s : LogFile ι) : Turn ι → Prop
  | .tick now => s.now ≤ now
  | _ => True

instance (s : LogFile ι) : DecidablePred s.Forward
  | .tick now => inferInstanceAs (Decidable (s.now ≤ now))
  | .others _ | .make .. | .log _ | .routine .. | .store _ | .format .. | .reopen _
  | .setLevel _ | .setFormatter _ => inferInstanceAs (Decidable True)

/-- The clock, names, the level or the formatter change. -/
structure Quiet (s : LogFile ι) (l : Turn ι) (s' : LogFile ι) : Prop where
  stream : s'.ap.filestream_ = s.ap.filestream_
  last : s'.ap.lastTime_ = s.ap.lastTime_
  now : s.Forward l → s.now ≤ s'.now
  pc : s'.pc = s.pc
  stood : s'.stood = s.stood
  base : s'.base = s.base
  entries : s'.entries = s.entries
  files : SameFiles s.disk s'.disk

/-- What one of the steps does. -/
inductive Acts [DecidableEq ι] (cal : Calendar Tm) (s : LogFile ι) (l : Turn ι) :
    LogFile ι → Prop
  | quiet {s' : LogFile ι} (h : s.Quiet l s') : Acts cal s l s'
  | make (i : ι) {r : LogRecord} (hnow : r.timestamp = s.now) : Acts cal s l (s.setPc i (.made r))
  | log {i : ι} {r : LogRecord} (hi : s.pc i = .made r) : Acts cal s l (s.log i r)
  | routine {i : ι} {r : LogRecord} (hi : s.pc i = .routine r) (refused : Path → Bool) :
    Acts cal s l ((s.reopen refused).setPc i (.reopened r))
  | store {i : ι} {r : LogRecord} (hi : s.pc i = .reopened r) :
    Acts cal s l { s.setPc i (.ready r) with ap := { s.ap with lastTime_ := r.timestamp } }
  | format {i : ι} {r : LogRecord} (hi : s.pc i = .ready r) (formatter : LogFormatter)
    (cache : TimeCache) (fails : Option ℕ) :
    Acts cal s l ((s.format cal r formatter cache fails).setPc i .idle)
  | reopen (refused : Path → Bool) : Acts cal s l (s.reopen refused)

theorem acts_of_act [DecidableEq ι] {l : Turn ι} (h : s.act cal l = some s') :
    s.Acts cal l s' := by
  have hsame : SameFiles s.disk s.disk := ⟨le_rfl, fun _ _ => rfl⟩
  cases l with
  | tick now =>
      obtain rfl := Option.some.inj h
      exact .quiet ⟨rfl, rfl, id, rfl, rfl, rfl, rfl, hsame⟩
  | others disk =>
      obtain ⟨hfiles, h⟩ := Option.ite_none_right_eq_some.mp h
      obtain rfl := Option.some.inj h
      exact .quiet ⟨rfl, rfl, fun _ => le_rfl, rfl, rfl, rfl, rfl, hfiles⟩
  | make i record =>
      simp only [act] at h
      split at h
      case h_1 =>
        obtain ⟨hnow, h⟩ := Option.ite_none_right_eq_some.mp h
        obtain rfl := Option.some.inj h
        exact .make i hnow
      case h_2 => cases h
  | log i =>
      simp only [act] at h
      split at h
      case h_1 record hi =>
        obtain rfl := Option.some.inj h
        exact .log hi
      case h_2 => cases h
  | routine i refused =>
      simp only [act] at h
      split at h
      case h_1 record hi =>
        obtain rfl := Option.some.inj h
        exact .routine hi refused
      case h_2 => cases h
  | store i =>
      simp only [act] at h
      split at h
      case h_1 record hi =>
        obtain rfl := Option.some.inj h
        exact .store hi
      case h_2 => cases h
  | format i cache fails =>
      simp only [act] at h
      split at h
      case h_1 record formatter hi hformatter =>
        obtain rfl := Option.some.inj h
        exact .format hi formatter cache fails
      case h_2 => cases h
  | reopen refused =>
      obtain rfl := Option.some.inj h
      exact .reopen refused
  | setLevel val =>
      obtain rfl := Option.some.inj h
      exact .quiet ⟨rfl, rfl, fun _ => le_rfl, rfl, rfl, rfl, rfl, hsame⟩
  | setFormatter val =>
      obtain rfl := Option.some.inj h
      exact .quiet ⟨rfl, rfl, fun _ => le_rfl, rfl, rfl, rfl, rfl, hsame⟩

/-! ### The age of files -/

/-- Records that a stream whose file had its name at a time may get. -/
structure Follows (s : LogFile ι) (t : ℤ) : Prop where
  last : s.ap.lastTime_ ≤ t
  reopened : ∀ j r, s.pc j = .reopened r → r.timestamp ≤ t
  ready : ∀ j r, s.pc j = .ready r → r.timestamp - 3000000 < t

/-- What is true of clocks and files. -/
structure Recent (s : LogFile ι) : Prop where
  last : s.ap.lastTime_ ≤ s.now
  made : ∀ j r, (s.pc j).record = some r → r.timestamp ≤ s.now
  stood : ∀ i t, s.stood i = some t → t ≤ s.now
  good : s.ap.filestream_.fail = false → ∃ i t, s.ap.filestream_.file = some i ∧
    s.stood i = some t ∧ s.Follows t
  entries : ∀ e ∈ s.entries, LogEntry.Recent e

/-- With a later time the same records follow. -/
theorem Follows.later {t t' : ℤ} (h : s.Follows t) (hle : t ≤ t') : s.Follows t' :=
  ⟨h.last.trans hle, fun j r hj => (h.reopened j r hj).trans hle,
    fun j r hj => (h.ready j r hj).trans_le hle⟩

theorem Follows.look {t : ℤ} (h : s.Follows t) (next : ℕ) : (s.look next).Follows t :=
  ⟨h.last, h.reopened, h.ready⟩

/-- Everything follows what happens now. -/
theorem Recent.follows (h : s.Recent) : s.Follows s.now where
  last := h.last
  reopened j r hj := h.made j r (by rw [hj, LogPc.record])
  ready j r hj := by
    have := h.made j r (by rw [hj, LogPc.record])
    omega

/-- The file that has the name now has it now. -/
theorem stood_look (hstood : ∀ i t, s.stood i = some t → t ≤ s.now) {next i : ℕ} {t : ℤ}
    (hi : (s.look next).stood i = some t) : t ≤ s.now := by
  cases hnamed : s.named with
  | none => exact hstood i t (by simpa [look, hnamed] using hi)
  | some j =>
      by_cases hij : i = j
      · have heq : some s.now = some t := by simpa [look, hnamed, hij] using hi
        exact (Option.some.inj heq).ge
      · exact hstood i t (by simpa [look, hnamed, hij] using hi)

theorem Recent.look (h : s.Recent) (next : ℕ) : (s.look next).Recent := by
  refine ⟨h.last, h.made, fun i t => stood_look h.stood, fun hgood => ?_, h.entries⟩
  obtain ⟨i, t, hfile, ht, hfollows⟩ := h.good hgood
  cases hnamed : s.named with
  | none =>
      exact ⟨i, t, hfile, by simpa [LogFile.look, hnamed] using ht, hfollows.look next⟩
  | some j =>
      by_cases hij : i = j
      · exact ⟨i, s.now, hfile, by simp [LogFile.look, hnamed, hij],
          (hfollows.later (h.stood i t ht)).look next⟩
      · exact ⟨i, t, hfile, by simpa [LogFile.look, hnamed, hij] using ht, hfollows.look next⟩

/-- Nothing becomes of what is quiet. -/
theorem Recent.quiet {l : Turn ι} (h : s.Recent) (hquiet : s.Quiet l s') (hg : s.Forward l) :
    s'.Recent := by
  have hnow := hquiet.now hg
  refine ⟨hquiet.last ▸ h.last.trans hnow,
    fun j r hj => (h.made j r (hquiet.pc ▸ hj)).trans hnow,
    fun i t hi => (h.stood i t (hquiet.stood ▸ hi)).trans hnow, fun hgood => ?_,
    hquiet.entries ▸ h.entries⟩
  obtain ⟨i, t, hfile, ht, hfollows⟩ := h.good (hquiet.stream ▸ hgood)
  exact ⟨i, t, hquiet.stream ▸ hfile, hquiet.stood ▸ ht, hquiet.last ▸ hfollows.last,
    hquiet.pc ▸ hfollows.reopened, hquiet.pc ▸ hfollows.ready⟩

/-- A file is open that has the file name, or none is and the stream has failed. -/
theorem Recent.withStream {ofs : OfStream} {d : Disk} (h : s.Recent) (next : ℕ)
    (hgood : ofs.fail = false → ∃ k, ofs.file = some k ∧ d.file (names s.ap.filename_) = some k) :
    ((s.withStream ofs d).look next).Recent ∧ (ofs.fail = false → ∃ k, ofs.file = some k ∧
      ((s.withStream ofs d).look next).stood k = some s.now) := by
  have hopen : ofs.fail = false → ∃ k, ofs.file = some k ∧
      ((s.withStream ofs d).look next).stood k = some s.now := by
    intro hfail
    obtain ⟨k, hfile, hnamed⟩ := hgood hfail
    have hnamed : (s.withStream ofs d).named = some k := hnamed
    refine ⟨k, hfile, ?_⟩
    rw [LogFile.look, hnamed]
    exact Function.update_self ..
  refine ⟨⟨h.last, h.made, fun i t => stood_look (s := s.withStream ofs d) h.stood,
    fun hfail => ?_, h.entries⟩, hopen⟩
  obtain ⟨k, hfile, hk⟩ := hopen hfail
  exact ⟨k, s.now, hfile, hk, h.follows.last, h.follows.reopened, h.follows.ready⟩

theorem Recent.reopen (h : s.Recent) (refused : Path → Bool) (next : ℕ) :
    ((s.reopen refused).look next).Recent ∧
      ((s.reopen refused).ap.filestream_.fail = false → ∃ k,
        (s.reopen refused).ap.filestream_.file = some k ∧
          ((s.reopen refused).look next).stood k = some s.now) := by
  obtain ⟨ofs, d, hopens, heq⟩ := reopen_cases s refused
  rw [heq]
  refine h.withStream next fun hfail => ?_
  cases hopens with
  | opened hfile => exact ⟨_, rfl, hfile⟩
  | closed => cases hfail
  | stuck => cases hfail

/-- The record of an entry followed the file. -/
theorem Recent.format {i : ι} (h : s.Recent) (cal : Calendar Tm) {r : LogRecord}
    (hi : s.pc i = .ready r) (formatter : LogFormatter) (cache : TimeCache) (fails : Option ℕ) :
    (s.format cal r formatter cache fails).Recent := by
  obtain ⟨e, ofs, d, heq, hrecord, hfile, hcases⟩ := format_cases cal s r formatter cache fails
  rw [heq]
  refine ⟨h.last, h.made, h.stood, fun hgood => ?_, fun e' he' => ?_⟩
  · rcases hcases with ⟨k, -, hofs, -⟩ | ⟨-, -, hfail, -⟩
    · obtain ⟨k', t, hfile', ht, hfollows⟩ := h.good (by rw [hofs])
      exact ⟨k', t, hfile.trans hfile', ht, hfollows.last, hfollows.reopened, hfollows.ready⟩
    · have hgood : ofs.fail = false := hgood
      rw [hfail] at hgood
      cases hgood
  · rcases List.mem_append.mp he' with he' | he'
    · exact h.entries e' he'
    · obtain rfl := List.mem_singleton.mp he'
      intro k hk
      rcases hcases with ⟨k', hk', hofs, hstood, -⟩ | ⟨hdropped, -⟩
      · obtain ⟨k'', t, hfile', ht, hfollows⟩ := h.good (by rw [hofs])
        obtain rfl : k' = k'' := by simpa [hofs] using hfile'
        exact ⟨t, hstood.trans ht, hrecord ▸ hfollows.ready i r hi⟩
      · rw [hdropped] at hk
        cases hk

theorem recent_start (filename : List Char) (refused : Path → Bool) (d : Disk) {now : ℤ}
    (hnow : 0 ≤ now) : (start (ι := ι) filename refused d now).Recent := by
  obtain ⟨ofs, d', hopens, heq⟩ := reopen_cases (unopened (ι := ι) filename d now) refused
  rw [start, heq]
  -- The stream that is replaced might as well have failed.
  have h : ((unopened (ι := ι) filename d now).withStream ⟨none, true⟩ d).Recent :=
    ⟨hnow, by simp [withStream, unopened, LogPc.record], by simp [withStream, unopened],
      by simp [withStream], by simp [withStream, unopened]⟩
  refine (h.withStream d.next fun hfail => ?_).1
  cases hopens with
  | opened hfile => exact ⟨_, rfl, hfile⟩
  | closed => cases hfail
  | stuck => cases hfail

section Steps

variable [DecidableEq ι] {i : ι} {p : LogPc}

theorem Follows.setPc {t : ℤ} (h : s.Follows t) (hreopened : ∀ r, p = .reopened r → r.timestamp ≤ t)
    (hready : ∀ r, p = .ready r → r.timestamp - 3000000 < t) : (s.setPc i p).Follows t := by
  refine ⟨h.last, fun j r hj => ?_, fun j r hj => ?_⟩
  · by_cases hji : j = i
    · subst hji
      exact hreopened r ((Function.update_self ..).symm.trans hj)
    · exact h.reopened j r ((Function.update_of_ne hji ..).symm.trans hj)
  · by_cases hji : j = i
    · subst hji
      exact hready r ((Function.update_self ..).symm.trans hj)
    · exact h.ready j r ((Function.update_of_ne hji ..).symm.trans hj)

/-- A thread goes on, to a place that what is open now allows. -/
theorem Recent.setPc (h : s.Recent) (hrecord : ∀ r, p.record = some r → r.timestamp ≤ s.now)
    (hgood : s.ap.filestream_.fail = false → ∃ k t, s.ap.filestream_.file = some k ∧
      s.stood k = some t ∧ (s.setPc i p).Follows t) : (s.setPc i p).Recent := by
  refine ⟨h.last, fun j r hj => ?_, h.stood, hgood, h.entries⟩
  by_cases hji : j = i
  · subst hji
    exact hrecord r (by simpa [LogFile.setPc] using hj)
  · exact h.made j r (by simpa [LogFile.setPc, hji] using hj)

/-- A thread goes on to where it does not depend on what is open. -/
theorem Recent.goOn (h : s.Recent) (hrecord : ∀ r, p.record = some r → r.timestamp ≤ s.now)
    (hreopened : ∀ r, p ≠ .reopened r) (hready : ∀ r, p ≠ .ready r) : (s.setPc i p).Recent := by
  refine h.setPc hrecord fun hgood => ?_
  obtain ⟨k, t, hfile, ht, hfollows⟩ := h.good hgood
  exact ⟨k, t, hfile, ht, hfollows.setPc (fun r hr => absurd hr (hreopened r))
    fun r hr => absurd hr (hready r)⟩

/-- The difference is in whole milliseconds. -/
theorem routine_iff (ap : FileLogAppender) (now : ℤ) :
    ap.Routine now ↔ 3000000 ≤ now - ap.lastTime_ := by
  rw [FileLogAppender.Routine, FileLogAppender.kRoutineIntervalMs, timeDifference,
    Timestamp.kMillisecondPerSeond]
  rcases Int.le_total 0 (now - ap.lastTime_) with hpos | hneg
  · rw [Int.tdiv_eq_ediv_of_nonneg hpos]
    omega
  · have hle : (now - ap.lastTime_).tdiv 1000 ≤ 0 := by
      have hneg' := Int.tdiv_nonneg (Int.neg_nonneg.mpr hneg) (by decide : (0 : ℤ) ≤ 1000)
      rw [Int.neg_tdiv] at hneg'
      exact Int.neg_nonneg.mp hneg'
    omega

theorem Recent.log (h : s.Recent) {r : LogRecord} (hi : s.pc i = .made r) :
    (s.log i r).Recent := by
  have hr : ∀ r', some r = some r' → r'.timestamp ≤ s.now := by
    rintro r' ⟨⟩
    exact h.made i r (by rw [hi, LogPc.record])
  rw [LogFile.log]
  split
  case isTrue =>
    split
    case isTrue => exact h.goOn hr (by simp) (by simp)
    case isFalse hnot =>
      refine h.setPc hr fun hgood => ?_
      obtain ⟨k, t, hfile, ht, hfollows⟩ := h.good hgood
      refine ⟨k, t, hfile, ht, hfollows.setPc (by simp) ?_⟩
      rintro r' ⟨⟩
      have hlast := hfollows.last
      rw [routine_iff] at hnot
      omega
  case isFalse => exact h.goOn (by simp [LogPc.record]) (by simp) (by simp)

/-- A record that the file was opened again for. -/
theorem Recent.store (h : s.Recent) {r : LogRecord} (hi : s.pc i = .reopened r) :
    LogFile.Recent { s.setPc i (.ready r) with ap := { s.ap with lastTime_ := r.timestamp } } := by
  have hr := h.made i r (by rw [hi, LogPc.record])
  have hnext : (s.setPc i (.ready r)).Recent := by
    refine h.setPc (fun r' hr' => ?_) fun hgood => ?_
    · obtain rfl := Option.some.inj hr'
      exact hr
    · obtain ⟨k, t, hfile, ht, hfollows⟩ := h.good hgood
      refine ⟨k, t, hfile, ht, hfollows.setPc (by simp) ?_⟩
      rintro r' ⟨⟩
      have hle := hfollows.reopened i r hi
      omega
  refine ⟨hr, hnext.made, hnext.stood, fun hgood => ?_, hnext.entries⟩
  obtain ⟨k, t, hfile, ht, hfollows⟩ := h.good hgood
  have hle := hfollows.reopened i r hi
  have hnext := hfollows.setPc (i := i) (p := .ready r) (by simp) (by
    rintro r' ⟨⟩
    omega)
  exact ⟨k, t, hfile, ht, hle, hnext.reopened, hnext.ready⟩

/-- The file was opened when the record was made, or later. -/
theorem Recent.routine (h : s.Recent) {r : LogRecord} (hi : s.pc i = .routine r)
    (refused : Path → Bool) (next : ℕ) :
    (((s.reopen refused).setPc i (.reopened r)).look next).Recent := by
  obtain ⟨hrecent, hopen⟩ := h.reopen refused next
  have hr : ∀ r', (LogPc.reopened r).record = some r' → r'.timestamp ≤ s.now := by
    rintro r' ⟨⟩
    exact h.made i r (by rw [hi, LogPc.record])
  refine hrecent.setPc (i := i) hr fun hgood => ?_
  obtain ⟨k, hfile, hk⟩ := hopen hgood
  refine ⟨k, s.now, hfile, hk, hrecent.follows.setPc ?_ (by simp)⟩
  rintro r' ⟨⟩
  exact hr r rfl

theorem Recent.step {l : Turn ι} (h : s.Recent) (hg : s.Forward l)
    (hstep : s.step cal l = some s') : s'.Recent := by
  obtain ⟨s₁, hact, rfl⟩ := Option.map_eq_some_iff.mp hstep
  cases acts_of_act hact with
  | quiet hquiet => exact (h.quiet hquiet hg).look _
  | make i hnow =>
      refine (h.goOn (fun r hr => ?_) (by simp) (by simp)).look _
      obtain rfl := Option.some.inj hr
      exact hnow.le
  | log hi => exact (h.log hi).look _
  | routine hi refused => exact h.routine hi refused _
  | store hi => exact (h.store hi).look _
  | format hi formatter cache fails =>
      have hformat := h.format cal hi formatter cache fails
      exact (hformat.goOn (by simp [LogPc.record]) (by simp) (by simp)).look _
  | reopen refused => exact (h.reopen refused _).1

theorem recent_of_guarded (hs : (lts cal).Guarded Forward s) : s.Recent := by
  refine hs.invariant (I := Recent) ?_ fun s l s' _ hg hstep h => h.step hg hstep
  rintro s ⟨filename, refused, d, now, hnow, rfl⟩
  exact recent_start filename refused d hnow

/-- **Records are in files that are not too old**, as long as the clock is not set back: the file
that a record is in had the file name at a time that is less than three seconds before the
timestamp of the record, or later. -/
theorem written_recent (hs : (lts cal).Guarded Forward s) : ∀ e ∈ s.entries, e.Recent :=
  (recent_of_guarded hs).entries

/-! ### What is in files -/

/-- A step writes one record, or writes nothing. -/
theorem act_cases {l : Turn ι} (h : s.act cal l = some s') :
    s'.entries = s.entries ∧ s'.base = s.base ∧ SameFiles s.disk s'.disk ∧
        (s'.ap.filestream_ = s.ap.filestream_ ∨ s.Reopens s'.ap.filestream_ s'.disk) ∨
      ∃ r formatter cache fails i, s' = (s.format cal r formatter cache fails).setPc i .idle := by
  have hsame : SameFiles s.disk s.disk := ⟨le_rfl, fun _ _ => rfl⟩
  have hreopen : ∀ refused, (s.reopen refused).entries = s.entries ∧
      (s.reopen refused).base = s.base ∧ SameFiles s.disk (s.reopen refused).disk ∧
        ((s.reopen refused).ap.filestream_ = s.ap.filestream_ ∨
          s.Reopens (s.reopen refused).ap.filestream_ (s.reopen refused).disk) := by
    intro refused
    obtain ⟨ofs, d, hopens, heq⟩ := reopen_cases s refused
    rw [heq]
    exact ⟨rfl, rfl, hopens.sameFiles, .inr hopens⟩
  cases acts_of_act h with
  | quiet hquiet => exact .inl ⟨hquiet.entries, hquiet.base, hquiet.files, .inl hquiet.stream⟩
  | make => exact .inl ⟨rfl, rfl, hsame, .inl rfl⟩
  | log =>
      rw [LogFile.log]
      split
      case isTrue => split <;> exact .inl ⟨rfl, rfl, hsame, .inl rfl⟩
      case isFalse => exact .inl ⟨rfl, rfl, hsame, .inl rfl⟩
  | routine _ refused => exact .inl (hreopen refused)
  | store => exact .inl ⟨rfl, rfl, hsame, .inl rfl⟩
  | @format i r _ formatter cache fails => exact .inr ⟨r, formatter, cache, fails, i, rfl⟩
  | reopen refused => exact .inl (hreopen refused)

/-- What is in a file: what was in it when it was new, and the records that came to it. -/
structure Filled (cal : Calendar Tm) (s : LogFile ι) : Prop where
  files : ∀ e ∈ s.entries, ∀ i, e.fate.file = some i → i < s.disk.next
  opened : ∀ i, s.ap.filestream_.file = some i → i < s.disk.next
  data : ∀ i < s.disk.next, s.disk.data i = s.base i ++ s.entries.flatMap (·.part cal i)

omit [DecidableEq ι] in
/-- Names change, and files are made. -/
theorem Filled.grow (h : s.Filled cal) (hentries : s'.entries = s.entries)
    (hbase : s'.base = s.base) (hfiles : SameFiles s.disk s'.disk)
    (hopened : ∀ i, s'.ap.filestream_.file = some i → i < s'.disk.next) :
    (s'.look s.disk.next).Filled cal := by
  refine ⟨fun e he i hi => ?_, hopened, fun i hi => ?_⟩
  · exact (h.files e (hentries ▸ he) i hi).trans_le hfiles.1
  · have hparts : s'.entries = s.entries := hentries
    show s'.disk.data i = (if i < s.disk.next then s'.base i else s'.disk.data i) ++
      s'.entries.flatMap (·.part cal i)
    rw [hparts, hbase]
    split
    case isTrue hold => rw [hfiles.2 i hold, h.data i hold]
    case isFalse hnew =>
      have hnone : s.entries.flatMap (·.part cal i) = [] := by
        rw [List.flatMap_eq_nil_iff]
        intro e he
        exact LogEntry.part_eq_nil cal fun hi => hnew (h.files e he i hi)
      rw [hnone, List.append_nil]

theorem Filled.setPc {i : ι} {p : LogPc} {next : ℕ} (h : (s.look next).Filled cal) :
    ((s.setPc i p).look next).Filled cal :=
  ⟨h.files, h.opened, h.data⟩

omit [DecidableEq ι] in
/-- A record comes to the file that is open. -/
theorem Filled.format (h : s.Filled cal) (r : LogRecord) (formatter : LogFormatter)
    (cache : TimeCache) (fails : Option ℕ) :
    ((s.format cal r formatter cache fails).look s.disk.next).Filled cal := by
  obtain ⟨e, ofs, d, heq, -, hfile, hcases⟩ := format_cases cal s r formatter cache fails
  rw [heq]
  have hnext : d.next = s.disk.next := by
    rcases hcases with ⟨k, -, -, -, rfl, -⟩ | ⟨-, rfl, -⟩ <;> rfl
  refine ⟨fun e' he' i hi => hnext.symm ▸ ?_, fun i hi => hnext.symm ▸ h.opened i (hfile ▸ hi),
    fun i hi => ?_⟩
  · rcases List.mem_append.mp he' with he' | he'
    · exact h.files e' he' i hi
    · obtain rfl := List.mem_singleton.mp he'
      rcases hcases with ⟨k, hk, hofs, -⟩ | ⟨hdropped, -⟩
      · obtain rfl := Option.some.inj (hk.symm.trans hi)
        exact h.opened k (by rw [hofs])
      · rw [hdropped] at hi
        cases hi
  · have hi : i < s.disk.next := hnext ▸ hi
    have hbase : (LogFile.look { s.withStream ofs d with entries := s.entries ++ [e] }
        s.disk.next).base i = s.base i := if_pos hi
    show d.data i = _ ++ (s.entries ++ [e]).flatMap (·.part cal i)
    rw [hbase, List.flatMap_append, List.flatMap_singleton, ← List.append_assoc, ← h.data i hi]
    rcases hcases with ⟨k, hk, -, -, rfl, -⟩ | ⟨hdropped, rfl, -⟩
    · by_cases hik : i = k
      · subst hik
        exact Function.update_self ..
      · have hnone : e.part cal i = [] := LogEntry.part_eq_nil cal (by simp [hk, Ne.symm hik])
        rw [hnone, List.append_nil]
        exact Function.update_of_ne hik ..
    · rw [LogEntry.part_eq_nil cal (by simp [hdropped, LogFate.file]), List.append_nil]

theorem Filled.step {l : Turn ι} (h : s.Filled cal) (hstep : s.step cal l = some s') :
    s'.Filled cal := by
  obtain ⟨s₁, hact, rfl⟩ := Option.map_eq_some_iff.mp hstep
  rcases act_cases hact with
    ⟨hentries, hbase, hfiles, hopens⟩ | ⟨r, formatter, cache, fails, j, rfl⟩
  · refine h.grow hentries hbase hfiles fun i hi => ?_
    rcases hopens with hsame | hopens
    · exact (h.opened i (hsame ▸ hi)).trans_le hfiles.1
    · exact hopens.file_lt h.opened i hi
  · exact (h.format r formatter cache fails).setPc

theorem filled_of_reachable (hs : (lts cal).Reachable s) : s.Filled cal := by
  refine hs.invariant (I := Filled cal) ?_ fun s l s' hstep h => h.step hstep
  rintro s ⟨filename, refused, d, now, -, rfl⟩
  obtain ⟨ofs, d', hopens, heq⟩ := reopen_cases (unopened (ι := ι) filename d now) refused
  have hbefore : (unopened (ι := ι) filename d now).Filled cal :=
    ⟨by simp [unopened], by simp [unopened, FileLogAppender.unopened], by simp [unopened]⟩
  rw [start, heq]
  exact hbefore.grow rfl rfl hopens.sameFiles (hopens.file_lt hbefore.opened)

/-- **Files** have what was in them when they were new, and behind it the records that came to them,
whole but for a write that has failed, and in their order. -/
theorem data_eq (hs : (lts cal).Reachable s) {i : ℕ} (hi : i < s.disk.next) :
    s.disk.data i = s.base i ++ s.entries.flatMap (·.part cal i) :=
  (filled_of_reachable hs).data i hi

/-! ### Writes that fail -/

/-- A stream that has a file open and has failed is one whose write has failed, and nothing comes
behind that. -/
structure Fails (s : LogFile ι) : Prop where
  cut : ∀ e ∈ s.entries, e.fate.IsCut → ∃ i, s.ap.filestream_ = ⟨some i, true⟩
  stuck : ∀ i, s.ap.filestream_ = ⟨some i, true⟩ → ∃ e ∈ s.entries, e.fate.IsCut
  behind : ∀ front e rest, s.entries = front ++ e :: rest → e.fate.IsCut →
    ∀ e' ∈ rest, e'.fate = .dropped

omit [DecidableEq ι] in
/-- Nothing is written. -/
theorem Fails.quiet (h : s.Fails) (hentries : s'.entries = s.entries)
    (hstream : s'.ap.filestream_ = s.ap.filestream_ ∨ s.Reopens s'.ap.filestream_ s'.disk) :
    s'.Fails := by
  have hiff : ∀ i, s'.ap.filestream_ = ⟨some i, true⟩ ↔ s.ap.filestream_ = ⟨some i, true⟩ := by
    intro i
    rcases hstream with hsame | hopens
    · rw [hsame]
    · generalize s'.ap.filestream_ = ofs at hopens
      generalize s'.disk = d at hopens
      cases hopens with
      | opened _ _ _ hnot =>
          refine iff_of_false (by simp) fun hfails => ?_
          simp [hfails] at hnot
      | closed _ hnot =>
          refine iff_of_false (by simp) fun hfails => ?_
          simp [hfails] at hnot
      | stuck hofs => rw [hofs]
  refine ⟨fun e he hcut => ?_, fun i hi => hentries ▸ h.stuck i ((hiff i).mp hi),
    fun front e rest heq => h.behind front e rest (hentries ▸ heq)⟩
  obtain ⟨i, hi⟩ := h.cut e (hentries ▸ he) hcut
  exact ⟨i, (hiff i).mpr hi⟩

omit [DecidableEq ι] in
/-- A record comes to the stream. -/
theorem Fails.format (h : s.Fails) (cal : Calendar Tm) (r : LogRecord) (formatter : LogFormatter)
    (cache : TimeCache) (fails : Option ℕ) : (s.format cal r formatter cache fails).Fails := by
  obtain ⟨e, ofs, d, heq, -, hfile, hcases⟩ := format_cases cal s r formatter cache fails
  rw [heq]
  have hlast : ∀ e' ∈ s.entries, e'.fate.IsCut → e.fate = .dropped := by
    intro e' he' hcut
    obtain ⟨i, hi⟩ := h.cut e' he' hcut
    rcases hcases with ⟨k, -, hofs, -⟩ | ⟨hdropped, -⟩
    · rw [hi] at hofs
      cases hofs
    · exact hdropped
  refine ⟨fun e' he' hcut => ?_, fun i hi => ?_, fun front e' rest hsplit hcut e'' he'' => ?_⟩
  · show ∃ i, ofs = ⟨some i, true⟩
    rcases List.mem_append.mp he' with he' | he'
    · obtain ⟨i, hi⟩ := h.cut e' he' hcut
      rcases hcases with ⟨k, -, hofs, -⟩ | ⟨-, -, hfail, -⟩
      · rw [hi] at hofs
        cases hofs
      · have hopen : ofs.file = some i := by rw [hfile, hi]
        exact ⟨i, by rw [← hopen, ← hfail]⟩
    · obtain rfl := List.mem_singleton.mp he'
      rcases hcases with ⟨k, -, hofs, -, -, hfail⟩ | ⟨hdropped, -⟩
      · have hopen : ofs.file = some k := by rw [hfile, hofs]
        exact ⟨k, by rw [← hopen, ← hfail.mpr hcut]⟩
      · rw [hdropped] at hcut
        cases hcut
  · have hi : ofs = ⟨some i, true⟩ := hi
    rcases hcases with ⟨k, -, -, -, -, hfail⟩ | ⟨-, -, -, hfails⟩
    · exact ⟨e, by simp, hfail.mp (by rw [hi])⟩
    -- a stream with a file open that drops a record had failed before
    · have hfile : s.ap.filestream_.file = some i := by rw [← hfile, hi]
      rcases hfails with hfails | hnone
      · obtain ⟨e', he', hcut⟩ := h.stuck i (by rw [← hfails, ← hfile])
        exact ⟨e', List.mem_append_left _ he', hcut⟩
      · rw [hfile] at hnone
        cases hnone
  · have hsplit : s.entries ++ [e] = front ++ e' :: rest := hsplit
    -- `e` is the last entry, or it is behind a cut as well
    rcases List.eq_nil_or_concat rest with rfl | ⟨rest, last, rfl⟩
    · cases he''
    · rw [List.concat_eq_append, ← List.cons_append, ← List.append_assoc] at hsplit
      obtain ⟨hentries, hlast'⟩ := List.append_inj' hsplit rfl
      obtain rfl := List.singleton_inj.mp hlast'
      rw [List.concat_eq_append] at he''
      rcases List.mem_append.mp he'' with he'' | he''
      · exact h.behind front e' rest hentries hcut e'' he''
      · rw [List.mem_singleton.mp he'']
        exact hlast e' (hentries ▸ by simp) hcut

theorem Fails.step {l : Turn ι} (h : s.Fails) (hstep : s.step cal l = some s') : s'.Fails := by
  obtain ⟨s₁, hact, rfl⟩ := Option.map_eq_some_iff.mp hstep
  rcases act_cases hact with
    ⟨hentries, -, -, hopens⟩ | ⟨r, formatter, cache, fails, j, rfl⟩
  · have hquiet := h.quiet hentries hopens
    exact ⟨hquiet.cut, hquiet.stuck, hquiet.behind⟩
  · have hformat := h.format cal r formatter cache fails
    exact ⟨hformat.cut, hformat.stuck, hformat.behind⟩

theorem fails_of_reachable (hs : (lts cal).Reachable s) : s.Fails := by
  refine hs.invariant (I := Fails) ?_ fun s l s' hstep h => h.step hstep
  rintro s ⟨filename, refused, d, now, -, rfl⟩
  obtain ⟨ofs, d', hopens, heq⟩ := reopen_cases (unopened (ι := ι) filename d now) refused
  have hbefore : (unopened (ι := ι) filename d now).Fails :=
    ⟨by simp [unopened], by simp [unopened, FileLogAppender.unopened], by simp [unopened]⟩
  rw [start, heq]
  have hquiet : ((unopened (ι := ι) filename d now).withStream ofs d').Fails :=
    hbefore.quiet rfl (.inr hopens)
  exact ⟨hquiet.cut, hquiet.stuck, hquiet.behind⟩

/-- **After a write that fails** nothing is ever written again. -/
theorem dropped_behind (hs : (lts cal).Reachable s) {front rest : List LogEntry} {e : LogEntry}
    (hentries : s.entries = front ++ e :: rest) (hcut : e.fate.IsCut) :
    ∀ e' ∈ rest, e'.fate = .dropped :=
  (fails_of_reachable hs).behind front e rest hentries hcut

/-- **Before that** `reopen` opens the file again, whatever has become of its directory. -/
theorem reopen_opens (hs : (lts cal).Reachable s) (hcut : ∀ e ∈ s.entries, ¬e.fate.IsCut)
    {x : String} (hbase : names (FileUtil.basename s.ap.filename_) = [x])
    (hup : ∀ y ∈ names s.ap.filename_, y ≠ "." ∧ y ≠ "..")
    (hdir : ¬FileUtil.Blocked s.disk.tree [] (names (FileUtil.dirname s.ap.filename_)))
    (hfile : s.disk.tree.lexists maxLinks (names s.ap.filename_) = true →
      s.disk.file (names s.ap.filename_) ≠ none) :
    ∃ i, (s.reopen fun _ => false).ap.filestream_ = ⟨some i, false⟩ ∧
      (s.reopen fun _ => false).named = some i := by
  have hfails := fails_of_reachable hs
  have hnot : ∀ i, s.ap.filestream_ ≠ ⟨some i, true⟩ := fun i hi => by
    obtain ⟨e, he, hstuck⟩ := hfails.stuck i hi
    exact hcut e he hstuck
  have hclosed : OfStream.isOpen (if !s.ap.filestream_.fail then s.ap.filestream_.close
      else s.ap.filestream_) = false := by
    cases hfail : s.ap.filestream_.fail with
    | false => rfl
    | true =>
        cases hopen : s.ap.filestream_.file with
        | none => simp [OfStream.isOpen, hopen]
        | some i => exact absurd (by rw [← hopen, ← hfail]) (hnot i)
  have hopen : (s.reopen fun _ => false).ap.filestream_.isOpen = true :=
    openForWrite_opens hclosed hbase hup hdir hfile
  obtain ⟨ofs, d, hopens, heq⟩ := reopen_cases s fun _ => false
  rw [heq] at hopen ⊢
  cases hopens with
  | @opened i _ hnamed => exact ⟨i, rfl, hnamed⟩
  | closed => cases hopen
  | stuck hstuck => exact absurd hstuck (hnot _)

end Steps

/-! ### A file that is removed -/

/-- Nothing but the root. -/
def bareDisk : Disk where
  tree := ⟨[], by decide, by decide, by decide⟩
  ino _ := 0
  data _ := []
  next := 1
  used _ _ := Nat.one_pos

/-- The directory of the log file was removed, with a record in the file. -/
def removedDisk : Disk where
  tree := ⟨[], by decide, by decide, by decide⟩
  ino _ := 0
  data i := if i = 2 then ['a', '\n'] else []
  next := 3
  used _ _ := by decide

/-- A record at a time. -/
def recordAt (time : ℤ) (content : List Char) : LogRecord :=
  { LogRecord.make "root" .INFO "a.cc".toList 1 "f".toList 0 1 0 time [] with content := content }

/-- A record is written, and the directory goes. -/
def removal : List (Turn Unit) :=
  [.setFormatter (some ⟨"%m%n"⟩), .make () (recordAt 5000000 ['a']), .log (),
    .routine () fun _ => false, .store (), .format () .zero none, .others removedDisk]

/-- Three seconds later one is written again, the write of the next one fails, and one more
comes. -/
def rotation : List (Turn Unit) :=
  removal ++ [.tick 8000000, .make () (recordAt 8000000 ['b']), .log (),
    .routine () fun _ => false, .store (), .format () .zero none,
    .make () (recordAt 8000000 ['c']), .log (), .format () .zero (some 1),
    .make () (recordAt 8000000 ['d']), .log (), .format () .zero none]

/-- The file of a program that has just started. -/
def started : LogFile Unit := start "log/a.log".toList (fun _ => false) bareDisk 5000000

theorem reachable_started : (lts (ι := Unit) utc).Reachable started :=
  .init ⟨_, _, _, _, by decide, rfl⟩

/-- What a state shows of its files. -/
def shows (s : LogFile Unit) : List LogFate × List Char × List Char × ℕ :=
  (s.entries.map LogEntry.fate, s.disk.data 2, s.disk.data 4, s.disk.next)

/-- The new file is another one. -/
theorem exists_rotation : ∃ s, (lts (ι := Unit) utc).Guarded Forward s ∧ shows s =
    ([.written 2, .written 4, .cut 4 1, .dropped], ['a', '\n'], ['b', '\n', 'c'], 5) := by
  have hrun : ((lts (ι := Unit) utc).run started rotation).map shows =
      some ([.written 2, .written 4, .cut 4 1, .dropped], ['a', '\n'], ['b', '\n', 'c'], 5) := by
    decide
  have hforward : (lts (ι := Unit) utc).Meets Forward started rotation := by decide
  have hstart : (lts (ι := Unit) utc).Guarded Forward started := .init ⟨_, _, _, _, by decide, rfl⟩
  obtain ⟨s, hs, h⟩ := Option.map_eq_some_iff.mp hrun
  exact ⟨s, hstart.of_run hforward hs, h⟩

theorem written_recent_rotation : ∃ s, (lts (ι := Unit) utc).Guarded Forward s ∧
    s.entries.map LogEntry.fate = [.written 2, .written 4, .cut 4 1, .dropped] ∧
      ∀ e ∈ s.entries, e.Recent := by
  obtain ⟨s, hs, h⟩ := exists_rotation
  exact ⟨s, hs, (Prod.mk.inj h).1, written_recent hs⟩

theorem data_eq_rotation : ∃ s, (lts (ι := Unit) utc).Reachable s ∧
    s.disk.data 4 = ['b', '\n', 'c'] ∧
      s.disk.data 4 = s.base 4 ++ s.entries.flatMap (·.part utc 4) := by
  obtain ⟨s, hs, h⟩ := exists_rotation
  obtain ⟨-, h⟩ := Prod.mk.inj h
  obtain ⟨-, h⟩ := Prod.mk.inj h
  obtain ⟨hdata, hnext⟩ := Prod.mk.inj h
  exact ⟨s, hs.reachable, hdata, data_eq hs.reachable (hnext ▸ by decide)⟩

theorem dropped_behind_rotation : ∃ s front e rest, (lts (ι := Unit) utc).Reachable s ∧
    s.entries = front ++ e :: rest ∧ e.fate = .cut 4 1 ∧ rest.length = 1 ∧
      ∀ e' ∈ rest, e'.fate = .dropped := by
  obtain ⟨s, hs, h⟩ := exists_rotation
  have hfates : s.entries.map LogEntry.fate = [.written 2, .written 4] ++ [.cut 4 1, .dropped] :=
    (Prod.mk.inj h).1
  obtain ⟨front, back, hentries, -, hback⟩ := List.map_eq_append_iff.mp hfates
  obtain ⟨e, rest, rfl, he, hrest⟩ := List.map_eq_cons_iff.mp hback
  have hlength : rest.length = 1 := by
    rw [← List.length_map (f := LogEntry.fate), hrest]
    rfl
  exact ⟨s, front, e, rest, hs.reachable, hentries, he, hlength,
    dropped_behind hs.reachable hentries (he ▸ trivial)⟩

/-- What a state shows of its file name. -/
def shelf (s : LogFile Unit) : List LogFate × List Char × Bool × Bool :=
  (s.entries.map LogEntry.fate, s.ap.filename_,
    s.disk.tree.lexists maxLinks ["log"], s.disk.tree.lexists maxLinks ["log", "a.log"])

/-- The directory is gone. -/
theorem reopen_opens_removal : ∃ s i, (lts (ι := Unit) utc).Reachable s ∧
    s.disk.tree.lexists maxLinks ["log"] = false ∧
      (s.reopen fun _ => false).ap.filestream_ = ⟨some i, false⟩ ∧
        (s.reopen fun _ => false).named = some i := by
  have hrun : ((lts (ι := Unit) utc).run started removal).map shelf =
      some ([.written 2], "log/a.log".toList, false, false) := by
    decide
  obtain ⟨s, hs, h⟩ := Lib.Lts.Reachable.of_map_run hrun reachable_started
  obtain ⟨hfates, h⟩ := Prod.mk.inj h
  obtain ⟨hname, h⟩ := Prod.mk.inj h
  obtain ⟨hdir, hfile⟩ := Prod.mk.inj h
  have hnames : names s.ap.filename_ = ["log", "a.log"] := hname ▸ by decide
  have hbase : names (FileUtil.basename s.ap.filename_) = ["a.log"] := hname ▸ by decide
  have hdirname : names (FileUtil.dirname s.ap.filename_) = ["log"] := hname ▸ by decide
  have hcut : ∀ e ∈ s.entries, ¬e.fate.IsCut := by
    intro e he hcut
    have hmem : e.fate ∈ [LogFate.written 2] := hfates ▸ List.mem_map_of_mem he
    rw [List.mem_singleton.mp hmem] at hcut
    exact hcut
  have hfree : ¬FileUtil.Blocked s.disk.tree [] (names (FileUtil.dirname s.ap.filename_)) := by
    rw [hdirname]
    rintro ⟨ys, hpre, hys, hnot⟩
    rcases List.prefix_cons_iff.mp hpre with rfl | ⟨ys, rfl, hnil⟩
    · exact hnot (FileUtil.namesDir_nil _)
    · obtain rfl := List.prefix_nil.mp hnil
      rw [List.nil_append, hdir] at hys
      cases hys
  obtain ⟨i, hopen, hnamed⟩ := reopen_opens hs hcut hbase (hnames ▸ by decide) hfree
    fun hthere => by
      rw [hnames, hfile] at hthere
      cases hthere
  exact ⟨s, i, hs, hdir, hopen, hnamed⟩

end LogFile

end Easy.Base
