import Mathlib.Data.List.Chain
import Easy.Lib.Digits
import Easy.Base.Timer

/-!
The date of a record (`DateTimeFormatUnit` of `easy/base/LogFormatter.h`).

All units of a thread share one buffer, and the second it was filled for. A unit whose record
is of that second takes the text as it is, whichever unit has written it. Before the first call
the buffer is empty and the second is 0. Texts of records before the epoch have a remainder
that is negative.

`strftime` and `localtime_r` are parameters.
-/

namespace Easy.Base

open Lib.Digits

namespace Timestamp

/-- The division of `int64_t` is towards zero. -/
def seconds (t : ℤ) : ℤ := t.tdiv kMicroSecondsPerSecond

def microSecondsRemainder (t : ℤ) : ℤ := t.tmod kMicroSecondsPerSecond

end Timestamp

/-- The calendar. A text that does not fit leaves the buffer in some state. -/
structure Calendar (Tm : Type*) where
  localtime_r : ℤ → Tm
  strftime : List Char → Tm → List Char
  unfit : List Char → Tm → List Char

structure DateTimeFormatUnit where
  format_ : List Char
  deriving DecidableEq, Repr

/-- What the units of a thread share. -/
structure TimeCache where
  timeBuf : List Char
  lastSecond : ℤ
  deriving DecidableEq, Repr

/-- As it is zeroed. -/
def TimeCache.zero : TimeCache := ⟨[], 0⟩

/-- `sizeof(timeBuf)` -/
def sizeofTimeBuf : ℕ := 32

/-- The directive `%06ld`. -/
def percent06ld (n : ℤ) : List Char :=
  if n < 0 then '-' :: pad 5 (Nat.toDigits 10 n.natAbs) else pad 6 (Nat.toDigits 10 n.natAbs)

variable {Tm : Type*} (cal : Calendar Tm)

namespace Calendar

/-- The text of a second by a format. -/
def text (fmt : List Char) (second : ℤ) : List Char := cal.strftime fmt (cal.localtime_r second)

/-- What the call of `strftime` leaves in the buffer. -/
def fill (fmt : List Char) (second : ℤ) : List Char :=
  if (cal.text fmt second).length < sizeofTimeBuf then cal.text fmt second
  else cal.unfit fmt (cal.localtime_r second)

end Calendar

/-- `DateTimeFormatUnit::format`, for the timestamp of a record. -/
def DateTimeFormatUnit.format (u : DateTimeFormatUnit) (timestamp : ℤ) (c : TimeCache) :
    List Char × TimeCache :=
  let seconds := Timestamp.seconds timestamp
  let buf := '.' :: percent06ld (Timestamp.microSecondsRemainder timestamp)
  if c.lastSecond = seconds then (c.timeBuf ++ buf, c)
  else
    let timeBuf := cal.fill u.format_ seconds
    (timeBuf ++ buf, ⟨timeBuf, seconds⟩)

/-- A call of `format` on a thread. -/
structure DateCall where
  unit : DateTimeFormatUnit
  timestamp : ℤ
  deriving DecidableEq, Repr

/-- What the calls on a thread write. -/
def formatAll : TimeCache → List DateCall → List (List Char)
  | _, [] => []
  | c, call :: calls =>
    (call.unit.format cal call.timestamp c).1 ::
      formatAll (call.unit.format cal call.timestamp c).2 calls

namespace DateCall

variable (call : DateCall)

def seconds : ℤ := Timestamp.seconds call.timestamp

/-- The text of the call's own format at its second. -/
def own : List Char := cal.text call.unit.format_ call.seconds

/-- The own text fits the buffer. -/
def Fits : Prop := (call.own cal).length < sizeofTimeBuf

/-- The timestamp is not before the epoch, or is a whole second. -/
def Counts : Prop :=
  0 ≤ call.timestamp ∨ Timestamp.kMicroSecondsPerSecond ∣ call.timestamp

/-- Two calls in a row are of different seconds, or have the same text. -/
def Agrees (call' : DateCall) : Prop :=
  call'.seconds = call.seconds → call'.own cal = call.own cal

instance : Decidable (Fits cal call) := inferInstanceAs (Decidable (_ < _))

instance : Decidable (Counts call) := inferInstanceAs (Decidable (_ ∨ _))

instance (call' : DateCall) : Decidable (Agrees cal call call') :=
  inferInstanceAs (Decidable (_ → _))

/-- What a call should write: its own text of the second that has begun, and the microseconds
of it in six digits. -/
def Right (out : List Char) : Prop := ∃ digits : List Char,
  out = cal.text call.unit.format_ (call.timestamp / Timestamp.kMicroSecondsPerSecond) ++
    '.' :: digits ∧ digits.length = 6 ∧ (∀ d ∈ digits, d.isDigit) ∧
      (Nat.ofDigitChars 10 digits 0 : ℤ) = call.timestamp % Timestamp.kMicroSecondsPerSecond

end DateCall

/-! ### One call -/

theorem percent06ld_of_nonneg {n : ℤ} (h : 0 ≤ n) (hlt : n < Timestamp.kMicroSecondsPerSecond) :
    (percent06ld n).length = 6 ∧ (∀ d ∈ percent06ld n, d.isDigit) ∧
      (Nat.ofDigitChars 10 (percent06ld n) 0 : ℤ) = n := by
  rw [Timestamp.kMicroSecondsPerSecond] at hlt
  rw [percent06ld, if_neg (by omega)]
  refine ⟨length_pad_toDigits (by decide) (by omega), fun d => isDigit_of_mem_pad_toDigits, ?_⟩
  rw [ofDigitChars_pad, Nat.ofDigitChars_ten_toDigits]
  omega

theorem percent06ld_of_neg {n : ℤ} (h : n < 0) :
    ∃ d : List Char, percent06ld n = '-' :: d ∧ ∀ c ∈ d, c.isDigit :=
  ⟨_, if_pos h, fun _ => isDigit_of_mem_pad_toDigits⟩

/-- A sign is neither a dot nor a digit. -/
theorem append_sign_ne {s t d e : List Char} (hd : ∀ c ∈ d, c.isDigit) (he : ∀ c ∈ e, c.isDigit) :
    s ++ '.' :: '-' :: d ≠ t ++ '.' :: e := by
  intro h
  have h : (s ++ ['.']) ++ '-' :: d = t ++ '.' :: e := by simpa using h
  rcases List.append_eq_append_iff.mp h with ⟨as, -, has⟩ | ⟨as, -, has⟩
  · have hmem : '.' ∈ '-' :: d := has ▸ by simp
    rcases List.mem_cons.mp hmem with heq | hmem
    · exact absurd heq (by decide)
    · exact absurd (hd '.' hmem) (by decide)
  · have hmem : '-' ∈ '.' :: e := has ▸ by simp
    rcases List.mem_cons.mp hmem with heq | hmem
    · exact absurd heq (by decide)
    · exact absurd (he '-' hmem) (by decide)

variable {cal : Calendar Tm} {call : DateCall} {calls : List DateCall} {c : TimeCache}

theorem microSecondsRemainder_of_counts (h : call.Counts) :
    call.seconds = call.timestamp / Timestamp.kMicroSecondsPerSecond ∧
      Timestamp.microSecondsRemainder call.timestamp =
        call.timestamp % Timestamp.kMicroSecondsPerSecond := by
  rcases h with hnonneg | hdvd
  · exact ⟨Int.tdiv_eq_ediv_of_nonneg hnonneg, Int.tmod_eq_emod_of_nonneg hnonneg⟩
  · refine ⟨Int.tdiv_eq_ediv_of_dvd hdvd, ?_⟩
    rw [Timestamp.microSecondsRemainder, Int.tmod_eq_zero_of_dvd hdvd, Int.emod_eq_zero_of_dvd hdvd]

theorem microSecondsRemainder_of_not_counts (h : ¬call.Counts) :
    Timestamp.microSecondsRemainder call.timestamp < 0 := by
  obtain ⟨hneg, hdvd⟩ := not_or.mp h
  have hne : Timestamp.microSecondsRemainder call.timestamp ≠ 0 := fun hzero =>
    hdvd (Int.dvd_of_tmod_eq_zero hzero)
  have hminus : 0 ≤ (-call.timestamp).tmod Timestamp.kMicroSecondsPerSecond :=
    Int.tmod_nonneg _ (by omega)
  rw [Int.neg_tmod] at hminus
  have hle : Timestamp.microSecondsRemainder call.timestamp ≤ 0 := Int.neg_nonneg.mp hminus
  omega

/-- What the buffer shows for a call. -/
def shown (cal : Calendar Tm) (call : DateCall) (c : TimeCache) : List Char :=
  if c.lastSecond = call.seconds then c.timeBuf else call.own cal

theorem format_eq (h : call.Fits cal) (c : TimeCache) : call.unit.format cal call.timestamp c =
    (shown cal call c ++ '.' :: percent06ld (Timestamp.microSecondsRemainder call.timestamp),
      ⟨shown cal call c, call.seconds⟩) := by
  have hfill : cal.fill call.unit.format_ call.seconds = call.own cal := if_pos h
  rw [shown, ← hfill]
  by_cases heq : c.lastSecond = call.seconds
  · rw [if_pos heq, ← heq]
    exact if_pos heq
  · rw [if_neg heq]
    exact if_neg heq

theorem shown_eq_own : shown cal call c = call.own cal ↔
    (call.seconds = c.lastSecond → call.own cal = c.timeBuf) := by
  rw [shown]
  split
  case isTrue heq => simp [heq, eq_comm]
  case isFalse hne => simp [Ne.symm hne]

/-- **One call** writes what it should if the buffer shows its own text and the timestamp has a
remainder that is not negative. -/
theorem right_format_iff (h : call.Fits cal) :
    call.Right cal (call.unit.format cal call.timestamp c).1 ↔
      call.Counts ∧ shown cal call c = call.own cal := by
  rw [format_eq h]
  by_cases hcounts : call.Counts
  · obtain ⟨hseconds, hremainder⟩ := microSecondsRemainder_of_counts hcounts
    have hpos : (0 : ℤ) < Timestamp.kMicroSecondsPerSecond := by decide
    obtain ⟨hlength, hdigit, hvalue⟩ := percent06ld_of_nonneg
      (Int.emod_nonneg call.timestamp hpos.ne') (Int.emod_lt_of_pos call.timestamp hpos)
    rw [← hremainder] at hlength hdigit hvalue
    rw [and_iff_right hcounts]
    constructor
    · rintro ⟨digits, hout, hlength', -⟩
      have hlen : ('.' :: percent06ld (Timestamp.microSecondsRemainder call.timestamp)).length =
          ('.' :: digits).length := by simp [hlength, hlength']
      have hshown := (List.append_inj' hout hlen).1
      rw [hshown, DateCall.own, hseconds]
    · intro hshown
      refine ⟨_, ?_, hlength, hdigit, hvalue.trans hremainder⟩
      rw [hshown, DateCall.own, hseconds]
  · refine iff_of_false ?_ fun hright => hcounts hright.1
    rintro ⟨digits, hout, -, hdigit, -⟩
    obtain ⟨d, hd, hdigit'⟩ := percent06ld_of_neg (microSecondsRemainder_of_not_counts hcounts)
    rw [hd] at hout
    exact append_sign_ne hdigit' hdigit hout

/-! ### All calls -/

/-- **Calls on a thread**, from any state of the buffer. -/
theorem right_formatAll_iff (hfits : ∀ call ∈ calls, call.Fits cal) :
    List.Forall₂ (DateCall.Right cal) calls (formatAll cal c calls) ↔
      (∀ call ∈ calls, call.Counts) ∧
        (∀ call, calls.head? = some call → shown cal call c = call.own cal) ∧
          calls.IsChain (DateCall.Agrees cal) := by
  induction calls generalizing c with
  | nil => simp [formatAll]
  | cons call calls ih =>
      have hfit := hfits call List.mem_cons_self
      have ih := ih (c := (call.unit.format cal call.timestamp c).2) fun call hcall =>
        hfits call (List.mem_cons_of_mem _ hcall)
      have hhead : (∀ call' : DateCall, calls.head? = some call' →
          shown cal call' ⟨call.own cal, call.seconds⟩ = call'.own cal) ↔
            ∀ call' ∈ calls.head?, call.Agrees cal call' := by
        simp only [shown_eq_own, DateCall.Agrees, Option.mem_def]
      rw [formatAll, List.forall₂_cons, right_format_iff hfit, ih, format_eq hfit,
        List.isChain_cons, List.forall_mem_cons, List.head?_cons, ← hhead]
      simp only [Option.some.injEq, forall_eq']
      constructor
      · rintro ⟨⟨hcounts, hshown⟩, hcounts', hnext, hchain⟩
        rw [hshown] at hnext
        exact ⟨⟨hcounts, hcounts'⟩, hshown, hnext, hchain⟩
      · rintro ⟨⟨hcounts, hcounts'⟩, hshown, hnext, hchain⟩
        rw [hshown]
        exact ⟨⟨hcounts, rfl⟩, hcounts', hnext, hchain⟩

/-- **Dates** are what they would be without the buffer if and only if the timestamps have no
negative remainder, the first call is not of second 0 or has no text, and calls in a row that are
of one second have one text. -/
theorem dates_iff (hfits : ∀ call ∈ calls, call.Fits cal) :
    List.Forall₂ (DateCall.Right cal) calls (formatAll cal .zero calls) ↔
      (∀ call ∈ calls, call.Counts) ∧
        (∀ call, calls.head? = some call → call.seconds = 0 → call.own cal = []) ∧
          calls.IsChain (DateCall.Agrees cal) := by
  rw [right_formatAll_iff hfits]
  simp only [shown_eq_own, TimeCache.zero]

/-- Greenwich time by the formats of seconds and minutes. -/
def utc : Calendar ℤ where
  localtime_r t := t
  strftime fmt t :=
    if fmt = ['%', 'S'] then pad 2 (Nat.toDigits 10 (t % 60).toNat)
    else if fmt = ['%', 'M'] then pad 2 (Nat.toDigits 10 (t / 60 % 60).toNat)
    else fmt
  unfit _ _ := []

/-- Two records of a second with one format, and one of the next. -/
theorem dates_two_seconds :
    List.Forall₂ (DateCall.Right utc)
      [⟨⟨['%', 'S']⟩, 61000000⟩, ⟨⟨['%', 'S']⟩, 61500000⟩, ⟨⟨['%', 'M']⟩, 62000001⟩]
      (formatAll utc .zero
        [⟨⟨['%', 'S']⟩, 61000000⟩, ⟨⟨['%', 'S']⟩, 61500000⟩, ⟨⟨['%', 'M']⟩, 62000001⟩]) :=
  (dates_iff (by decide)).mpr ⟨by decide, by simp [DateCall.seconds]; decide, by decide⟩

/-- A record with two formats: the minutes are the seconds. -/
theorem dates_false :
    formatAll utc .zero [⟨⟨['%', 'S']⟩, 62000000⟩, ⟨⟨['%', 'M']⟩, 62000000⟩] =
        ["02.000000".toList, "02.000000".toList] ∧
      ¬List.Forall₂ (DateCall.Right utc) [⟨⟨['%', 'S']⟩, 62000000⟩, ⟨⟨['%', 'M']⟩, 62000000⟩]
        (formatAll utc .zero [⟨⟨['%', 'S']⟩, 62000000⟩, ⟨⟨['%', 'M']⟩, 62000000⟩]) := by
  refine ⟨by decide, fun h => ?_⟩
  have hchain := ((right_formatAll_iff (by decide)).mp h).2.2
  exact absurd hchain (by decide)

end Easy.Base
