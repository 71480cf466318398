import Mathlib.Data.Nat.Init
import Easy.Base.Logger

/-!
Which patterns `LogFormatter::compile` accepts (`easy/base/LogFormatter.cc`).

`Parses` is the grammar of patterns, with the units that a pattern stands for. The first loop of
`compile` has two states, and does not look at the one that it ends in. If that is `UNIT`, the
last character is a `%` of which nothing is left and which is no error.
-/

namespace Easy.Base

/-! ### Well-formed patterns -/

/-- The next character is a `{`, and a `}` follows later. -/
def HasArgument (s : List Char) : Prop := ∃ t, s = '{' :: t ∧ '}' ∈ t

/-- The items of a pattern, and their units. An argument is the text up to the first `}`. -/
inductive Parses : List Char → List FormatUnit → Prop
  | nil : Parses [] []
  | plain {c : Char} {s : List Char} {units : List FormatUnit} (hc : c ≠ '%')
      (hs : Parses s units) : Parses (c :: s) (.string (.ofList [c]) :: units)
  | directive {d : Char} {cls : UnitClass} {s : List Char} {units : List FormatUnit}
      (hd : sFormatUnits d = some cls) (harg : ¬HasArgument s) (hs : Parses s units) :
      Parses ('%' :: d :: s) (.directive cls "" :: units)
  | argument {d : Char} {cls : UnitClass} {arg s : List Char} {units : List FormatUnit}
      (hd : sFormatUnits d = some cls) (harg : '}' ∉ arg) (hs : Parses s units) :
      Parses ('%' :: d :: '{' :: (arg ++ '}' :: s)) (.directive cls (.ofList arg) :: units)

def WellFormed (s : List Char) : Prop := ∃ units, Parses s units

/-! ### The argument of a directive -/

variable {s t arg rest : List Char}

theorem braces_append (h : '}' ∉ arg) (s : List Char) :
    braces ('{' :: (arg ++ '}' :: s)) = some (.ofList arg, s) := by
  have hne : ∀ c ∈ arg, decide (c ≠ '}') = true := fun c hc =>
    decide_eq_true fun heq : c = '}' => h (heq ▸ hc)
  rw [braces, if_pos (by simp), List.takeWhile_append_of_pos hne, List.dropWhile_append_of_pos hne]
  simp

theorem braces_none (h : ¬HasArgument s) : braces s = none := by
  rw [braces.eq_def]
  split
  case h_1 cs => exact if_neg fun hmem => h ⟨cs, rfl, hmem⟩
  case h_2 => rfl

/-- Otherwise there is one. -/
theorem braces_cases (s : List Char) : braces s = none ∧ ¬HasArgument s ∨
    ∃ arg rest, braces s = some (.ofList arg, rest) ∧ '}' ∉ arg ∧
      s = '{' :: (arg ++ '}' :: rest) := by
  by_cases h : HasArgument s
  · obtain ⟨cs, rfl, hmem⟩ := h
    obtain ⟨arg, rest, rfl, harg⟩ := List.eq_append_cons_of_mem hmem
    exact .inr ⟨arg, rest, braces_append harg rest, harg, rfl⟩
  · exact .inl ⟨braces_none h, h⟩

/-! ### The first loop -/

/-- The status that the first loop of `compile` ends in. -/
def ends : ℕ → STATUS → List Char → STATUS
  | 0, status, _ => status
  | _ + 1, status, [] => status
  | fuel + 1, .STR, c :: cs => if c = '%' then ends fuel .UNIT cs else ends fuel .STR cs
  | fuel + 1, .UNIT, _ :: cs =>
    match braces cs with
    | some (_, rest) => ends fuel .STR rest
    | none => ends fuel .STR cs

/-- The units of what is left of a pattern, each with whether it sets `error_`, and the status
at its end. -/
def compiled (status : STATUS) (s : List Char) : List (FormatUnit × Bool) × STATUS :=
  ((scan s.length status s).map compileUnit, ends s.length status s)

theorem length_braces (h : braces s = some (a, rest)) : rest.length < s.length := by
  rcases braces_cases s with ⟨hnone, -⟩ | ⟨arg, rest', hsome, -, rfl⟩
  · rw [hnone] at h
    cases h
  · obtain ⟨-, rfl⟩ := Prod.mk.inj (Option.some.inj (hsome.symm.trans h))
    simp only [List.length_cons, List.length_append]
    omega

/-- More fuel than there are characters changes nothing. -/
theorem scan_fuel {fuel fuel' : ℕ} (status : STATUS) (h : s.length ≤ fuel) (h' : s.length ≤ fuel') :
    scan fuel status s = scan fuel' status s ∧ ends fuel status s = ends fuel' status s := by
  induction fuel generalizing fuel' status s with
  | zero =>
      obtain rfl := List.length_eq_zero_iff.mp (Nat.le_zero.mp h)
      cases fuel' <;> exact ⟨rfl, rfl⟩
  | succ fuel ih =>
      cases s with
      | nil => cases fuel' <;> exact ⟨rfl, rfl⟩
      | cons c cs =>
          cases fuel' with
          | zero => simp at h'
          | succ fuel' =>
              have hcs := Nat.le_of_succ_le_succ h
              have hcs' := Nat.le_of_succ_le_succ h'
              cases status with
              | STR =>
                  obtain ⟨hunit, hunit'⟩ := ih .UNIT hcs hcs'
                  obtain ⟨hstr, hstr'⟩ := ih .STR hcs hcs'
                  rw [scan, scan, ends, ends, hunit, hunit', hstr, hstr']
                  exact ⟨rfl, rfl⟩
              | UNIT =>
                  rw [scan, scan, ends, ends]
                  cases hb : braces cs with
                  | none =>
                      obtain ⟨hstr, hstr'⟩ := ih .STR hcs hcs'
                      simp only [hstr, hstr', and_self]
                  | some r =>
                      have hlt : r.2.length < cs.length := length_braces hb
                      obtain ⟨hstr, hstr'⟩ := ih .STR (Nat.le_trans (Nat.le_of_lt hlt) hcs)
                        (Nat.le_trans (Nat.le_of_lt hlt) hcs')
                      simp only [hstr, hstr', and_self]

@[simp] theorem compiled_nil (status : STATUS) : compiled status [] = ([], status) := rfl

theorem compiled_plain {c : Char} (hc : c ≠ '%') (s : List Char) : compiled .STR (c :: s) =
    ((.string (.ofList [c]), false) :: (compiled .STR s).1, (compiled .STR s).2) := by
  simp only [compiled, List.length_cons, scan, ends, if_neg hc, List.map_cons, compileUnit]

theorem compiled_percent (s : List Char) : compiled .STR ('%' :: s) = compiled .UNIT s := by
  simp only [compiled, List.length_cons, scan, ends, if_true]

theorem compiled_directive {d : Char} (h : ¬HasArgument s) : compiled .UNIT (d :: s) =
    (compileUnit (d, "", .UNIT) :: (compiled .STR s).1, (compiled .STR s).2) := by
  simp only [compiled, List.length_cons, scan, ends, braces_none h, List.map_cons]

theorem compiled_argument {d : Char} (h : '}' ∉ arg) (s : List Char) :
    compiled .UNIT (d :: '{' :: (arg ++ '}' :: s)) =
      (compileUnit (d, .ofList arg, .UNIT) :: (compiled .STR s).1, (compiled .STR s).2) := by
  have hle : s.length ≤ ('{' :: (arg ++ '}' :: s)).length :=
    Nat.le_of_lt (length_braces (braces_append h s))
  obtain ⟨hscan, hends⟩ := scan_fuel .STR hle (Nat.le_refl _)
  rw [compiled, List.length_cons]
  simp only [scan, ends, braces_append h, List.map_cons, hscan, hends]
  rfl

theorem compileUnit_unit (d : Char) (arg : String) : compileUnit (d, arg, .UNIT) =
    match sFormatUnits d with
    | some cls => (.directive cls arg, false)
    | none => (.string ("<<error_format %" ++ .ofList [d] ++ ">>"), true) := rfl

/-! ### Well-formed patterns are accepted -/

/-- What can stand behind a pattern without becoming part of its last argument. -/
theorem hasArgument_append (ht : '}' ∉ t) (hhead : t.head? ≠ some '{') (s : List Char) :
    HasArgument (s ++ t) ↔ HasArgument s := by
  cases s with
  | nil =>
      refine iff_of_false ?_ fun ⟨cs, hcs, _⟩ => by cases hcs
      rintro ⟨cs, rfl, -⟩
      exact hhead rfl
  | cons c cs =>
      constructor
      · rintro ⟨cs', hcs', hmem⟩
        obtain ⟨rfl, rfl⟩ := List.cons.inj hcs'
        exact ⟨cs, rfl, (List.mem_append.mp hmem).resolve_right ht⟩
      · rintro ⟨cs', hcs', hmem⟩
        obtain ⟨rfl, rfl⟩ := List.cons.inj hcs'
        exact ⟨cs ++ t, rfl, List.mem_append_left t hmem⟩

/-- **A well-formed pattern** in front of others gives its units, and no error. -/
theorem compiled_append {units : List FormatUnit} (h : Parses s units) (ht : '}' ∉ t)
    (hhead : t.head? ≠ some '{') : compiled .STR (s ++ t) =
      (units.map (·, false) ++ (compiled .STR t).1, (compiled .STR t).2) := by
  induction h with
  | nil => rfl
  | plain hc hs ih => rw [List.cons_append, compiled_plain hc, ih]; rfl
  | @directive d cls s units hd harg hs ih =>
      have hnone := mt (hasArgument_append ht hhead s).mp harg
      rw [List.cons_append, List.cons_append, compiled_percent, compiled_directive hnone, ih,
        compileUnit_unit, hd]
      rfl
  | @argument d cls arg s units hd harg hs ih =>
      have happend : '%' :: d :: '{' :: (arg ++ '}' :: s) ++ t =
          '%' :: d :: '{' :: (arg ++ '}' :: (s ++ t)) := by simp
      rw [happend, compiled_percent, compiled_argument harg, ih, compileUnit_unit, hd]
      rfl

/-! ### What is accepted is well formed -/

/-- A well-formed pattern with a `%` behind it. -/
def Dangling (s : List Char) : Prop := ∃ w, s = w ++ ['%'] ∧ WellFormed w

/-- What the first loop makes of a pattern without an error. -/
def Accepted (s : List Char) : STATUS → Prop
  | .STR => WellFormed s
  | .UNIT => Dangling s

theorem Accepted.plain {c : Char} (hc : c ≠ '%') {status : STATUS} (h : Accepted s status) :
    Accepted (c :: s) status := by
  cases status with
  | STR =>
      obtain ⟨units, hs⟩ := h
      exact ⟨_, .plain hc hs⟩
  | UNIT =>
      obtain ⟨w, rfl, units, hw⟩ := h
      exact ⟨c :: w, rfl, _, .plain hc hw⟩

theorem Accepted.directive {d : Char} {cls : UnitClass} (hd : sFormatUnits d = some cls)
    (harg : ¬HasArgument s) {status : STATUS} (h : Accepted s status) :
    Accepted ('%' :: d :: s) status := by
  cases status with
  | STR =>
      obtain ⟨units, hs⟩ := h
      exact ⟨_, .directive hd harg hs⟩
  | UNIT =>
      obtain ⟨w, rfl, units, hw⟩ := h
      rw [hasArgument_append (by decide) (by decide)] at harg
      exact ⟨'%' :: d :: w, rfl, _, .directive hd harg hw⟩

theorem Accepted.argument {d : Char} {cls : UnitClass} (hd : sFormatUnits d = some cls)
    (harg : '}' ∉ arg) {status : STATUS} (h : Accepted s status) :
    Accepted ('%' :: d :: '{' :: (arg ++ '}' :: s)) status := by
  cases status with
  | STR =>
      obtain ⟨units, hs⟩ := h
      exact ⟨_, .argument hd harg hs⟩
  | UNIT =>
      obtain ⟨w, rfl, units, hw⟩ := h
      exact ⟨'%' :: d :: '{' :: (arg ++ '}' :: w), by simp, _, .argument hd harg hw⟩

/-- A unit that sets no error is one of the table. -/
theorem exists_of_compileUnit {d : Char} {arg : String}
    (h : (compileUnit (d, arg, .UNIT)).2 = false) : ∃ cls, sFormatUnits d = some cls := by
  rw [compileUnit_unit] at h
  split at h
  case h_1 cls hd => exact ⟨cls, hd⟩
  case h_2 => cases h

/-- **Without an error** a pattern is well formed, or there is a `%` behind it. -/
theorem accepted_of_compiled (h : ∀ u ∈ (compiled .STR s).1, u.2 = false) :
    Accepted s (compiled .STR s).2 := by
  induction hn : s.length using Nat.strong_induction_on generalizing s with
  | _ n ih =>
      cases s with
      | nil => exact ⟨[], .nil⟩
      | cons c cs =>
          rw [List.length_cons] at hn
          by_cases hc : c = '%'
          case neg =>
            rw [compiled_plain hc] at h ⊢
            exact .plain hc (ih cs.length (by omega) (fun u hu => h u (by simp [hu])) rfl)
          subst hc
          rw [compiled_percent] at h ⊢
          cases cs with
          | nil => exact ⟨[], rfl, [], .nil⟩
          | cons d cs =>
              rw [List.length_cons] at hn
              rcases braces_cases cs with ⟨-, hnone⟩ | ⟨arg, rest, -, harg, rfl⟩
              · rw [compiled_directive hnone] at h ⊢
                obtain ⟨cls, hd⟩ := exists_of_compileUnit (h _ List.mem_cons_self)
                exact .directive hd hnone
                  (ih cs.length (by omega) (fun u hu => h u (by simp [hu])) rfl)
              · rw [compiled_argument harg] at h ⊢
                obtain ⟨cls, hd⟩ := exists_of_compileUnit (h _ List.mem_cons_self)
                rw [List.length_cons, List.length_append, List.length_cons] at hn
                exact .argument hd harg
                  (ih rest.length (by omega) (fun u hu => h u (by simp [hu])) rfl)

/-! ### `compile` -/

namespace LogFormatter

variable {f : LogFormatter}

theorem compile_eq (f : LogFormatter) : f.compile = (compiled .STR f.pattern.toList).1 := rfl

theorem error_eq_false_iff :
    f.error = false ↔ ∀ u ∈ (compiled .STR f.pattern.toList).1, u.2 = false := by
  rw [error, compile_eq, List.any_eq_false]
  simp

/-- A well-formed pattern has its units, and no error. -/
theorem units_of_parses {units : List FormatUnit} (h : Parses f.pattern.toList units) :
    f.error = false ∧ f.units = units ∧ (compiled .STR f.pattern.toList).2 = .STR := by
  have hcompiled := compiled_append (t := []) h (by simp) (by simp)
  rw [List.append_nil, compiled_nil, List.append_nil] at hcompiled
  rw [error_eq_false_iff, LogFormatter.units, compile_eq, hcompiled]
  refine ⟨by simp, ?_, rfl⟩
  rw [List.map_map]
  exact List.map_id units

/-- A pattern with a `%` behind it has its units, and no error. -/
theorem error_of_dangling (h : Dangling f.pattern.toList) :
    f.error = false ∧ (compiled .STR f.pattern.toList).2 = .UNIT := by
  obtain ⟨w, hw, units, hunits⟩ := h
  have hcompiled := compiled_append (t := ['%']) hunits (by decide) (by decide)
  have hlast : compiled .STR ['%'] = ([], .UNIT) := rfl
  rw [← hw, hlast, List.append_nil] at hcompiled
  rw [error_eq_false_iff, hcompiled]
  simp

/-- `compile` accepts the well-formed patterns and no others, with their units. -/
structure Compiles (f : LogFormatter) : Prop where
  error_iff : f.error = false ↔ WellFormed f.pattern.toList
  units_eq : ∀ units, Parses f.pattern.toList units → f.units = units

/-- The last `%` of a pattern is in no item of it. -/
theorem not_wellFormed (h : Dangling f.pattern.toList) : ¬WellFormed f.pattern.toList := by
  rintro ⟨units, hunits⟩
  have hstr := (units_of_parses hunits).2.2
  rw [(error_of_dangling h).2] at hstr
  cases hstr

/-- **Patterns** are compiled as they should be, except for the well-formed ones with a `%`
behind them. -/
theorem compiles_iff (f : LogFormatter) : f.Compiles ↔ ¬Dangling f.pattern.toList := by
  constructor
  · intro hcompiles hdangling
    exact not_wellFormed hdangling (hcompiles.error_iff.mp (error_of_dangling hdangling).1)
  · intro hclosed
    refine ⟨⟨fun herror => ?_, fun ⟨units, hunits⟩ => (units_of_parses hunits).1⟩,
      fun units hunits => (units_of_parses hunits).2.1⟩
    have haccepted := accepted_of_compiled (error_eq_false_iff.mp herror)
    cases hstatus : (compiled .STR f.pattern.toList).2 with
    | STR => rwa [hstatus] at haccepted
    | UNIT =>
        rw [hstatus] at haccepted
        exact absurd haccepted hclosed

/-- `100%` -/
theorem compiles_false : (LogFormatter.mk "100%").error = false ∧
    (LogFormatter.mk "100%").units = [.string "1", .string "0", .string "0"] ∧
      ¬(LogFormatter.mk "100%").Compiles := by
  have hdangling : Dangling (LogFormatter.mk "100%").pattern.toList :=
    ⟨['1', '0', '0'], by decide, _,
      .plain (by decide) (.plain (by decide) (.plain (by decide) .nil))⟩
  refine ⟨by decide, by decide, fun h => ?_⟩
  exact not_wellFormed hdangling (h.error_iff.mp (by decide))

end LogFormatter

end Easy.Base
