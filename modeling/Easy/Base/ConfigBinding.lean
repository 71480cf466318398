import Easy.Base.Config
import Easy.Lib.Lts

/-!
Which variable a configuration name is bound to, over all sequences of calls.

A handle is a pointer that a successful `Lookup` returned. Only `Lookup` with a
default value changes what a name is bound to, and it does so when it finds the
name bound to a variable of the type asked for: it goes on and makes another one.
-/

namespace Easy.Base

open Lib

variable {τ : Type} {E : TypeEnv τ}

/-! ### What the calls leave alone -/

namespace Registry

variable {r : Registry E}

/-- The functions that work on variables keep every name's binding and every
variable's type. -/
structure KeepsBindings (r r' : Registry E) : Prop where
  datas : r'.datas = r.datas
  typeOf : ∀ a, r'.typeOf a = r.typeOf a

theorem KeepsBindings.rfl : r.KeepsBindings r := ⟨Eq.refl _, fun _ => Eq.refl _⟩

theorem KeepsBindings.trans {r' r'' : Registry E} (h : r.KeepsBindings r')
    (h' : r'.KeepsBindings r'') : r.KeepsBindings r'' :=
  ⟨h'.datas.trans h.datas, fun a => (h'.typeOf a).trans (h.typeOf a)⟩

/-- A variable is replaced by one of the same type. -/
theorem KeepsBindings.of_set {r' : Registry E} {a : ℕ} {T : τ} {c c' : ConfigVar (E.Val T)}
    (ha : r.vars[a]? = some ⟨T, c⟩) (hdatas : r'.datas = r.datas)
    (hvars : r'.vars = r.vars.set a ⟨T, c'⟩) : r.KeepsBindings r' := by
  refine ⟨hdatas, fun b => ?_⟩
  simp only [Registry.typeOf, hvars, List.getElem?_set]
  split
  · rename_i hab
    subst hab
    obtain ⟨hlt, hget⟩ := List.getElem?_eq_some_iff.mp ha
    simp [hlt, hget]
  · rfl

variable [DecidableEq τ]

theorem setValue_keeps (r : Registry E) (a : ℕ) (T : τ) (v : E.Val T) :
    r.KeepsBindings (r.setValue a T v) := by
  simp only [setValue]
  split
  · rename_i T' c hc
    split
    · exact .of_set hc rfl rfl
    · exact .rfl
  · exact .rfl

theorem addListener_keeps (r : Registry E) (a cb : ℕ) : r.KeepsBindings (r.addListener a cb) := by
  simp only [addListener]
  split
  · exact .of_set ‹_› rfl rfl
  · exact .rfl

omit [DecidableEq τ] in
theorem fromString_keeps (r : Registry E) (a : ℕ) (val : String) :
    r.KeepsBindings (r.fromString a val) := by
  simp only [fromString]
  split
  · exact .of_set ‹_› rfl rfl
  · exact .rfl

omit [DecidableEq τ] in
theorem loadNode_keeps (emit : Yaml → String) (r : Registry E) (i : String × Yaml) :
    r.KeepsBindings (loadNode emit r i) := by
  simp only [loadNode]
  split
  · exact .rfl
  · split
    · split <;> exact fromString_keeps ..
    · exact .rfl

omit [DecidableEq τ] in
theorem loadFromYaml_keeps (emit : Yaml → String) (r : Registry E) (root : Yaml) :
    r.KeepsBindings (r.loadFromYaml emit root) := by
  simp only [loadFromYaml]
  induction listAllMember "" root generalizing r with
  | nil => exact .rfl
  | cons i is ih => exact (loadNode_keeps emit r i).trans (ih _)

/-- `Lookup` with a default value refuses a name of another type, throws, or binds the
name to a new variable. -/
theorem lookupDefault_cases (r : Registry E) (name : String) (T : τ) (v : E.Val T) :
    (r.datas name).isSome ∧ (r.datas name).bind r.typeOf ≠ some T ∧
      r.lookupDefault name T v = .ok (none, r) ∨
    ((r.datas name = none ∨ (r.datas name).bind r.typeOf = some T) ∧ validName name = false ∧
      r.lookupDefault name T v = .error name) ∨
    ((r.datas name = none ∨ (r.datas name).bind r.typeOf = some T) ∧ validName name ∧
      r.lookupDefault name T v = .ok (some r.vars.length, { r with
        datas := Function.update r.datas name (some r.vars.length)
        vars := r.vars ++ [⟨T, v, []⟩] })) := by
  simp only [lookupDefault]
  by_cases hother : (r.datas name).isSome ∧ (r.datas name).bind r.typeOf ≠ some T
  · exact .inl ⟨hother.1, hother.2, if_pos hother⟩
  · have hfree : r.datas name = none ∨ (r.datas name).bind r.typeOf = some T := by
      by_cases hnone : r.datas name = none
      · exact .inl hnone
      · exact .inr (not_not.mp fun h => hother ⟨Option.isSome_iff_ne_none.mpr hnone, h⟩)
    right
    rw [if_neg hother]
    cases hvalid : validName name
    · exact .inl ⟨hfree, rfl, rfl⟩
    · exact .inr ⟨hfree, rfl, rfl⟩

end Registry

/-! ### Runs -/

/-- A handle: the name and the type of a `Lookup`, and the variable it returned. -/
structure Handle (τ : Type) where
  name : String
  type : τ
  var : ℕ
  deriving DecidableEq

/-- The registry, and the handles that have been returned. -/
structure ConfigRun (E : TypeEnv τ) where
  registry : Registry E
  handles : List (Handle τ)

/-- The calls, with their arguments. -/
inductive ConfigOp (E : TypeEnv τ)
  | lookupDefault (name : String) (T : τ) (default_value : E.Val T)
  | lookup (name : String) (T : τ)
  | loadFromYaml (root : Yaml)
  | setValue (a : ℕ) (T : τ) (v : E.Val T)
  | addListener (a cb : ℕ)

namespace ConfigRun

variable [DecidableEq τ]

/-- A `Lookup` that returns no variable leaves no handle. -/
def record (s : ConfigRun E) (name : String) (T : τ) : Option ℕ → ConfigRun E
  | some a => { s with handles := s.handles ++ [⟨name, T, a⟩] }
  | none => s

def step (emit : Yaml → String) (s : ConfigRun E) : ConfigOp E → Option (ConfigRun E)
  | .lookupDefault name T default_value =>
    match s.registry.lookupDefault name T default_value with
    | .ok (v, registry) => some (record { s with registry := registry } name T v)
    | .error _ => some s
  | .lookup name T => some (s.record name T (s.registry.lookup name T))
  | .loadFromYaml root => some { s with registry := s.registry.loadFromYaml emit root }
  | .setValue a T v => some { s with registry := s.registry.setValue a T v }
  | .addListener a cb => some { s with registry := s.registry.addListener a cb }

def start (E : TypeEnv τ) : ConfigRun E := ⟨.empty E, []⟩

/-- All sequences of calls. -/
def machine (E : TypeEnv τ) (emit : Yaml → String) : Lts (ConfigRun E) (ConfigOp E) where
  init s := s = start E
  step := step emit

/-- All handles of one name and type are one variable, and it is the one that the name
is bound to, so that a value loaded later is seen through each of them. -/
structure Bound (s : ConfigRun E) : Prop where
  one : ∀ h ∈ s.handles, ∀ h' ∈ s.handles, h.name = h'.name → h.type = h'.type → h.var = h'.var
  current : ∀ h ∈ s.handles, s.registry.datas h.name = some h.var

/-- A `Lookup` with a default value is for a name that is not bound to a variable of
its type. -/
def Unbound (s : ConfigRun E) : ConfigOp E → Prop
  | .lookupDefault name T _ => (s.registry.datas name).bind s.registry.typeOf ≠ some T
  | _ => True

instance (s : ConfigRun E) : DecidablePred s.Unbound
  | .lookupDefault .. => inferInstanceAs (Decidable (_ ≠ _))
  | .lookup .. | .loadFromYaml _ | .setValue .. | .addListener .. =>
    inferInstanceAs (Decidable True)

/-- Names are bound to variables that a handle was returned for, under valid names. -/
structure Registered (s : ConfigRun E) : Prop where
  valid : ∀ name a, s.registry.datas name = some a → validName name
  handle : ∀ name a, s.registry.datas name = some a → ∃ h ∈ s.handles, h.name = name ∧ h.var = a
  typed : ∀ h ∈ s.handles, s.registry.typeOf h.var = some h.type

section Step

variable {s s' : ConfigRun E} {emit : Yaml → String}

omit [DecidableEq τ] in
theorem Registered.of_keeps {r : Registry E} (h : s.Registered)
    (hr : s.registry.KeepsBindings r) : Registered { s with registry := r } := by
  constructor
  · intro name a ha
    exact h.valid name a (hr.datas ▸ ha)
  · intro name a ha
    exact h.handle name a (hr.datas ▸ ha)
  · intro x hx
    exact (hr.typeOf x.var).trans (h.typed x hx)

omit [DecidableEq τ] in
theorem Bound.of_keeps {r : Registry E} (h : s.Bound) (hr : s.registry.KeepsBindings r) :
    Bound { s with registry := r } :=
  ⟨h.one, fun x hx => (congrFun hr.datas x.name).trans (h.current x hx)⟩

omit [DecidableEq τ] in
/-- A handle to the variable the name is bound to. -/
theorem Bound.append {x : Handle τ} (h : s.Bound) (hx : s.registry.datas x.name = some x.var) :
    Bound { s with handles := s.handles ++ [x] } := by
  have hcurrent : ∀ y ∈ s.handles ++ [x], s.registry.datas y.name = some y.var := by
    intro y hy
    rcases List.mem_append.mp hy with hy | hy
    · exact h.current y hy
    · rw [List.mem_singleton.mp hy]
      exact hx
  refine ⟨fun y hy z hz hname _ => ?_, hcurrent⟩
  exact Option.some.inj ((hcurrent y hy).symm.trans (hname ▸ hcurrent z hz))

omit [DecidableEq τ] in
theorem Registered.append {x : Handle τ} (h : s.Registered)
    (hx : s.registry.typeOf x.var = some x.type) :
    Registered { s with handles := s.handles ++ [x] } := by
  refine ⟨h.valid, fun name a ha => ?_, fun y hy => ?_⟩
  · obtain ⟨y, hy, hya⟩ := h.handle name a ha
    exact ⟨y, List.mem_append_left _ hy, hya⟩
  · rcases List.mem_append.mp hy with hy | hy
    · exact h.typed y hy
    · rw [List.mem_singleton.mp hy]
      exact hx

/-- The state after `Lookup` has made a variable. -/
def made (s : ConfigRun E) (name : String) (T : τ) (v : E.Val T) : ConfigRun E :=
  ⟨{ s.registry with
    datas := Function.update s.registry.datas name (some s.registry.vars.length)
    vars := s.registry.vars ++ [⟨T, v, []⟩] }, s.handles ++ [⟨name, T, s.registry.vars.length⟩]⟩

omit [DecidableEq τ] in
theorem typeOf_lt {r : Registry E} {a : ℕ} {T : τ} (h : r.typeOf a = some T) :
    a < r.vars.length := by
  obtain ⟨x, hx, -⟩ := Option.map_eq_some_iff.mp h
  exact (List.getElem?_eq_some_iff.mp hx).1

omit [DecidableEq τ] in
theorem Registered.made (h : s.Registered) {name : String} (hvalid : validName name) (T : τ)
    (v : E.Val T) : (s.made name T v).Registered := by
  constructor
  · intro n a ha
    by_cases hn : n = name
    · exact hn ▸ hvalid
    · exact h.valid n a (by simpa [ConfigRun.made, hn] using ha)
  · intro n a ha
    by_cases hn : n = name
    · subst hn
      refine ⟨⟨n, T, s.registry.vars.length⟩, by simp [ConfigRun.made], rfl, ?_⟩
      simpa [ConfigRun.made] using ha
    · obtain ⟨x, hx, hxa⟩ := h.handle n a (by simpa [ConfigRun.made, hn] using ha)
      exact ⟨x, List.mem_append_left _ hx, hxa⟩
  · intro x hx
    rcases List.mem_append.mp hx with hx | hx
    · have htyped := h.typed x hx
      rw [Registry.typeOf, ConfigRun.made, List.getElem?_append_left (typeOf_lt htyped)]
      exact htyped
    · rw [List.mem_singleton.mp hx]
      simp [Registry.typeOf, ConfigRun.made]

omit [DecidableEq τ] in
/-- Making a variable keeps all handles bound if and only if the name had none. -/
theorem made_bound (hI : s.Registered) (h : s.Bound) (name : String) (T : τ) (v : E.Val T) :
    (s.made name T v).Bound ↔ s.registry.datas name = none := by
  constructor
  · intro hb
    by_contra hsome
    obtain ⟨a, ha⟩ := Option.ne_none_iff_exists'.mp hsome
    obtain ⟨x, hx, rfl, rfl⟩ := hI.handle name a ha
    -- the old handle is to a variable that exists, the name is bound to a new one
    have hlt := typeOf_lt (hI.typed x hx)
    have hnew := hb.current x (List.mem_append_left _ hx)
    simp only [made, Function.update_self, Option.some.injEq] at hnew
    omega
  · intro hnone
    refine Bound.append (s := { s with registry := (s.made name T v).registry })
      ⟨h.one, fun x hx => ?_⟩ (by simp [made])
    have hne : x.name ≠ name := by
      rintro rfl
      simp [h.current x hx] at hnone
    simpa [made, hne] using h.current x hx

theorem step_lookupDefault {name : String} {T : τ} {v : E.Val T}
    (hstep : (machine E emit).step s (.lookupDefault name T v) = some s') (hI : s.Registered)
    (h : s.Bound) : s'.Registered ∧ (s'.Bound ↔ s.Unbound (.lookupDefault name T v)) := by
  simp only [machine, step] at hstep
  rcases s.registry.lookupDefault_cases name T v with
    ⟨-, hother, heq⟩ | ⟨hfree, hinvalid, heq⟩ | ⟨hfree, hvalid, heq⟩
  · rw [heq] at hstep
    obtain rfl := Option.some.inj hstep
    exact ⟨hI, iff_of_true h hother⟩
  · rw [heq] at hstep
    obtain rfl := Option.some.inj hstep
    -- an invalid name is not bound
    have hnone : s.registry.datas name = none := by
      by_contra hsome
      obtain ⟨a, ha⟩ := Option.ne_none_iff_exists'.mp hsome
      simp [hI.valid name a ha] at hinvalid
    exact ⟨hI, iff_of_true h (by simp [Unbound, hnone])⟩
  · rw [heq] at hstep
    obtain rfl := Option.some.inj hstep
    refine ⟨hI.made hvalid T v, (made_bound hI h name T v).trans ⟨fun hnone => ?_, ?_⟩⟩
    · simp [Unbound, hnone]
    · exact fun hne => hfree.resolve_right hne

theorem step_lookup {name : String} {T : τ}
    (hstep : (machine E emit).step s (.lookup name T) = some s') (hI : s.Registered)
    (h : s.Bound) : s'.Registered ∧ s'.Bound := by
  obtain rfl := Option.some.inj hstep
  cases hfound : s.registry.lookup name T with
  | none => exact ⟨hI, h⟩
  | some a =>
      obtain ⟨hdatas, htype⟩ := Option.filter_eq_some_iff.mp hfound
      exact ⟨hI.append (x := ⟨name, T, a⟩) (by simpa using htype),
        h.append (x := ⟨name, T, a⟩) hdatas⟩

/-- **One call** keeps all handles bound if and only if it is not a `Lookup` with a
default value that finds a variable of its type. -/
theorem step_bound {op : ConfigOp E} (hstep : (machine E emit).step s op = some s')
    (hI : s.Registered) (h : s.Bound) : s'.Registered ∧ (s'.Bound ↔ s.Unbound op) := by
  have hkeep : ∀ {r : Registry E}, s.registry.KeepsBindings r →
      Registered { s with registry := r } ∧ (Bound { s with registry := r } ↔ True) :=
    fun hr => ⟨hI.of_keeps hr, iff_of_true (h.of_keeps hr) trivial⟩
  cases op with
  | lookupDefault name T v => exact step_lookupDefault hstep hI h
  | lookup name T =>
      obtain ⟨hI', h'⟩ := step_lookup hstep hI h
      exact ⟨hI', iff_of_true h' trivial⟩
  | loadFromYaml root =>
      obtain rfl := Option.some.inj hstep
      exact hkeep (Registry.loadFromYaml_keeps emit s.registry root)
  | setValue a T v =>
      obtain rfl := Option.some.inj hstep
      exact hkeep (Registry.setValue_keeps s.registry a T v)
  | addListener a cb =>
      obtain rfl := Option.some.inj hstep
      exact hkeep (Registry.addListener_keeps s.registry a cb)

/-- `Lookup` leaves the variables there are as they are. -/
theorem getElem?_lookupDefault {r r' : Registry E} {name : String} {T : τ}
    {v : E.Val T} {x : Option ℕ} (h : r.lookupDefault name T v = .ok (x, r')) {a : ℕ}
    {c : Σ T, ConfigVar (E.Val T)} (ha : r.vars[a]? = some c) : r'.vars[a]? = some c := by
  rcases r.lookupDefault_cases name T v with ⟨-, -, heq⟩ | ⟨-, -, heq⟩ | ⟨-, -, heq⟩
  · obtain ⟨-, rfl⟩ := Prod.mk.inj (Except.ok.inj (heq.symm.trans h))
    exact ha
  · cases heq.symm.trans h
  · obtain ⟨-, rfl⟩ := Prod.mk.inj (Except.ok.inj (heq.symm.trans h))
    exact (List.getElem?_append_left (List.getElem?_eq_some_iff.mp ha).1).trans ha

/-- **A name stays bound** to one variable, along a run of the registry, if and only
if no `Lookup` with a default value finds a variable of its type. No `Lookup` changes
a variable; and one with another type returns null, with or without a default value,
and changes nothing. -/
theorem bound_along_iff (emit : Yaml → String) :
    (∀ ops, (machine E emit).Along Bound (start E) ops ↔
      (machine E emit).Meets Unbound (start E) ops) ∧
    (∀ (r r' : Registry E) (name : String) (T : τ) (v : E.Val T) (x : Option ℕ),
      r.lookupDefault name T v = .ok (x, r') →
        ∀ (a : ℕ) c, r.vars[a]? = some c → r'.vars[a]? = some c) ∧
    ∀ (r : Registry E) (name : String) (a : ℕ) (T : τ) (v : E.Val T),
      r.datas name = some a → r.typeOf a ≠ some T →
        r.lookupDefault name T v = .ok (none, r) ∧ r.lookup name T = none := by
  refine ⟨?_, ?_, ?_⟩
  · refine Lts.along_iff_meets (I := Registered) (fun _ _ _ hs hI h => (step_bound hs hI h).1)
      (fun _ _ _ hs hI h => (step_bound hs hI h).2) ?_ ?_
    · exact ⟨by simp [start, Registry.empty], by simp [start, Registry.empty], by simp [start]⟩
    · exact ⟨by simp [start], by simp [start]⟩
  · intro r r' name T v x h a c ha
    exact getElem?_lookupDefault h ha
  · intro r name a T v ha htype
    constructor
    · simp [Registry.lookupDefault, ha, htype]
    · simp [Registry.lookup, ha, htype]

end Step

/-- A process whose variables are all of type `ℕ`. -/
def natEnv : TypeEnv Unit where
  Val _ := ℕ
  eq _ a b := a == b
  fromStr _ s := s.toNat?
  throws _ _ _ _ := false

/-- The second `Lookup` of a name makes a second variable. -/
theorem bound_false : ∃ s, (machine natEnv fun _ => "").Reachable s ∧ ¬ s.Bound := by
  have hrun : (((machine natEnv fun _ => "").run (start natEnv)
      [.lookupDefault "system.port" () (8080 : ℕ), .lookupDefault "system.port" () (8080 : ℕ)]).map
        ConfigRun.handles) = some [⟨"system.port", (), 0⟩, ⟨"system.port", (), 1⟩] := by decide
  obtain ⟨s, hr, hhandles⟩ := Lts.Reachable.of_map_run hrun (.init rfl)
  refine ⟨s, hr, fun h => ?_⟩
  have := h.one ⟨"system.port", (), 0⟩ (by simp [hhandles]) ⟨"system.port", (), 1⟩
    (by simp [hhandles]) rfl rfl
  cases this

end ConfigRun

end Easy.Base
