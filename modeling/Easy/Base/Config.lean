import Mathlib.Logic.Function.Basic
import Mathlib.Data.List.Basic

/-!
`ConfigVar` and the registry of `Config` (`easy/base/Config.h`, `Config.cc`).

Variables are made by `Lookup` and never freed while a handle to them is held; they
live in `vars`, and a pointer to one is its index. `τ` names the types a variable is
instantiated at, and `TypeEnv` what the code uses of a type: its values, its
`==`, which need not be an equality, and its conversion from text. Listeners are
named by numbers. A listener may throw; what it does besides is not part of the
registry. Every function here runs with nothing else between its lock sections.
-/

namespace Easy.Base

/-- A node of a YAML tree. The key of an entry is what `Scalar()` gives for it. -/
inductive Yaml
  | null
  | scalar (text : String)
  | sequence (items : List Yaml)
  | map (entries : List (String × Yaml))

/-- The types of configuration variables. `fromStr` is `LexicalCast<std::string, T>`,
which fails by an exception; `throws` says which calls of a listener do. -/
structure TypeEnv (τ : Type) where
  Val : τ → Type
  eq : ∀ T, Val T → Val T → Bool
  fromStr : ∀ T, String → Option (Val T)
  throws : ∀ T, ℕ → Val T → Val T → Bool

/-- `ConfigVar<T>`; `cbs` is in the order of its keys. -/
structure ConfigVar (V : Type) where
  val : V
  cbs : List (ℕ × ℕ)

/-- A call of a listener with the old and the new value. -/
structure ListenerCall {τ : Type} (E : TypeEnv τ) where
  listener : ℕ
  type : τ
  old : E.Val type
  new : E.Val type

/-- The statics of `Config` and of `ConfigVar<T>::addListener`, the variables, and
the listener calls made so far. -/
structure Registry {τ : Type} (E : TypeEnv τ) where
  datas : String → Option ℕ
  vars : List (Σ T, ConfigVar (E.Val T))
  funIds : τ → ℕ
  calls : List (ListenerCall E)

/-- The characters a name may have. -/
def alphabet : List Char := "abcdefghikjlmnopqrstuvwxyz._0123456789".toList

/-- `find_first_not_of` finds nothing. -/
def validName (name : String) : Bool := name.toList.all fun c => alphabet.contains c

mutual

/-- `ListAllMember` -/
def listAllMember (pre : String) : Yaml → List (String × Yaml)
  | .map entries =>
    if validName pre then (pre, .map entries) :: listEntries pre entries else []
  | .null => if validName pre then [(pre, .null)] else []
  | .scalar text => if validName pre then [(pre, .scalar text)] else []
  | .sequence items => if validName pre then [(pre, .sequence items)] else []

/-- The loop of `ListAllMember` over the entries of a map. -/
def listEntries (pre : String) : List (String × Yaml) → List (String × Yaml)
  | [] => []
  | (key, node) :: entries =>
    listAllMember (if pre.isEmpty then key else pre ++ "." ++ key) node ++ listEntries pre entries

end

section

variable {τ : Type} [DecidableEq τ] {E : TypeEnv τ}

namespace ConfigVar

/-- The loop of `setValue` over the listeners: the calls made, and whether all of
them returned. -/
def notify {T : τ} (old new : E.Val T) : List (ℕ × ℕ) → List (ListenerCall E) × Bool
  | [] => ([], true)
  | (_, cb) :: cbs =>
    if E.throws T cb old new then ([⟨cb, T, old, new⟩], false)
    else
      let (calls, returned) := notify old new cbs
      (⟨cb, T, old, new⟩ :: calls, returned)

/-- `ConfigVar::setValue`, with the listener calls it makes and whether it returns
without an exception. -/
def setValue {T : τ} (c : ConfigVar (E.Val T)) (v : E.Val T) :
    ConfigVar (E.Val T) × List (ListenerCall E) × Bool :=
  if E.eq T v c.val then (c, [], true)
  else
    let (calls, returned) := notify c.val v c.cbs
    (if returned then { c with val := v } else c, calls, returned)

/-- `ConfigVar::fromString`, which catches what is thrown and returns false in any
case. -/
def fromString {T : τ} (c : ConfigVar (E.Val T)) (val : String) :
    ConfigVar (E.Val T) × List (ListenerCall E) × Bool :=
  match E.fromStr T val with
  | some v => ((c.setValue v).1, (c.setValue v).2.1, false)
  | none => (c, [], false)

end ConfigVar

namespace Registry

/-- A process in which nothing has been looked up. -/
def empty (E : TypeEnv τ) : Registry E := ⟨fun _ => none, [], fun _ => 0, []⟩

/-- The type a variable was made for, which `dynamic_pointer_cast` tests. -/
def typeOf (r : Registry E) (a : ℕ) : Option τ := r.vars[a]?.map Sigma.fst

/-- `Lookup` with a default value: the variable returned, or null. The exception is
`std::invalid_argument`. -/
def lookupDefault (r : Registry E) (name : String) (T : τ) (default_value : E.Val T) :
    Except String (Option ℕ × Registry E) :=
  if (r.datas name).isSome ∧ (r.datas name).bind r.typeOf ≠ some T then .ok (none, r)
  else if !validName name then .error name
  else .ok (some r.vars.length, { r with
    datas := Function.update r.datas name (some r.vars.length)
    vars := r.vars ++ [⟨T, default_value, []⟩] })

/-- `Lookup` without a default value. -/
def lookup (r : Registry E) (name : String) (T : τ) : Option ℕ :=
  (r.datas name).filter fun a => r.typeOf a = some T

/-- `LookupBase` -/
def lookupBase (r : Registry E) (name : String) : Option ℕ := r.datas name

/-- `setValue` through a pointer to a variable of type `T`, which every handle is. -/
def setValue (r : Registry E) (a : ℕ) (T : τ) (v : E.Val T) : Registry E :=
  match r.vars[a]? with
  | some ⟨T', c⟩ =>
    if h : T = T' then
      let (c', calls, _) := c.setValue (h ▸ v)
      { r with vars := r.vars.set a ⟨T', c'⟩, calls := r.calls ++ calls }
    else r
  | none => r

/-- `addListener` through a pointer to a variable. -/
def addListener (r : Registry E) (a : ℕ) (cb : ℕ) : Registry E :=
  match r.vars[a]? with
  | some ⟨T, c⟩ =>
    let s_fun_id := r.funIds T + 1
    { r with
      vars := r.vars.set a ⟨T, { c with cbs := c.cbs ++ [(s_fun_id, cb)] }⟩
      funIds := Function.update r.funIds T s_fun_id }
  | none => r

/-- `var->fromString(val)` -/
def fromString (r : Registry E) (a : ℕ) (val : String) : Registry E :=
  match r.vars[a]? with
  | some ⟨T, c⟩ =>
    let (c', calls, _) := c.fromString val
    { r with vars := r.vars.set a ⟨T, c'⟩, calls := r.calls ++ calls }
  | none => r

/-- The body of the loop of `LoadFromYaml`. `emit` is the `operator<<` of
`YAML::Node`. -/
def loadNode (emit : Yaml → String) (r : Registry E) (i : String × Yaml) : Registry E :=
  if i.1.isEmpty then r
  else
    match r.lookupBase (i.1.map Char.toLower) with
    | some a =>
      match i.2 with
      | .scalar text => r.fromString a text
      | node => r.fromString a (emit node)
    | none => r

/-- `LoadFromYaml` -/
def loadFromYaml (emit : Yaml → String) (r : Registry E) (root : Yaml) : Registry E :=
  (listAllMember "" root).foldl (loadNode emit) r

end Registry

end

end Easy.Base
