import Mathlib.Data.List.Nodup
import Easy.Base.ConfigBinding
import Easy.Base.FromString

/-!
What `Config::LoadFromYaml` does to the variables (`easy/base/Config.cc`).

`nodes` lists all nodes of a tree that are reached through maps, before anything is left out:
each with its path, and with the paths of the maps it is in. `ListAllMember` gives up at a path
with other characters, so that it lists the nodes without one on their way. `LoadFromYaml` passes
over the empty path, which the root has, and every node under empty keys only.

Two trees that differ in the order of their entries call `fromString` of a variable with the
text of the same node, but the text of a map is not the same.
-/

namespace Easy.Base

/-! ### The nodes of a tree -/

/-- A node, its path, and the paths of the maps it is in, the innermost first. -/
structure ReachedNode where
  ancestors : List String
  path : String
  node : Yaml

/-- The path of an entry of a map. -/
def memberPath (pre key : String) : String := if pre.isEmpty then key else pre ++ "." ++ key

namespace Yaml

mutual

/-- The nodes of a tree in pre-order. -/
def nodesFrom (ancestors : List String) (path : String) : Yaml → List ReachedNode
  | .map entries => ⟨ancestors, path, .map entries⟩ :: entryNodes (path :: ancestors) path entries
  | .null => [⟨ancestors, path, .null⟩]
  | .scalar text => [⟨ancestors, path, .scalar text⟩]
  | .sequence items => [⟨ancestors, path, .sequence items⟩]

/-- Those under the entries of a map. -/
def entryNodes (ancestors : List String) (path : String) :
    List (String × Yaml) → List ReachedNode
  | [] => []
  | (key, node) :: entries =>
    nodesFrom ancestors (memberPath path key) node ++ entryNodes ancestors path entries

end

def nodes (root : Yaml) : List ReachedNode := nodesFrom [] "" root

/-- What `Scalar()` or `operator<<` gives for a node. -/
def text (emit : Yaml → String) : Yaml → String
  | .scalar text => text
  | node => emit node

/-- One tree is the other with the entries of its maps in some order. -/
inductive Reordered : Yaml → Yaml → Prop
  | refl (t : Yaml) : Reordered t t
  | trans {t t' t'' : Yaml} (h : Reordered t t') (h' : Reordered t' t'') : Reordered t t''
  | entries {entries entries' : List (String × Yaml)} (h : entries.Perm entries') :
      Reordered (.map entries) (.map entries')
  | entry {before behind : List (String × Yaml)} {key : String} {t t' : Yaml}
      (h : Reordered t t') : Reordered (.map (before ++ (key, t) :: behind))
        (.map (before ++ (key, t') :: behind))
  | item {before behind : List Yaml} {t t' : Yaml} (h : Reordered t t') :
      Reordered (.sequence (before ++ t :: behind)) (.sequence (before ++ t' :: behind))

/-- The text of a node without children, whose text no order changes. -/
def leaf : Yaml → Option (Option String)
  | .null => some none
  | .scalar text => some (some text)
  | .sequence _ => none
  | .map _ => none

end Yaml

namespace ReachedNode

/-- No path on the way to a node has other characters. -/
def Valid (x : ReachedNode) : Prop := ∀ path ∈ x.path :: x.ancestors, validName path

instance (x : ReachedNode) : Decidable x.Valid := inferInstanceAs (Decidable (∀ _ ∈ _, _))

/-- What does not depend on the order of entries. -/
def key (x : ReachedNode) : List String × String × Option (Option String) :=
  (x.ancestors, x.path, x.node.leaf)

end ReachedNode

/-! ### `ListAllMember` -/

namespace Yaml

mutual

/-- **Induction** over the nodes that are reached through maps. -/
theorem reached_induction {P : Yaml → Prop} (other : ∀ t, (∀ entries, t ≠ .map entries) → P t)
    (map : ∀ entries, (∀ e ∈ entries, P e.2) → P (.map entries)) (t : Yaml) : P t := by
  cases t with
  | map entries => exact map entries (reached_entries other map entries)
  | _ => exact other _ fun _ h => (by cases h)

theorem reached_entries {P : Yaml → Prop} (other : ∀ t, (∀ entries, t ≠ .map entries) → P t)
    (map : ∀ entries, (∀ e ∈ entries, P e.2) → P (.map entries))
    (entries : List (String × Yaml)) : ∀ e ∈ entries, P e.2 := by
  cases entries with
  | nil => exact fun e he => absurd he List.not_mem_nil
  | cons e entries =>
      obtain ⟨key, node⟩ := e
      intro e he
      rcases List.mem_cons.mp he with rfl | he
      · exact reached_induction other map node
      · exact reached_entries other map entries e he

end

variable {ancestors : List String} {path : String} {t t' : Yaml} {x : ReachedNode}

theorem entryNodes_eq (ancestors : List String) (path : String) (entries : List (String × Yaml)) :
    entryNodes ancestors path entries =
      entries.flatMap fun e => nodesFrom ancestors (memberPath path e.1) e.2 := by
  induction entries with
  | nil => rfl
  | cons e entries ih => rw [entryNodes, ih, List.flatMap_cons]

theorem nodesFrom_map (ancestors : List String) (path : String) (entries : List (String × Yaml)) :
    nodesFrom ancestors path (.map entries) = ⟨ancestors, path, .map entries⟩ ::
      entries.flatMap fun e => nodesFrom (path :: ancestors) (memberPath path e.1) e.2 := by
  rw [nodesFrom, entryNodes_eq]

theorem nodesFrom_other (h : ∀ entries, t ≠ .map entries) :
    nodesFrom ancestors path t = [⟨ancestors, path, t⟩] := by
  cases t with
  | map entries => exact absurd rfl (h entries)
  | _ => rw [nodesFrom]

/-- The nodes under a path have it on their way, and what is on its own way. -/
theorem mem_nodesFrom (h : x ∈ nodesFrom ancestors path t) :
    path ∈ x.path :: x.ancestors ∧ ∀ p ∈ ancestors, p ∈ x.ancestors := by
  induction t using reached_induction generalizing ancestors path with
  | other t hother =>
      rw [nodesFrom_other hother] at h
      obtain rfl := List.mem_singleton.mp h
      exact ⟨List.mem_cons_self, fun p hp => hp⟩
  | map entries ih =>
      rw [nodesFrom_map] at h
      rcases List.mem_cons.mp h with rfl | h
      · exact ⟨List.mem_cons_self, fun p hp => hp⟩
      · obtain ⟨e, he, hx⟩ := List.mem_flatMap.mp h
        have hanc := (ih e he hx).2
        exact ⟨List.mem_cons_of_mem _ (hanc path List.mem_cons_self),
          fun p hp => hanc p (List.mem_cons_of_mem _ hp)⟩

theorem listEntries_eq (pre : String) (entries : List (String × Yaml)) :
    listEntries pre entries = entries.flatMap fun e => listAllMember (memberPath pre e.1) e.2 := by
  induction entries with
  | nil => rfl
  | cons e entries ih => rw [listEntries, ih, List.flatMap_cons]; rfl

theorem listAllMember_invalid (h : validName path = false) : listAllMember path t = [] := by
  cases t <;> rw [listAllMember, h] <;> rfl

theorem listAllMember_other (h : validName path) (hother : ∀ entries, t ≠ .map entries) :
    listAllMember path t = [(path, t)] := by
  cases t with
  | map entries => exact absurd rfl (hother entries)
  | _ => rw [listAllMember, if_pos h]

/-- The nodes that `ListAllMember` lists. -/
def accepted (ancestors : List String) (path : String) (t : Yaml) : List (String × Yaml) :=
  ((nodesFrom ancestors path t).filter (·.Valid)).map fun x => (x.path, x.node)

theorem accepted_invalid (h : validName path = false) : accepted ancestors path t = [] := by
  have hnone : (nodesFrom ancestors path t).filter (·.Valid) = [] := by
    rw [List.filter_eq_nil_iff]
    intro x hx hvalid
    have hpath := of_decide_eq_true hvalid path (mem_nodesFrom hx).1
    rw [h] at hpath
    cases hpath
  rw [accepted, hnone, List.map_nil]

/-- **`ListAllMember`** lists the nodes with no other characters on their way, in pre-order. -/
theorem listAllMember_eq (ancestors : List String) (h : ∀ p ∈ ancestors, validName p) :
    listAllMember path t = accepted ancestors path t := by
  induction t using reached_induction generalizing ancestors path with
  | other t hother =>
      cases hpath : validName path with
      | false => rw [listAllMember_invalid hpath, accepted_invalid hpath]
      | true =>
          have hvalid : (ReachedNode.mk ancestors path t).Valid :=
            List.forall_mem_cons.mpr ⟨hpath, h⟩
          rw [listAllMember_other hpath hother, accepted, nodesFrom_other hother]
          simp only [List.filter_cons, hvalid, decide_true, if_true, List.filter_nil, List.map_cons,
            List.map_nil]
  | map entries ih =>
      cases hpath : validName path with
      | false => rw [listAllMember_invalid hpath, accepted_invalid hpath]
      | true =>
          have hway : ∀ p ∈ path :: ancestors, validName p := List.forall_mem_cons.mpr ⟨hpath, h⟩
          have hvalid : (ReachedNode.mk ancestors path (.map entries)).Valid := hway
          have hentries : (entries.flatMap fun e => listAllMember (memberPath path e.1) e.2) =
              entries.flatMap fun e => accepted (path :: ancestors) (memberPath path e.1) e.2 :=
            List.flatMap_congr fun e he => ih e he _ hway
          rw [listAllMember, if_pos hpath, listEntries_eq, hentries, accepted, nodesFrom_map]
          simp only [List.filter_cons, hvalid, decide_true, if_true, List.map_cons,
            List.filter_flatMap, List.map_flatMap, accepted]

end Yaml

/-! ### The calls of `fromString` -/

/-- A call of `fromString`: the name, its variable, and the text. -/
structure LoadCall where
  name : String
  var : ℕ
  text : String
  deriving DecidableEq, Repr

/-- A valid name has no upper case. -/
theorem map_toLower {name : String} (h : validName name) : name.map Char.toLower = name := by
  have halphabet : alphabet.all fun c => c.toLower = c := by decide
  have hlower : ∀ c ∈ name.toList, c.toLower = id c := by
    intro c hc
    have hmem : c ∈ alphabet := List.contains_iff_mem.mp (List.all_eq_true.mp h c hc)
    exact of_decide_eq_true (List.all_eq_true.mp halphabet c hmem)
  rw [← String.toList_inj, String.toList_map, List.map_congr_left hlower, List.map_id]

namespace Registry

variable {τ : Type} {E : TypeEnv τ} {r : Registry E} {emit : Yaml → String} {root root' : Yaml}

/-- The call that the body of the loop of `LoadFromYaml` makes. -/
def loadCall (emit : Yaml → String) (r : Registry E) (i : String × Yaml) : Option LoadCall :=
  if i.1.isEmpty then none
  else
    (r.lookupBase (i.1.map Char.toLower)).map fun a =>
      ⟨i.1.map Char.toLower, a, i.2.text emit⟩

/-- The calls of all rounds. -/
def loadCalls (emit : Yaml → String) (r : Registry E) (root : Yaml) : List LoadCall :=
  (listAllMember "" root).filterMap (r.loadCall emit)

/-- What calls do, one after the other. -/
def fromStrings (r : Registry E) (calls : List LoadCall) : Registry E :=
  calls.foldl (fun r c => r.fromString c.var c.text) r

theorem loadNode_eq (emit : Yaml → String) (r : Registry E) (i : String × Yaml) :
    loadNode emit r i = (r.loadCall emit i).elim r fun c => r.fromString c.var c.text := by
  obtain ⟨key, node⟩ := i
  simp only [loadNode, loadCall]
  split
  · rfl
  · cases r.lookupBase (key.map Char.toLower) with
    | none => rfl
    | some a => cases node <;> rfl

/-- **`LoadFromYaml`** is its calls: no call changes what a name is bound to. -/
theorem loadFromYaml_eq (emit : Yaml → String) (r : Registry E) (root : Yaml) :
    r.loadFromYaml emit root = r.fromStrings (r.loadCalls emit root) := by
  rw [loadFromYaml, loadCalls]
  induction listAllMember "" root generalizing r with
  | nil => rfl
  | cons i is ih =>
      have hcall : (loadNode emit r i).loadCall emit = r.loadCall emit := by
        funext j
        simp only [loadCall, lookupBase, (loadNode_keeps emit r i).datas]
      rw [List.foldl_cons, ih, hcall, List.filterMap_cons, loadNode_eq]
      cases r.loadCall emit i <;> rfl

/-- The calls that a tree asks for: one for each node whose path is the name of a variable,
unless it is empty or there is a path with other characters on the way. -/
def requested (emit : Yaml → String) (r : Registry E) (root : Yaml) : List LoadCall :=
  (root.nodes.filter fun x => x.path ≠ "" ∧ x.Valid).filterMap fun x =>
    (r.datas x.path).map fun a => ⟨x.path, a, x.node.text emit⟩

theorem loadCalls_eq (emit : Yaml → String) (r : Registry E) (root : Yaml) :
    r.loadCalls emit root = r.requested emit root := by
  rw [loadCalls, requested, Yaml.listAllMember_eq [] (by simp), Yaml.accepted,
    List.filterMap_map, List.filterMap_filter, List.filterMap_filter, Yaml.nodes]
  refine List.filterMap_congr fun x _ => ?_
  by_cases hvalid : x.Valid
  · have hlower := map_toLower (hvalid x.path List.mem_cons_self)
    by_cases hempty : x.path = ""
    · simp [loadCall, hempty]
    · simp [loadCall, lookupBase, hempty, hvalid, hlower]
  · simp [hvalid]

/-! ### The variables -/

/-- What calls of `fromString` leave of a variable. -/
def loaded {T : τ} (texts : List String) (c : ConfigVar (E.Val T)) : ConfigVar (E.Val T) :=
  texts.foldl (fun c text => (c.fromString text).1) c

theorem getElem?_fromString (r : Registry E) (a b : ℕ) (text : String) :
    (r.fromString a text).vars[b]? =
      if a = b then r.vars[b]?.map fun v => ⟨v.1, (v.2.fromString text).1⟩ else r.vars[b]? := by
  rw [fromString]
  split
  case h_1 T c hvar =>
    rw [List.getElem?_set]
    split
    case isTrue hab =>
      subst hab
      rw [if_pos (List.getElem?_eq_some_iff.mp hvar).1, hvar]
      rfl
    case isFalse => rfl
  case h_2 hnone =>
    split
    case isTrue hab =>
      subst hab
      rw [hnone]
      rfl
    case isFalse => rfl

/-- The texts of the calls of one variable. -/
def textsOf (a : ℕ) (calls : List LoadCall) : List String :=
  (calls.filter (·.var = a)).map (·.text)

theorem textsOf_cons (a : ℕ) (c : LoadCall) (calls : List LoadCall) :
    textsOf a (c :: calls) = if c.var = a then c.text :: textsOf a calls else textsOf a calls := by
  rw [textsOf, List.filter_cons]
  by_cases hvar : c.var = a <;> simp [hvar, textsOf]

/-- **Each variable** has the texts of its own calls, in their order. -/
theorem getElem?_fromStrings (r : Registry E) (calls : List LoadCall) (a : ℕ) :
    (r.fromStrings calls).vars[a]? =
      r.vars[a]?.map fun v => ⟨v.1, loaded (textsOf a calls) v.2⟩ := by
  induction calls generalizing r with
  | nil => simp [fromStrings, textsOf, loaded]
  | cons c calls ih =>
      have hstep := ih (r.fromString c.var c.text)
      rw [getElem?_fromString] at hstep
      rw [fromStrings, List.foldl_cons, ← fromStrings, hstep, textsOf_cons]
      by_cases hvar : c.var = a
      · rw [if_pos hvar, if_pos hvar, Option.map_map]
        rfl
      · rw [if_neg hvar, if_neg hvar]

/-! ### The order of entries -/

/-- No two names are bound to one variable. -/
def Distinct (r : Registry E) : Prop := ∀ name name' a,
  r.datas name = some a → r.datas name' = some a → name = name'

end Registry

namespace Yaml

variable {ancestors : List String} {path : String} {t t' : Yaml}

/-- Trees that differ in their order have the same nodes but for that order. -/
theorem Reordered.perm_keys (h : Reordered t t') : ∀ ancestors path,
    ((nodesFrom ancestors path t).map (·.key)).Perm
      ((nodesFrom ancestors path t').map (·.key)) := by
  induction h with
  | refl t => exact fun _ _ => .rfl
  | trans h h' ih ih' => exact fun ancestors path => (ih ancestors path).trans (ih' ancestors path)
  | entries h =>
      intro ancestors path
      rw [nodesFrom_map, nodesFrom_map, List.map_cons, List.map_cons]
      exact .cons _ ((h.flatMap_right _).map _)
  | entry h ih =>
      intro ancestors path
      rw [nodesFrom_map, nodesFrom_map, List.map_cons, List.map_cons]
      simp only [List.flatMap_append, List.flatMap_cons, List.map_append]
      exact .cons _ (.append_left _ (.append_right _ (ih _ _)))
  | item h ih =>
      intro ancestors path
      rw [nodesFrom, nodesFrom]
      exact .rfl

/-- No two nodes have one path. -/
def DistinctPaths (root : Yaml) : Prop := (root.nodes.map (·.path)).Nodup

theorem text_of_leaf {emit : Yaml → String} (h : t.leaf = t'.leaf) (hsome : t.leaf.isSome) :
    t.text emit = t'.text emit := by
  cases t with
  | null =>
      cases t' with
      | null => rfl
      | _ => cases h
  | scalar text =>
      cases t' with
      | scalar text' =>
          obtain rfl : text = text' := Option.some.inj (Option.some.inj h)
          rfl
      | _ => cases h
  | _ => cases hsome

/-- A node without children is the one that has its path in the other order. -/
theorem Reordered.text_eq {emit : Yaml → String} (h : Reordered t t') (hpaths : t.DistinctPaths)
    {x x' : ReachedNode} (hx : x ∈ t.nodes) (hx' : x' ∈ t'.nodes) (hpath : x.path = x'.path)
    (hleaf : x.node.leaf.isSome) : x.node.text emit = x'.node.text emit := by
  obtain ⟨y, hy, hkey⟩ := List.mem_map.mp ((h.perm_keys [] "").symm.mem_iff.mp
    (List.mem_map_of_mem hx'))
  have hyx : y = x := List.inj_on_of_nodup_map hpaths hy hx
    ((congrArg (·.2.1) hkey).trans hpath.symm)
  subst hyx
  exact text_of_leaf (congrArg (·.2.2) hkey) hleaf

end Yaml

namespace Registry

variable {τ : Type} {E : TypeEnv τ} {r : Registry E} {emit : Yaml → String} {root root' : Yaml}

/-- The node is one that `fromString` of a variable is called for. -/
def IsFor (r : Registry E) (a : ℕ) (x : ReachedNode) : Prop :=
  (x.path ≠ "" ∧ x.Valid) ∧ r.datas x.path = some a

instance (r : Registry E) (a : ℕ) (x : ReachedNode) : Decidable (r.IsFor a x) :=
  inferInstanceAs (Decidable (_ ∧ _))

theorem textsOf_requested (emit : Yaml → String) (r : Registry E) (root : Yaml) (a : ℕ) :
    textsOf a (r.requested emit root) =
      (root.nodes.filter (r.IsFor a)).map (·.node.text emit) := by
  rw [requested]
  induction root.nodes with
  | nil => rfl
  | cons x xs ih =>
      rw [List.filter_cons, List.filter_cons]
      by_cases hx : x.path ≠ "" ∧ x.Valid
      · rw [if_pos (decide_eq_true hx), List.filterMap_cons]
        cases hdatas : r.datas x.path with
        | none => simpa [IsFor, hdatas] using ih
        | some b =>
            rw [Option.map_some, textsOf_cons, ih]
            by_cases hb : b = a
            · simp [IsFor, hdatas, hb, hx]
            · simp [IsFor, hdatas, hb]
      · rw [if_neg (by simpa using hx), if_neg (by simp [IsFor, hx]), ih]

/-- The nodes of a variable are the same but for their order. -/
theorem perm_isFor (h : root.Reordered root') (a : ℕ) :
    ((root.nodes.filter (r.IsFor a)).map (·.key)).Perm
      ((root'.nodes.filter (r.IsFor a)).map (·.key)) := by
  have hkeys : ∀ xs : List ReachedNode, (xs.filter (r.IsFor a)).map (·.key) =
      (xs.map (·.key)).filter fun k : List String × String × Option (Option String) =>
        (k.2.1 ≠ "" ∧ ∀ path ∈ k.2.1 :: k.1, validName path) ∧ r.datas k.2.1 = some a := by
    intro xs
    rw [List.filter_map]
    rfl
  rw [hkeys, hkeys]
  exact (h.perm_keys [] "").filter _

/-- If paths are distinct a variable has one node at most. -/
theorem isFor_cases (hdistinct : r.Distinct) (hpaths : root.DistinctPaths) (a : ℕ) :
    root.nodes.filter (r.IsFor a) = [] ∨ ∃ x, root.nodes.filter (r.IsFor a) = [x] := by
  have hnodup : ((root.nodes.filter (r.IsFor a)).map (·.path)).Nodup :=
    hpaths.sublist (List.filter_sublist.map _)
  have hsame : ∀ x ∈ root.nodes.filter (r.IsFor a), ∀ y ∈ root.nodes.filter (r.IsFor a),
      x.path = y.path := by
    intro x hx y hy
    have hx := of_decide_eq_true (List.mem_filter.mp hx).2
    have hy := of_decide_eq_true (List.mem_filter.mp hy).2
    exact hdistinct x.path y.path a hx.2 hy.2
  cases hfor : root.nodes.filter (r.IsFor a) with
  | nil => exact .inl rfl
  | cons x xs =>
      cases xs with
      | nil => exact .inr ⟨x, rfl⟩
      | cons y ys =>
          rw [hfor] at hnodup hsame
          have hxy := hsame x List.mem_cons_self y (List.mem_cons_of_mem _ List.mem_cons_self)
          simp [hxy] at hnodup

theorem fromString_congr {T : τ} (c : ConfigVar (E.Val T)) {text text' : String}
    (h : E.fromStr T text = E.fromStr T text') : c.fromString text = c.fromString text' := by
  rw [ConfigVar.fromString, ConfigVar.fromString, h]

/-- The texts of the node of a variable are converted to the same value. -/
def Converts (emit : Yaml → String) (r : Registry E) (root root' : Yaml) (a : ℕ) : Prop :=
  ∀ name T c, r.datas name = some a → r.vars[a]? = some ⟨T, c⟩ →
    ∀ x ∈ root.nodes, ∀ x' ∈ root'.nodes, x.path = name → x'.path = name →
      E.fromStr T (x.node.text emit) = E.fromStr T (x'.node.text emit)

/-- The node of a variable has no children. -/
def IsLeaf (r : Registry E) (root : Yaml) (a : ℕ) : Prop :=
  ∀ x ∈ root.nodes, r.datas x.path = some a → x.node.leaf.isSome

theorem IsLeaf.converts (h : r.IsLeaf root a) (hreordered : root.Reordered root')
    (hpaths : root.DistinctPaths) : r.Converts emit root root' a := by
  intro name T c hname _ x hx x' hx' hpath hpath'
  subst hpath
  rw [hreordered.text_eq hpaths hx hx' hpath'.symm (h x hx hname)]

/-- **The order of entries** does not matter to a variable whose texts are converted to the same
value. -/
theorem vars_reordered (hdistinct : r.Distinct) (hreordered : root.Reordered root')
    (hpaths : root.DistinctPaths) (h : r.Converts emit root root' a) :
    (r.loadFromYaml emit root).vars[a]? = (r.loadFromYaml emit root').vars[a]? := by
  simp only [loadFromYaml_eq, getElem?_fromStrings, loadCalls_eq, textsOf_requested]
  cases hvar : r.vars[a]? with
  | none => rfl
  | some v =>
      obtain ⟨T, c⟩ := v
      have hperm := perm_isFor (r := r) hreordered a
      rcases isFor_cases hdistinct hpaths a with hnil | ⟨x, hx⟩
      · rw [hnil] at hperm ⊢
        have hnil' := List.map_eq_nil_iff.mp hperm.symm.eq_nil
        rw [hnil']
      · rw [hx, List.map_singleton] at hperm
        obtain ⟨x', hx', hkey⟩ := List.map_eq_singleton_iff.mp (List.perm_singleton.mp hperm.symm)
        have hmem : x ∈ root.nodes.filter (r.IsFor a) := hx ▸ List.mem_singleton_self x
        have hmem' : x' ∈ root'.nodes.filter (r.IsFor a) := hx' ▸ List.mem_singleton_self x'
        have hfor := of_decide_eq_true (List.mem_filter.mp hmem).2
        have htext := h x.path T c hfor.2 hvar x (List.mem_filter.mp hmem).1 x'
          (List.mem_filter.mp hmem').1 rfl (congrArg (·.2.1) hkey)
        rw [hx, hx', List.map_singleton, List.map_singleton, Option.map_some, Option.map_some]
        simp only [loaded, List.foldl_cons, List.foldl_nil, fromString_congr c htext]

/-! ### What the tree asks for is done -/

/-- The calls are those that the tree asks for, and no variable is touched but by them. -/
structure Loads (emit : Yaml → String) (r : Registry E) (root : Yaml) : Prop where
  calls : r.loadCalls emit root = r.requested emit root
  run : r.loadFromYaml emit root = r.fromStrings (r.loadCalls emit root)
  untouched : ∀ a, (∀ c ∈ r.requested emit root, c.var ≠ a) →
    (r.loadFromYaml emit root).vars[a]? = r.vars[a]?

theorem loads_requested (emit : Yaml → String) (r : Registry E) (root : Yaml) :
    r.Loads emit root where
  calls := loadCalls_eq emit r root
  run := loadFromYaml_eq emit r root
  untouched a ha := by
    have hnone : textsOf a (r.requested emit root) = [] := by
      rw [textsOf, List.map_eq_nil_iff, List.filter_eq_nil_iff]
      exact fun c hc => by simpa using ha c hc
    rw [loadFromYaml_eq, getElem?_fromStrings, loadCalls_eq, hnone]
    exact Option.map_id'

/-- Names are bound to variables, and no two of them to one. -/
structure Sound (r : Registry E) : Prop where
  typed : ∀ name a, r.datas name = some a → (r.typeOf a).isSome
  distinct : r.Distinct

theorem Sound.of_keeps {r' : Registry E} (h : r.Sound) (hr : r.KeepsBindings r') : r'.Sound where
  typed name a ha := by
    rw [hr.typeOf]
    exact h.typed name a (hr.datas ▸ ha)
  distinct name name' a ha ha' := h.distinct name name' a (hr.datas ▸ ha) (hr.datas ▸ ha')

/-- A new variable is bound to one name. -/
theorem Sound.made (h : r.Sound) (name : String) (T : τ) (v : E.Val T) :
    Sound { r with
      datas := Function.update r.datas name (some r.vars.length)
      vars := r.vars ++ [⟨T, v, []⟩] } := by
  have hold : ∀ {name a}, r.datas name = some a → a < r.vars.length := by
    intro name a ha
    obtain ⟨T, hT⟩ := Option.isSome_iff_exists.mp (h.typed name a ha)
    exact ConfigRun.typeOf_lt hT
  have hcases : ∀ {n a}, Function.update r.datas name (some r.vars.length) n = some a →
      n = name ∧ a = r.vars.length ∨ r.datas n = some a := by
    intro n a ha
    by_cases hn : n = name
    · subst hn
      rw [Function.update_self] at ha
      exact .inl ⟨rfl, (Option.some.inj ha).symm⟩
    · rw [Function.update_of_ne hn] at ha
      exact .inr ha
  constructor
  · intro n a ha
    rcases hcases ha with ⟨-, rfl⟩ | ha
    · simp [Registry.typeOf]
    · have htyped := h.typed n a ha
      rwa [Registry.typeOf, List.getElem?_append_left (hold ha)]
  · intro n n' a ha ha'
    rcases hcases ha with ⟨hn, hnew⟩ | hn <;> rcases hcases ha' with ⟨hn', hnew'⟩ | hn'
    · rw [hn, hn']
    · exact absurd (hold hn') (Nat.not_lt.mpr (Nat.le_of_eq hnew.symm))
    · exact absurd (hold hn) (Nat.not_lt.mpr (Nat.le_of_eq hnew'.symm))
    · exact h.distinct n n' a hn hn'

end Registry

theorem ConfigRun.sound_of_reachable {τ : Type} [DecidableEq τ] {E : TypeEnv τ}
    {emit : Yaml → String} {s : ConfigRun E} (h : (ConfigRun.machine E emit).Reachable s) :
    s.registry.Sound := by
  refine h.invariant (I := fun s => s.registry.Sound) ?_ ?_
  · rintro s rfl
    exact ⟨fun _ _ h => (by cases h), fun _ _ _ h => (by cases h)⟩
  · intro s op s' hstep hsound
    cases op with
    | lookupDefault name T v =>
        rcases s.registry.lookupDefault_cases name T v with ⟨-, -, hr⟩ | ⟨-, -, hr⟩ | ⟨-, -, hr⟩
        all_goals
          simp only [ConfigRun.machine, ConfigRun.step, hr, Option.some.injEq] at hstep
          subst hstep
        · exact hsound
        · exact hsound
        · exact hsound.made name T v
    | lookup name T =>
        obtain rfl := Option.some.inj hstep
        cases s.registry.lookup name T <;> exact hsound
    | loadFromYaml root =>
        obtain rfl := Option.some.inj hstep
        exact hsound.of_keeps (Registry.loadFromYaml_keeps emit _ root)
    | setValue a T v =>
        obtain rfl := Option.some.inj hstep
        exact hsound.of_keeps (Registry.setValue_keeps _ a T v)
    | addListener a cb =>
        obtain rfl := Option.some.inj hstep
        exact hsound.of_keeps (Registry.addListener_keeps _ a cb)

namespace Registry

/-- **`LoadFromYaml`** makes the calls that the tree asks for. If paths are distinct and names
are bound to different variables, as they always are, the order of entries does not matter to a
variable whose texts are converted to the same value, which those of a node without children
are. -/
theorem loads {τ : Type} [DecidableEq τ] {E : TypeEnv τ} (emit : Yaml → String) :
    (∀ (r : Registry E) (root : Yaml), r.Loads emit root) ∧
      (∀ s, (ConfigRun.machine E emit).Reachable s → s.registry.Distinct) ∧
      ∀ r : Registry E, r.Distinct → ∀ root root' : Yaml, root.Reordered root' →
        root.DistinctPaths → (∀ a, r.IsLeaf root a → r.Converts emit root root' a) ∧
          ∀ a, r.Converts emit root root' a →
            (r.loadFromYaml emit root).vars[a]? = (r.loadFromYaml emit root').vars[a]? :=
  ⟨loads_requested emit, fun _ hs => (ConfigRun.sound_of_reachable hs).distinct,
    fun _ hdistinct _ _ hreordered hpaths =>
      ⟨fun _ hleaf => hleaf.converts hreordered hpaths,
        fun _ hconv => vars_reordered hdistinct hreordered hpaths hconv⟩⟩

/-- A variable of texts, under a name. -/
def named (name : String) : Registry ConfigVar.textEnv where
  datas := Function.update (fun _ => none) name (some 0)
  vars := [⟨(), "old", []⟩]
  funIds _ := 0
  calls := []

/-- The lines that a map of texts is written in. -/
def lines : Yaml → String
  | .map entries => "\n".intercalate (entries.map fun e => e.1 ++ ": " ++ e.2.text fun _ => "")
  | _ => ""

theorem datas_named {name n : String} {a : ℕ} (h : (named name).datas n = some a) : n = name := by
  by_contra hne
  have hdatas : (named name).datas n = Function.update (fun _ => none) name (some 0) n := rfl
  rw [hdatas, Function.update_of_ne hne] at h
  cases h

theorem distinct_named (name : String) : (named name).Distinct := by
  intro n n' a ha ha'
  rw [datas_named ha, datas_named ha']

/-- Two variables that are loaded in the other order. -/
theorem loads_leaf :
    ((named "a").loadFromYaml lines (.map [("a", .scalar "1"), ("b", .null)])).vars[0]? =
      ((named "a").loadFromYaml lines (.map [("b", .null), ("a", .scalar "1")])).vars[0]? := by
  have hpaths : (Yaml.map [("a", .scalar "1"), ("b", .null)]).DistinctPaths := by
    change List.Nodup _
    decide
  obtain ⟨hleaf, hsame⟩ := (loads lines).2.2 (named "a") (distinct_named "a") _ _
    (.entries (List.Perm.swap _ _ _)) hpaths
  refine hsame 0 (hleaf 0 fun x hx hdatas => ?_)
  have hnodes : ∀ x ∈ (Yaml.map [("a", .scalar "1"), ("b", .null)]).nodes, x.path ≠ "" →
      x.node.leaf.isSome := by decide
  exact hnodes x hx (by rw [datas_named hdatas]; decide)

/-- The empty name is a valid one, of which the root would be the node; and a map that is a text
depends on its order. -/
theorem loads_false :
    ((Registry.empty ConfigVar.textEnv).lookupDefault "" () "old" = .ok (some 0, named "") ∧
      (∃ x ∈ (Yaml.scalar "new").nodes, x.Valid ∧ (named "").datas x.path = some 0) ∧
      (named "").loadCalls lines (.scalar "new") = []) ∧
    (Yaml.map [("a", .map [("x", .scalar "1"), ("y", .scalar "2")])]).Reordered
        (.map [("a", .map [("y", .scalar "2"), ("x", .scalar "1")])]) ∧
      (Yaml.map [("a", .map [("x", .scalar "1"), ("y", .scalar "2")])]).DistinctPaths ∧
      ((named "a").loadFromYaml lines
          (.map [("a", .map [("x", .scalar "1"), ("y", .scalar "2")])])).vars[0]? ≠
        ((named "a").loadFromYaml lines
          (.map [("a", .map [("y", .scalar "2"), ("x", .scalar "1")])])).vars[0]? := by
  refine ⟨⟨rfl, ⟨_, List.mem_singleton_self _, by decide, rfl⟩, rfl⟩,
    @Yaml.Reordered.entry [] [] "a" _ _ (.entries (List.Perm.swap _ _ _)), ?_, fun h => ?_⟩
  · change List.Nodup _
    decide
  · simp only [loadFromYaml_eq, loadCalls_eq, getElem?_fromStrings] at h
    have hval := congrArg (Option.map fun v => (v.2.val : String)) h
    exact absurd hval (by decide)

end Registry

end Easy.Base
