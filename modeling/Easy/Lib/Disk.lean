import Mathlib.Logic.Function.Basic
import Mathlib.Data.Nat.Basic
import Easy.Lib.FileTree

/-!
Disks: file trees that grow, with what is in their files.

`resolve` is how the kernel goes along a path where a link at its end counts, too, as in all
calls but those on links themselves. `MoreDirs` says that there are more directories in a tree
and nothing else is different. A disk has a number for each path of its tree that stays with the
file whatever it is called later, and what is in the file under its number.
-/

namespace Easy.Lib.Posix

namespace FileTree

variable {t t' : FileTree} {p q r front rest : Path} {name : String} {n : FileNode}

instance (t : FileTree) (p : Path) : Decidable (t.IsDir p) :=
  decidable_of_iff ((t.node p).any (·.type = .dir) = true)
    (by simp [IsDir, Option.any_eq_true])

/-! ### A new entry -/

/-- A tree with one more entry, in a directory. -/
def insert (t : FileTree) (e : Dirent) (hfree : t.node e.path = none)
    (hnamed : e.name ≠ "." ∧ e.name ≠ "..") (hdir : t.IsDir e.dir) : FileTree where
  dirents := t.dirents ++ [e]
  nodup := by
    rw [List.map_append, List.nodup_append]
    refine ⟨t.nodup, List.nodup_singleton _, ?_⟩
    intro p hp q hq heq
    obtain ⟨d, hd, rfl⟩ := List.mem_map.mp hp
    have hsome : t.node e.path = some d.node :=
      (node_eq_some (List.concat_ne_nil e.name e.dir)).mpr
        ⟨d, hd, heq.trans (List.mem_singleton.mp hq), rfl⟩
    rw [hfree] at hsome
    cases hsome
  named d hd := by
    rcases List.mem_append.mp hd with hd | hd
    · exact t.named d hd
    · exact List.mem_singleton.mp hd ▸ hnamed
  closed d hd := by
    rcases List.mem_append.mp hd with hd | hd
    · exact (t.closed d hd).imp_right fun ⟨d', hd', h⟩ => ⟨d', List.mem_append_left _ hd', h⟩
    · rw [List.mem_singleton.mp hd]
      refine or_iff_not_imp_left.mpr fun hroot => ?_
      obtain ⟨n, hn, htype⟩ := hdir
      obtain ⟨d', hd', hpath, rfl⟩ := (node_eq_some hroot).mp hn
      exact ⟨d', List.mem_append_left _ hd', hpath, htype⟩

theorem node_insert {e : Dirent} (hfree : t.node e.path = none)
    (hnamed : e.name ≠ "." ∧ e.name ≠ "..") (hdir : t.IsDir e.dir) (p : Path) :
    (t.insert e hfree hnamed hdir).node p = if p = e.path then some e.node else t.node p := by
  by_cases hp : p = []
  · subst hp
    have hne : [] ≠ e.path := (List.concat_ne_nil e.name e.dir).symm
    rw [if_neg hne]
    rfl
  · refine Option.ext fun n => ?_
    rw [node_eq_some hp, insert]
    simp only [List.mem_append, List.mem_singleton, or_and_right, exists_or, exists_eq_left]
    split
    case isTrue heq =>
      subst heq
      rw [Option.some.injEq]
      refine ⟨fun h => h.elim (fun hold => ?_) And.right, fun h => .inr ⟨rfl, h⟩⟩
      have hsome := (node_eq_some hp).mpr hold
      rw [hfree] at hsome
      cases hsome
    case isFalse hne =>
      rw [node_eq_some hp]
      refine ⟨fun h => h.resolve_right fun hnew => hne hnew.1.symm, .inl⟩

/-- There are more directories, and nothing else is different. -/
structure MoreDirs (t t' : FileTree) : Prop where
  kept : ∀ p n, t.node p = some n → t'.node p = some n
  new : ∀ p, t.node p = none → t'.node p ≠ none → t'.IsDir p

theorem MoreDirs.refl (t : FileTree) : MoreDirs t t :=
  ⟨fun _ _ h => h, fun _ hnone hsome => absurd hnone hsome⟩

theorem MoreDirs.isDir (h : MoreDirs t t') (hp : t.IsDir p) : t'.IsDir p := by
  obtain ⟨n, hn, htype⟩ := hp
  exact ⟨n, h.kept p n hn, htype⟩

theorem MoreDirs.trans {t'' : FileTree} (h : MoreDirs t t') (h' : MoreDirs t' t'') :
    MoreDirs t t'' := by
  refine ⟨fun p n hn => h'.kept p n (h.kept p n hn), fun p hnone hsome => ?_⟩
  by_cases hp : t'.node p = none
  · exact h'.new p hp hsome
  · exact h'.isDir (h.new p hnone hp)

/-! ### Behind a link at the end -/

/-- From a directory on, where `follow` goes on behind a link. -/
def resolveFrom (t : FileTree) (follow : Path → Option Path) (p : Path) : Path → Option Path
  | [] => some p
  | name :: rest =>
    match (t.node (p ++ [name])).map FileNode.type with
    | some .dir => resolveFrom t follow (p ++ [name]) rest
    | some (.lnk target) => follow (target ++ rest)
    | _ => if rest = [] then some (p ++ [name]) else none

/-- The path without links of what a path names. -/
def resolve (t : FileTree) : ℕ → Path → Option Path
  | 0, p => resolveFrom t (fun _ => none) [] p
  | k + 1, p => resolveFrom t (resolve t k) [] p

/-- A path names a directory. -/
def NamesDir (t : FileTree) (k : ℕ) (p : Path) : Prop := ∃ q, t.resolve k p = some q ∧ t.IsDir q

instance (t : FileTree) (k : ℕ) (p : Path) : Decidable (t.NamesDir k p) :=
  decidable_of_iff ((t.resolve k p).any (t.IsDir ·) = true) (by simp [NamesDir, Option.any_eq_true])

section

variable {follow : Path → Option Path} {go : Path → Option Path × List Path}

theorem walkFrom_concat (hdir : t.IsDir p)
    (hfollow : ∀ target, (go (target ++ [name])).1 =
      (follow target).bind fun q => if t.IsDir q then some (q ++ [name]) else none) :
    (t.walkFrom go p (rest ++ [name])).1 = (t.resolveFrom follow p rest).bind fun q =>
      if t.IsDir q then some (q ++ [name]) else none := by
  induction rest generalizing p with
  | nil => simp [walkFrom, resolveFrom, hdir]
  | cons name' rest ih =>
      obtain ⟨name'', rest', hcons⟩ : ∃ name'' rest', rest ++ [name] = name'' :: rest' :=
        List.exists_cons_of_ne_nil (by simp)
      rw [List.cons_append, hcons, walkFrom, resolveFrom, ← hcons]
      cases hnode : t.node (p ++ [name']) with
      | none =>
          have hnot : ¬t.IsDir (p ++ [name']) := by simp [IsDir, hnode]
          dsimp only [Option.map_none]
          split <;> simp [hnot]
      | some n =>
          have hiff : t.IsDir (p ++ [name']) ↔ n.type = .dir := by simp [IsDir, hnode]
          rw [Option.map_some]
          cases htype : n.type with
          | dir => exact ih (hiff.mpr htype)
          | lnk target => simpa using hfollow (target ++ rest)
          | reg | fifo | sock =>
              dsimp only
              split <;> simp [hiff, htype]

/-- **The last name of a path** is looked up in the directory that those in front of it name. -/
theorem walk_concat (k : ℕ) (p : Path) (name : String) : (t.walk k (p ++ [name])).1 =
    (t.resolve k p).bind fun q => if t.IsDir q then some (q ++ [name]) else none := by
  induction k generalizing p with
  | zero => exact walkFrom_concat t.isDir_nil fun _ => rfl
  | succ k ih => exact walkFrom_concat t.isDir_nil fun target => ih target

/-- What is behind the last name is what is under it, unless that is a link. -/
theorem resolveFrom_of_walkFrom
    (hnone : ∀ path, (go path).1 = none → follow path = none)
    (hsome : ∀ path q, (go path).1 = some q →
      (∀ n, t.node q = some n → ∀ target, n.type ≠ .lnk target) → follow path = some q) :
    ((t.walkFrom go p rest).1 = none → t.resolveFrom follow p rest = none) ∧
      ∀ q, (t.walkFrom go p rest).1 = some q →
        (∀ n, t.node q = some n → ∀ target, n.type ≠ .lnk target) →
          t.resolveFrom follow p rest = some q := by
  induction rest generalizing p with
  | nil => exact ⟨fun h => h, fun q h _ => h⟩
  | cons name rest ih =>
      rw [resolveFrom]
      cases rest with
      | nil =>
          refine ⟨fun h => (by cases h), fun q h hlink => ?_⟩
          obtain rfl := Option.some.inj h
          cases hnode : t.node (p ++ [name]) with
          | none => simp
          | some n =>
              rw [Option.map_some]
              cases htype : n.type with
              | lnk target => exact absurd htype (hlink n hnode target)
              | dir => simp [resolveFrom]
              | reg | fifo | sock => simp
      | cons name' rest =>
          rw [walkFrom]
          cases hnode : t.node (p ++ [name]) with
          | none => exact ⟨fun _ => rfl, fun q h _ => by cases h⟩
          | some n =>
              rw [Option.map_some]
              cases htype : n.type with
              | dir => exact ih
              | lnk target => exact ⟨hnone _, hsome _⟩
              | reg | fifo | sock => exact ⟨fun _ => rfl, fun q h _ => by cases h⟩

theorem resolve_of_walk (k : ℕ) (p : Path) : ((t.walk k p).1 = none → t.resolve k p = none) ∧
    ∀ q, (t.walk k p).1 = some q →
      (∀ n, t.node q = some n → ∀ target, n.type ≠ .lnk target) → t.resolve k p = some q := by
  induction k generalizing p with
  | zero =>
      exact resolveFrom_of_walkFrom (fun _ _ => rfl) fun _ _ h => (by cases h)
  | succ k ih => exact resolveFrom_of_walkFrom (fun path => (ih path).1) fun path => (ih path).2

/-- A path keeps its name in a tree that has what the other one has, unless it has a link there. -/
theorem resolveFrom_mono (hkept : ∀ p n, t.node p = some n → t'.node p = some n)
    {follow' : Path → Option Path}
    (hfollow : ∀ target, follow target = some q → follow' target = some q)
    (hlink : ∀ n, t'.node q = some n → ∀ target, n.type ≠ .lnk target)
    (h : t.resolveFrom follow p rest = some q) : t'.resolveFrom follow' p rest = some q := by
  induction rest generalizing p with
  | nil => exact h
  | cons name rest ih =>
      rw [resolveFrom] at h ⊢
      cases hnode : t.node (p ++ [name]) with
      | some n =>
          rw [hnode, Option.map_some] at h
          rw [hkept _ _ hnode, Option.map_some]
          cases htype : n.type with
          | dir =>
              rw [htype] at h
              exact ih h
          | lnk target =>
              rw [htype] at h
              exact hfollow _ h
          | reg | fifo | sock =>
              rw [htype] at h
              exact h
      | none =>
          rw [hnode, Option.map_none] at h
          dsimp only at h
          split at h
          case isFalse => cases h
          case isTrue hrest =>
            obtain rfl := Option.some.inj h
            subst hrest
            cases hnode' : t'.node (p ++ [name]) with
            | none => simp
            | some n =>
                rw [Option.map_some]
                cases htype : n.type with
                | lnk target => exact absurd htype (hlink n hnode' target)
                | dir => simp [resolveFrom]
                | reg | fifo | sock => simp

theorem resolve_mono (hkept : ∀ p n, t.node p = some n → t'.node p = some n)
    (hlink : ∀ n, t'.node q = some n → ∀ target, n.type ≠ .lnk target) {k : ℕ}
    (h : t.resolve k p = some q) : t'.resolve k p = some q := by
  induction k generalizing p with
  | zero => exact resolveFrom_mono hkept (fun _ hnone => by cases hnone) hlink h
  | succ k ih => exact resolveFrom_mono hkept (fun _ => ih) hlink h

end

/-- Something is at a path, be it a link. -/
def lexists (t : FileTree) (k : ℕ) (p : Path) : Bool :=
  (t.walk k p).1.any fun q => (t.node q).isSome

variable {k : ℕ}

theorem lexists_of_resolve (h : t.resolve k p = some q) (hq : t.node q ≠ none) :
    t.lexists k p = true := by
  cases hwalk : (t.walk k p).1 with
  | none =>
      rw [(resolve_of_walk k p).1 hwalk] at h
      cases h
  | some w =>
      rw [lexists, hwalk, Option.any_some]
      by_contra hfalse
      have hnone : t.node w = none := by simpa using hfalse
      have heq := (resolve_of_walk k p).2 w hwalk fun n hn => by simp [hnone] at hn
      rw [h] at heq
      exact hq (Option.some.inj heq ▸ hnone)

theorem NamesDir.lexists (h : t.NamesDir k p) : t.lexists k p = true := by
  obtain ⟨q, hq, n, hn, -⟩ := h
  exact lexists_of_resolve hq (hn ▸ Option.some_ne_none n)

/-- In front of what is there are directories. -/
theorem namesDir_of_lexists (hrest : rest ≠ []) (h : t.lexists k (p ++ rest) = true) :
    t.NamesDir k p := by
  induction rest using List.reverseRecOn with
  | nil => exact absurd rfl hrest
  | append_singleton rest name ih =>
      have hfront : t.NamesDir k (p ++ rest) := by
        rw [FileTree.lexists, ← List.append_assoc, walk_concat] at h
        cases hq : t.resolve k (p ++ rest) with
        | none => simp [hq] at h
        | some q =>
            refine ⟨q, hq, ?_⟩
            by_contra hdir
            simp [hq, hdir] at h
      cases rest with
      | nil => simpa using hfront
      | cons name' rest => exact ih (List.cons_ne_nil _ _) hfront.lexists

end FileTree

/-! ### Disks -/

/-- Numbers from `next` on are free. -/
structure Disk where
  tree : FileTree
  ino : Path → ℕ
  data : ℕ → List Char
  next : ℕ
  used : ∀ p, tree.node p ≠ none → ino p < next

namespace Disk

variable {d d' : Disk} {path q : Path} {i : ℕ} {refused : Path → Bool}

/-- What is seen behind the links of a path. -/
def access (d : Disk) (path : Path) : Bool :=
  (d.tree.resolve maxLinks path).any fun q => (d.tree.node q).isSome

/-- The regular file that a path names. -/
def file (d : Disk) (path : Path) : Option ℕ :=
  (d.tree.resolve maxLinks path).bind fun q =>
    (d.tree.node q).bind fun n => if n.type = .reg then some (d.ino q) else none

/-- A new file, with nothing in it. -/
def create (d : Disk) (e : Dirent) : Option Disk :=
  if h : d.tree.node e.path = none ∧ (e.name ≠ "." ∧ e.name ≠ "..") ∧ d.tree.IsDir e.dir then
    some {
      tree := d.tree.insert e h.1 h.2.1 h.2.2
      ino := Function.update d.ino e.path d.next
      data := Function.update d.data d.next []
      next := d.next + 1
      used := by
        intro p hp
        rw [FileTree.node_insert] at hp
        by_cases heq : p = e.path
        · rw [heq, Function.update_self]
          exact Nat.lt_succ_self _
        · rw [if_neg heq] at hp
          rw [Function.update_of_ne heq]
          exact Nat.lt_succ_of_lt (d.used p hp) }
  else none

/-- A new file under the last name of a path. -/
def createAt (d : Disk) (q : Path) (n : FileNode) : Option Disk :=
  q.getLast?.bind fun name => d.create ⟨q.dropLast, name, n⟩

/-- `refused` says where a call fails for a reason that is not in the tree. -/
def mkdir (refused : Path → Bool) (path : Path) (mode : BitVec 12) (d : Disk) : Bool × Disk :=
  match (d.tree.walk maxLinks path).1.filter (!refused ·) with
  | none => (false, d)
  | some q =>
    match d.createAt q ⟨.dir, mode⟩ with
    | none => (false, d)
    | some d' => (true, d')

/-- What `open` creates. -/
def newFile : FileNode := ⟨.reg, 0o666⟩

/-- `open` with `O_WRONLY`, `O_CREAT` and `O_APPEND`, of regular files: the number of the file. -/
def openAppend (refused : Path → Bool) (path : Path) (d : Disk) : Option ℕ × Disk :=
  match (d.tree.resolve maxLinks path).filter (!refused ·) with
  | none => (none, d)
  | some q =>
    match d.tree.node q with
    | some n => (if n.type = .reg then some (d.ino q) else none, d)
    | none =>
      match d.createAt q newFile with
      | none => (none, d)
      | some d' => (some d.next, d')

/-- `write` behind what is in a file. -/
def append (d : Disk) (i : ℕ) (text : List Char) : Disk :=
  { d with data := Function.update d.data i (d.data i ++ text) }

/-! ### What calls do -/

/-- Files were made, and nothing that there was is different. -/
structure Grown (d d' : Disk) : Prop where
  next : d.next ≤ d'.next
  node : ∀ p n, d.tree.node p = some n → d'.tree.node p = some n ∧ d'.ino p = d.ino p
  data : ∀ i < d.next, d'.data i = d.data i
  empty : ∀ i, d.next ≤ i → i < d'.next → d'.data i = []

theorem Grown.refl (d : Disk) : d.Grown d :=
  ⟨le_rfl, fun _ _ h => ⟨h, rfl⟩, fun _ _ => rfl,
    fun _ hle hlt => absurd hlt (Nat.not_lt_of_le hle)⟩

theorem Grown.trans {d'' : Disk} (h : d.Grown d') (h' : d'.Grown d'') : d.Grown d'' where
  next := Nat.le_trans h.next h'.next
  node p n hn :=
    have h₁ := h.node p n hn
    have h₂ := h'.node p n h₁.1
    ⟨h₂.1, h₂.2.trans h₁.2⟩
  data i hi := (h'.data i (Nat.lt_of_lt_of_le hi h.next)).trans (h.data i hi)
  empty i hle hlt := by
    by_cases hi : i < d'.next
    · exact (h'.data i hi).trans (h.empty i hle hi)
    · exact h'.empty i (Nat.le_of_not_lt hi) hlt

/-- What there is after a file was made. -/
structure Made (d : Disk) (q : Path) (n : FileNode) (d' : Disk) : Prop where
  free : d.tree.node q = none
  node : ∀ p, d'.tree.node p = if p = q then some n else d.tree.node p
  ino : d'.ino q = d.next
  grown : d.Grown d'

theorem Made.node_self {n : FileNode} (h : d.Made q n d') : d'.tree.node q = some n :=
  (h.node q).trans (if_pos rfl)

/-- What was made is behind the paths that had led there. -/
theorem Made.resolve {n : FileNode} (h : d.Made q n d') (hlink : ∀ target, n.type ≠ .lnk target)
    (hq : d.tree.resolve maxLinks path = some q) : d'.tree.resolve maxLinks path = some q := by
  refine FileTree.resolve_mono (fun p m hm => (h.grown.node p m hm).1) (fun m hm => ?_) hq
  obtain rfl := Option.some.inj (h.node_self.symm.trans hm)
  exact hlink

theorem made_create {e : Dirent} (h : d.create e = some d') : d.Made e.path e.node d' := by
  rw [create] at h
  split at h
  case isFalse => cases h
  case isTrue hfree =>
    obtain rfl := Option.some.inj h
    have hnode := FileTree.node_insert hfree.1 hfree.2.1 hfree.2.2
    refine ⟨hfree.1, hnode, Function.update_self .., Nat.le_succ _, fun p n hn => ?_,
      fun i hi => Function.update_of_ne (Nat.ne_of_lt hi) _ _, fun i hle hlt => ?_⟩
    · have hne : p ≠ e.path := by
        rintro rfl
        rw [hfree.1] at hn
        cases hn
      rw [hnode, if_neg hne]
      exact ⟨hn, Function.update_of_ne hne _ _⟩
    · rw [Nat.le_antisymm (Nat.lt_succ_iff.mp hlt) hle]
      exact Function.update_self ..

theorem made_createAt {n : FileNode} (h : d.createAt q n = some d') : d.Made q n d' := by
  obtain ⟨name, hname, hcreate⟩ := Option.bind_eq_some_iff.mp h
  have hpath : Dirent.path ⟨q.dropLast, name, n⟩ = q :=
    List.dropLast_append_getLast? name hname
  have hmade := made_create hcreate
  rwa [hpath] at hmade

/-- A name that is free in a directory can be taken. -/
theorem exists_createAt {name : String} (hfree : d.tree.node (q ++ [name]) = none)
    (hnamed : name ≠ "." ∧ name ≠ "..") (hdir : d.tree.IsDir q) (n : FileNode) :
    ∃ d', d.createAt (q ++ [name]) n = some d' := by
  rw [createAt, List.getLast?_concat, List.dropLast_concat, Option.bind_some, create,
    dif_pos ⟨hfree, hnamed, hdir⟩]
  exact ⟨_, rfl⟩

theorem Made.moreDirs {n : FileNode} (h : d.Made q n d') (htype : n.type = .dir) :
    d.tree.MoreDirs d'.tree := by
  refine ⟨fun p m hm => (h.grown.node p m hm).1, fun p hnone hsome => ?_⟩
  rw [h.node] at hsome
  split at hsome
  case isTrue heq => exact ⟨n, (h.node p).trans (if_pos heq), htype⟩
  case isFalse => exact absurd hnone hsome

theorem mkdir_cases {mode : BitVec 12} {ok : Bool} (h : mkdir refused path mode d = (ok, d')) :
    ok = false ∧ d' = d ∨ ok = true ∧ ∃ q, (d.tree.walk maxLinks path).1 = some q ∧
      d.Made q ⟨.dir, mode⟩ d' := by
  rw [mkdir] at h
  split at h
  case h_1 =>
    obtain ⟨rfl, rfl⟩ := Prod.mk.inj h
    exact .inl ⟨rfl, rfl⟩
  case h_2 q hq =>
    split at h
    case h_1 =>
      obtain ⟨rfl, rfl⟩ := Prod.mk.inj h
      exact .inl ⟨rfl, rfl⟩
    case h_2 hcreate =>
      obtain ⟨rfl, rfl⟩ := Prod.mk.inj h
      exact .inr ⟨rfl, q, (Option.filter_eq_some_iff.mp hq).1, made_createAt hcreate⟩

theorem mkdir_grown (refused : Path → Bool) (path : Path) (mode : BitVec 12) (d : Disk) :
    d.Grown (mkdir refused path mode d).2 ∧
      d.tree.MoreDirs (mkdir refused path mode d).2.tree := by
  rcases h : mkdir refused path mode d with ⟨ok, d'⟩
  rcases mkdir_cases h with ⟨-, rfl⟩ | ⟨-, q, -, hmade⟩
  · exact ⟨.refl d', .refl _⟩
  · exact ⟨hmade.grown, hmade.moreDirs rfl⟩

/-- **Directories are made** where their name is free in a directory. -/
theorem mkdir_free {name : String} (hdir : d.tree.NamesDir maxLinks path)
    (hnamed : name ≠ "." ∧ name ≠ "..") (hfree : d.tree.lexists maxLinks (path ++ [name]) = false)
    (mode : BitVec 12) :
    ∃ d', mkdir (fun _ => false) (path ++ [name]) mode d = (true, d') ∧
      d'.tree.NamesDir maxLinks (path ++ [name]) ∧
        ∀ name', d'.tree.lexists maxLinks (path ++ [name] ++ [name']) = false := by
  obtain ⟨q, hq, hdir⟩ := hdir
  have hwalk : (d.tree.walk maxLinks (path ++ [name])).1 = some (q ++ [name]) := by
    simp [FileTree.walk_concat, hq, hdir]
  have hnone : d.tree.node (q ++ [name]) = none := by
    simpa [FileTree.lexists, hwalk] using hfree
  obtain ⟨d', hcreate⟩ := exists_createAt hnone hnamed hdir ⟨.dir, mode⟩
  have hmade := made_createAt hcreate
  have hnode : d'.tree.node (q ++ [name]) = some ⟨.dir, mode⟩ := hmade.node_self
  have hresolve : d'.tree.resolve maxLinks (path ++ [name]) = some (q ++ [name]) := by
    refine hmade.resolve nofun ((FileTree.resolve_of_walk maxLinks _).2 _ hwalk fun n hn => ?_)
    rw [hnone] at hn
    cases hn
  refine ⟨d', ?_, ⟨q ++ [name], hresolve, _, hnode, rfl⟩, fun name' => ?_⟩
  · simp [mkdir, hwalk, Option.filter_some, hcreate]
  · have hbelow : d.tree.node (q ++ [name] ++ [name']) = none := by
      by_contra hsome
      obtain ⟨n, hn⟩ := Option.ne_none_iff_exists'.mp hsome
      obtain ⟨m, hm, -⟩ := FileTree.isDir_of_node hn
      rw [hnone] at hm
      cases hm
    have hdir' : d'.tree.IsDir (q ++ [name]) := ⟨_, hnode, rfl⟩
    rw [FileTree.lexists, FileTree.walk_concat, hresolve]
    simpa [hdir', hmade.node] using hbelow

theorem openAppend_cases {file : Option ℕ} (h : openAppend refused path d = (file, d')) :
    file = none ∧ d' = d ∨ file = d.file path ∧ d' = d ∨
      file = some d.next ∧ ∃ q, d.tree.resolve maxLinks path = some q ∧
        d.Made q newFile d' := by
  rw [openAppend] at h
  split at h
  case h_1 =>
    obtain ⟨rfl, rfl⟩ := Prod.mk.inj h
    exact .inl ⟨rfl, rfl⟩
  case h_2 q hq =>
    have hresolve := (Option.filter_eq_some_iff.mp hq).1
    split at h
    case h_1 n hn =>
      obtain ⟨rfl, rfl⟩ := Prod.mk.inj h
      refine .inr (.inl ⟨?_, rfl⟩)
      rw [file, hresolve, Option.bind_some, hn, Option.bind_some]
    case h_2 hnone =>
      split at h
      case h_1 =>
        obtain ⟨rfl, rfl⟩ := Prod.mk.inj h
        exact .inl ⟨rfl, rfl⟩
      case h_2 d' hcreate =>
        obtain ⟨rfl, rfl⟩ := Prod.mk.inj h
        exact .inr (.inr ⟨rfl, q, hresolve, made_createAt hcreate⟩)

theorem Made.file {n : FileNode} (h : d.Made q n d') (htype : n.type = .reg)
    (hq : d.tree.resolve maxLinks path = some q) : d'.file path = some d.next := by
  have hresolve := h.resolve (fun target hlink => by rw [htype] at hlink; cases hlink) hq
  simp [Disk.file, hresolve, h.node_self, htype, h.ino]

/-- **What is opened** is the file that the path names then. -/
theorem openAppend_file (h : openAppend refused path d = (some i, d')) :
    d'.file path = some i ∧ i < d'.next ∧ d.Grown d' := by
  rcases openAppend_cases h with ⟨hnone, -⟩ | ⟨hfile, rfl⟩ | ⟨hnew, q, hq, hmade⟩
  · cases hnone
  · refine ⟨hfile.symm, ?_, .refl d'⟩
    obtain ⟨q, -, hfile⟩ := Option.bind_eq_some_iff.mp hfile.symm
    obtain ⟨n, hn, hino⟩ := Option.bind_eq_some_iff.mp hfile
    split at hino
    case isTrue =>
      obtain rfl := Option.some.inj hino
      exact d'.used q (hn ▸ Option.some_ne_none n)
    case isFalse => cases hino
  · obtain rfl := Option.some.inj hnew
    have hfile := hmade.file rfl hq
    have hused := d'.used q (hmade.node_self ▸ Option.some_ne_none _)
    rw [hmade.ino] at hused
    exact ⟨hfile, hused, hmade.grown⟩

theorem openAppend_grown (refused : Path → Bool) (path : Path) (d : Disk) :
    d.Grown (openAppend refused path d).2 := by
  rcases h : openAppend refused path d with ⟨file, d'⟩
  rcases openAppend_cases h with ⟨-, rfl⟩ | ⟨-, rfl⟩ | ⟨-, q, -, hmade⟩
  · exact .refl d'
  · exact .refl d'
  · exact hmade.grown

/-- A regular file is opened, and a new one where the name is free in a directory. -/
theorem exists_openAppend {name : String} (hdir : d.tree.NamesDir maxLinks path)
    (hnamed : name ≠ "." ∧ name ≠ "..")
    (hfile : d.tree.lexists maxLinks (path ++ [name]) = true → d.file (path ++ [name]) ≠ none) :
    ∃ i d', openAppend (fun _ => false) (path ++ [name]) d = (some i, d') := by
  obtain ⟨q, hq, hdir⟩ := hdir
  have hwalk : (d.tree.walk maxLinks (path ++ [name])).1 = some (q ++ [name]) := by
    simp [FileTree.walk_concat, hq, hdir]
  cases hnode : d.tree.node (q ++ [name]) with
  | none =>
      have hresolve := (FileTree.resolve_of_walk maxLinks (path ++ [name])).2 _ hwalk
        fun n hn => by simp [hnode] at hn
      obtain ⟨d', hcreate⟩ := exists_createAt hnode hnamed hdir newFile
      exact ⟨d.next, d', by simp [openAppend, hresolve, Option.filter_some, hnode, hcreate]⟩
  | some n =>
      have hsome := hfile (by simp [FileTree.lexists, hwalk, hnode])
      obtain ⟨i, hi⟩ := Option.ne_none_iff_exists'.mp hsome
      obtain ⟨r, hr, hi'⟩ := Option.bind_eq_some_iff.mp hi
      obtain ⟨m, hm, hino⟩ := Option.bind_eq_some_iff.mp hi'
      exact ⟨i, d, by simp [openAppend, hr, Option.filter_some, hm, hino]⟩

end Disk

end Easy.Lib.Posix
