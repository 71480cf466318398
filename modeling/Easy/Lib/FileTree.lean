import Mathlib.Data.List.Induction
import Mathlib.Data.List.Nodup
import Mathlib.Data.Nat.Notation

/-!
Finite file trees, and the system calls that look at them and remove from them.

A tree is the list of its directory entries, in the order in which `readdir` gives them. A path
is the names from the root on, and a symbolic link holds one. `walk` is how the kernel goes along
a path: where a name in front of the last one is a link, it goes on at its target. The calls
record the links that they have gone through.
-/

namespace Easy.Lib.Posix

abbrev Path := List String

inductive FileType
  | dir
  | reg
  | lnk (target : Path)
  | fifo
  | sock
  deriving DecidableEq

structure FileNode where
  type : FileType
  perm : BitVec 12
  deriving DecidableEq

/-- An entry of a directory. -/
structure Dirent where
  dir : Path
  name : String
  node : FileNode
  deriving DecidableEq

def Dirent.path (e : Dirent) : Path := e.dir ++ [e.name]

/-- No path has two entries, no entry is `.` or `..`, and entries are in directories. The root,
which is the empty path, is one that is always there. -/
structure FileTree where
  dirents : List Dirent
  nodup : (dirents.map Dirent.path).Nodup
  named : ∀ e ∈ dirents, e.name ≠ "." ∧ e.name ≠ ".."
  closed : ∀ e ∈ dirents, e.dir = [] ∨ ∃ d ∈ dirents, d.path = e.dir ∧ d.node.type = .dir

/-! ### `st_mode` -/

def S_IFDIR : BitVec 32 := 0x4000

/-- The type of a file in the bits of `S_IFMT`. -/
def FileType.bits : FileType → BitVec 32
  | .dir => 0x4000
  | .reg => 0x8000
  | .lnk _ => 0xA000
  | .fifo => 0x1000
  | .sock => 0xC000

def FileNode.stMode (n : FileNode) : BitVec 32 := n.type.bits ||| n.perm.setWidth 32

/-- The bit of directories is one of those of sockets, too. -/
theorem stMode_and_S_IFDIR (n : FileNode) :
    n.stMode &&& S_IFDIR = 0 ↔ n.type ≠ .dir ∧ n.type ≠ .sock := by
  have hbit : S_IFDIR = BitVec.twoPow 32 14 := by decide
  have htype : n.stMode.getLsbD 14 = n.type.bits.getLsbD 14 := by simp [FileNode.stMode]
  rw [hbit, BitVec.and_twoPow, htype, ← hbit]
  cases n.type <;> simp [FileType.bits, S_IFDIR]

namespace FileTree

/-- What is at a path. -/
def node (t : FileTree) (p : Path) : Option FileNode :=
  if p = [] then some ⟨.dir, 0o755⟩ else (t.dirents.find? (·.path = p)).map (·.node)

/-- The names in a directory. -/
def entries (t : FileTree) (p : Path) : List String :=
  (t.dirents.filter (·.dir = p)).map (·.name)

/-- A tree without a path and all below it. -/
def erase (t : FileTree) (p : Path) : FileTree where
  dirents := t.dirents.filter (¬p <+: ·.path)
  nodup := t.nodup.sublist (List.filter_sublist.map _)
  named e he := t.named e (List.mem_filter.mp he).1
  closed e he := by
    obtain ⟨he, hkept⟩ := List.mem_filter.mp he
    have hkept := of_decide_eq_true hkept
    refine (t.closed e he).imp_right fun ⟨d, hd, hpath, htype⟩ => ⟨d, ?_, hpath, htype⟩
    refine List.mem_filter.mpr ⟨hd, decide_eq_true fun hpre => hkept ?_⟩
    exact (hpath ▸ hpre).trans (List.prefix_append _ _)

/-! ### Paths of a tree -/

variable {t : FileTree} {p q front rest : Path} {n : FileNode}

def IsDir (t : FileTree) (p : Path) : Prop := ∃ n, t.node p = some n ∧ n.type = .dir

theorem node_eq_some (hp : p ≠ []) :
    t.node p = some n ↔ ∃ e ∈ t.dirents, e.path = p ∧ e.node = n := by
  rw [node, if_neg hp, Option.map_eq_some_iff]
  constructor
  · rintro ⟨e, he, hn⟩
    have hpath := List.find?_some he
    exact ⟨e, List.mem_of_find?_eq_some he, of_decide_eq_true hpath, hn⟩
  · rintro ⟨e, he, hpath, hn⟩
    cases hfind : t.dirents.find? (·.path = p) with
    | none => exact absurd hpath (by simpa using List.find?_eq_none.mp hfind e he)
    | some e' =>
        have hpath' := List.find?_some hfind
        obtain rfl : e = e' := List.inj_on_of_nodup_map t.nodup he
          (List.mem_of_find?_eq_some hfind) (hpath.trans (of_decide_eq_true hpath').symm)
        exact ⟨e, rfl, hn⟩

theorem mem_entries {name : String} :
    name ∈ t.entries p ↔ ∃ n, t.node (p ++ [name]) = some n := by
  simp only [node_eq_some (List.concat_ne_nil name p), entries, List.mem_map, List.mem_filter,
    decide_eq_true_eq]
  constructor
  · rintro ⟨e, ⟨he, rfl⟩, rfl⟩
    exact ⟨e.node, e, he, rfl, rfl⟩
  · rintro ⟨n, e, he, hpath, -⟩
    obtain ⟨hdir, hname⟩ := List.append_inj' hpath rfl
    exact ⟨e, ⟨he, hdir⟩, (List.cons.inj hname).1⟩

theorem named_entries {name : String} (h : name ∈ t.entries p) : name ≠ "." ∧ name ≠ ".." := by
  obtain ⟨e, he, rfl⟩ := List.mem_map.mp h
  exact t.named e (List.mem_filter.mp he).1

theorem nodup_entries (t : FileTree) (p : Path) : (t.entries p).Nodup := by
  have hpaths : (t.entries p).map (p ++ [·]) = (t.dirents.filter (·.dir = p)).map Dirent.path := by
    rw [entries, List.map_map]
    refine List.map_congr_left fun e he => ?_
    have hdir : e.dir = p := of_decide_eq_true (List.mem_filter.mp he).2
    rw [Function.comp_apply, Dirent.path, hdir]
  have hnodup : ((t.dirents.filter (·.dir = p)).map Dirent.path).Nodup :=
    t.nodup.sublist (List.filter_sublist.map _)
  rw [← hpaths] at hnodup
  exact hnodup.of_map _

theorem isDir_nil (t : FileTree) : t.IsDir [] := ⟨_, if_pos rfl, rfl⟩

/-- Entries are in directories. -/
theorem isDir_of_node {name : String} (h : t.node (p ++ [name]) = some n) : t.IsDir p := by
  obtain ⟨e, he, hpath, -⟩ := (node_eq_some (List.concat_ne_nil name p)).mp h
  obtain rfl : e.dir = p := (List.append_inj' hpath rfl).1
  rcases t.closed e he with hnil | ⟨d, hd, hdpath, htype⟩
  · rw [hnil]
    exact t.isDir_nil
  · refine ⟨d.node, (node_eq_some ?_).mpr ⟨d, hd, hdpath, rfl⟩, htype⟩
    exact hdpath ▸ List.concat_ne_nil d.name d.dir

theorem isDir_above (h : t.node p = some n) (hpre : q <+: p) (hne : q ≠ p) : t.IsDir q := by
  induction p using List.reverseRecOn generalizing n with
  | nil => exact absurd (List.prefix_nil.mp hpre) hne
  | append_singleton p name ih =>
      obtain ⟨d, hd, htype⟩ := isDir_of_node h
      rcases List.prefix_concat_iff.mp hpre with heq | hpre
      · exact absurd heq hne
      · by_cases heq : q = p
        · exact heq ▸ ⟨d, hd, htype⟩
        · exact ih hd hpre heq

/-- There is nothing below what is no directory. -/
theorem eq_of_not_isDir (h : ¬t.IsDir p) (hq : t.node q = some n) (hpre : p <+: q) : q = p := by
  by_contra hne
  exact h (isDir_above hq hpre fun heq => hne heq.symm)

/-- There is nothing below an empty directory. -/
theorem eq_of_entries_nil (h : t.entries p = []) (hq : t.node q = some n) (hpre : p <+: q) :
    q = p := by
  obtain ⟨rest, rfl⟩ := hpre
  cases rest with
  | nil => exact List.append_nil p
  | cons name rest =>
      have hentry : ∃ m, t.node (p ++ [name]) = some m := by
        cases rest with
        | nil => exact ⟨n, hq⟩
        | cons name' rest =>
            have hpre : p ++ [name] <+: p ++ name :: name' :: rest := ⟨name' :: rest, by simp⟩
            obtain ⟨m, hm, -⟩ := isDir_above hq hpre (by simp)
            exact ⟨m, hm⟩
      exact absurd (mem_entries.mpr hentry) (h ▸ List.not_mem_nil)

theorem node_erase (hp : p ≠ []) (q : Path) :
    (t.erase p).node q = if p <+: q then none else t.node q := by
  by_cases hq : q = []
  · subst hq
    rw [if_neg fun hpre => hp (List.prefix_nil.mp hpre)]
    rfl
  · refine Option.ext fun n => ?_
    have herase : (t.erase p).node q = some n ↔
        ∃ e ∈ t.dirents, ¬p <+: e.path ∧ e.path = q ∧ e.node = n := by
      rw [node_eq_some hq]
      simp only [erase, List.mem_filter, decide_eq_true_eq, and_assoc]
    rw [herase]
    split
    case isTrue hpre =>
      refine iff_of_false ?_ fun hnone => by cases hnone
      rintro ⟨e, -, hkept, rfl, -⟩
      exact hkept hpre
    case isFalse hnot =>
      rw [node_eq_some hq]
      constructor
      · rintro ⟨e, he, -, hpath, hn⟩
        exact ⟨e, he, hpath, hn⟩
      · rintro ⟨e, he, rfl, hn⟩
        exact ⟨e, he, hnot, rfl, hn⟩

/-! ### Going along a path -/

/-- From a directory on, where `follow` goes on behind a link. -/
def walkFrom (t : FileTree) (follow : Path → Option Path × List Path) (p : Path) :
    Path → Option Path × List Path
  | [] => (some p, [])
  | [name] => (some (p ++ [name]), [])
  | name :: name' :: rest =>
    match (t.node (p ++ [name])).map FileNode.type with
    | some .dir => walkFrom t follow (p ++ [name]) (name' :: rest)
    | some (.lnk target) =>
      let r := follow (target ++ name' :: rest)
      (r.1, (p ++ [name]) :: r.2)
    | _ => (none, [])

/-- The path without links that names the same, and the links that were gone through, which are
`n` at most. -/
def walk (t : FileTree) : ℕ → Path → Option Path × List Path
  | 0, p => walkFrom t (fun _ => (none, [])) [] p
  | n + 1, p => walkFrom t (walk t n) [] p

section

variable {follow : Path → Option Path × List Path}

/-- Directories are gone through. -/
theorem walkFrom_append (hdirs : ∀ q, q ≠ [] → q <+: front → t.IsDir (p ++ q)) (hrest : rest ≠ []) :
    t.walkFrom follow p (front ++ rest) = t.walkFrom follow (p ++ front) rest := by
  induction front generalizing p with
  | nil => rw [List.nil_append, List.append_nil]
  | cons name front ih =>
      obtain ⟨name', rest', hcons⟩ : ∃ name' rest', front ++ rest = name' :: rest' :=
        List.exists_cons_of_ne_nil (by simp [hrest])
      obtain ⟨n, hn, htype⟩ := hdirs [name] (List.cons_ne_nil _ _) ⟨front, rfl⟩
      have ih := ih (p := p ++ [name]) fun q hq hpre => by
        rw [List.append_assoc]
        exact hdirs (name :: q) (List.cons_ne_nil _ _) (List.cons_prefix_cons.mpr ⟨rfl, hpre⟩)
      rw [List.cons_append, hcons, walkFrom, hn, Option.map_some, htype, ← hcons]
      simpa using ih

theorem walk_append (n : ℕ) (h : t.IsDir front) (hrest : rest ≠ []) :
    ∃ follow, t.walk n (front ++ rest) = t.walkFrom follow front rest := by
  obtain ⟨d, hd, htype⟩ := h
  have hdirs : ∀ q, q ≠ [] → q <+: front → t.IsDir ([] ++ q) := by
    intro q _ hpre
    by_cases heq : q = front
    · exact heq ▸ ⟨d, hd, htype⟩
    · exact isDir_above hd hpre heq
  cases n with
  | zero => exact ⟨_, walkFrom_append hdirs hrest⟩
  | succ n => exact ⟨_, walkFrom_append hdirs hrest⟩

end

/-- What is in the tree is found under its path. -/
theorem walk_node (k : ℕ) (h : t.node p = some n) : t.walk k p = (some p, []) := by
  induction p using List.reverseRecOn with
  | nil => cases k <;> rfl
  | append_singleton p name _ =>
      obtain ⟨follow, heq⟩ := walk_append k (isDir_of_node h) (List.cons_ne_nil name [])
      exact heq

/-- A directory is entered. -/
theorem walk_dot (k : ℕ) (h : t.IsDir p) : t.walk k (p ++ ["."]) = (some (p ++ ["."]), []) := by
  obtain ⟨follow, heq⟩ := walk_append k h (List.cons_ne_nil "." [])
  exact heq

/-- Another file that is not a link is not. -/
theorem walk_dot_other (k : ℕ) (h : t.node p = some n) (hdir : n.type ≠ .dir)
    (hlnk : ∀ target, n.type ≠ .lnk target) : t.walk k (p ++ ["."]) = (none, []) := by
  induction p using List.reverseRecOn with
  | nil =>
      obtain ⟨d, hd, htype⟩ := t.isDir_nil
      obtain rfl := Option.some.inj (hd.symm.trans h)
      exact absurd htype hdir
  | append_singleton p name _ =>
      obtain ⟨follow, heq⟩ := walk_append k (isDir_of_node h) (List.cons_ne_nil name ["."])
      rw [List.append_assoc, List.singleton_append, heq, walkFrom, h, Option.map_some]
      split
      case h_1 htype => exact absurd (Option.some.inj htype) hdir
      case h_2 target htype => exact absurd (Option.some.inj htype) (hlnk target)
      case h_3 => rfl

end FileTree

/-! ### System calls -/

inductive Syscall
  | lstat
  | opendir
  | unlink
  | rmdir
  deriving DecidableEq, Repr

/-- A call with its path, the links that it has followed, and whether it has succeeded. -/
structure FileCall where
  call : Syscall
  path : Path
  followed : List Path
  ok : Bool
  deriving DecidableEq, Repr

/-- A path that should have been removed was not. -/
def FileCall.Failed (c : FileCall) : Prop := (c.call = .unlink ∨ c.call = .rmdir) ∧ c.ok = false

theorem FileCall.not_failed_lstat {path : Path} {followed : List Path} (ok : Bool) :
    ¬FileCall.Failed ⟨.lstat, path, followed, ok⟩ := by simp [Failed]

theorem FileCall.not_failed_opendir {path : Path} {followed : List Path} (ok : Bool) :
    ¬FileCall.Failed ⟨.opendir, path, followed, ok⟩ := by simp [Failed]

/-- A tree, and the calls that were made so far. -/
structure Files where
  tree : FileTree
  calls : List FileCall

/-- `ELOOP` comes behind as many links. -/
def maxLinks : ℕ := 40

namespace Files

def record (s : Files) (c : FileCall) : Files := { s with calls := s.calls ++ [c] }

/-- The mode of what a path names, and of a link itself. -/
def lstat (path : Path) (s : Files) : Option (BitVec 32) × Files :=
  let (p, followed) := s.tree.walk maxLinks path
  let st := (p.bind s.tree.node).map FileNode.stMode
  (st, s.record ⟨.lstat, path, followed, st.isSome⟩)

/-- `opendir`, and the names that `readdir` gives then. -/
def opendir (path : Path) (s : Files) : Option (List String) × Files :=
  let (p, followed) := s.tree.walk maxLinks (path ++ ["."])
  let names := p.map fun p => "." :: ".." :: s.tree.entries p.dropLast
  (names, s.record ⟨.opendir, path, followed, names.isSome⟩)

/-- A call that removes what a path names where it may. -/
def removeIf (call : Syscall) (may : FileTree → Path → Bool) (path : Path) (s : Files) :
    Bool × Files :=
  let (p, followed) := s.tree.walk maxLinks path
  match p.filter (may s.tree) with
  | some p => (true, { s.record ⟨call, path, followed, true⟩ with tree := s.tree.erase p })
  | none => (false, s.record ⟨call, path, followed, false⟩)

/-- Files that are no directories can be unlinked. `refused` says where the call fails for
another reason. -/
def unlink (refused : Path → Bool) : Path → Files → Bool × Files :=
  removeIf .unlink fun t p => (t.node p).any (·.type ≠ .dir) && !refused p

/-- Directories that are empty can be removed, except for the root. -/
def rmdir (refused : Path → Bool) : Path → Files → Bool × Files :=
  removeIf .rmdir fun t p =>
    p ≠ [] && (t.node p).any (·.type = .dir) && (t.entries p).isEmpty && !refused p

variable {s s₁ s₂ : Files} {path : Path} {n : FileNode}

theorem lstat_eq (h : s.tree.node path = some n) :
    s.lstat path = (some n.stMode, s.record ⟨.lstat, path, [], true⟩) := by
  rw [lstat, FileTree.walk_node _ h]
  simp [h]

theorem opendir_eq (h : s.tree.IsDir path) :
    s.opendir path = (some ("." :: ".." :: s.tree.entries path),
      s.record ⟨.opendir, path, [], true⟩) := by
  rw [opendir, FileTree.walk_dot _ h]
  simp

theorem opendir_other (h : s.tree.node path = some n) (hdir : n.type ≠ .dir)
    (hlnk : ∀ target, n.type ≠ .lnk target) :
    s.opendir path = (none, s.record ⟨.opendir, path, [], false⟩) := by
  rw [opendir, FileTree.walk_dot_other _ h hdir hlnk]
  rfl

theorem removeIf_eq (call : Syscall) (may : FileTree → Path → Bool)
    (h : s.tree.node path = some n) :
    s.removeIf call may path = if may s.tree path then
      (true, { s.record ⟨call, path, [], true⟩ with tree := s.tree.erase path })
    else (false, s.record ⟨call, path, [], false⟩) := by
  rw [removeIf, FileTree.walk_node _ h]
  simp only [Option.filter_some]
  cases may s.tree path <;> rfl

end Files

/-! ### Runs of calls -/

/-- Calls on paths of `P` have led from one state to another. They have followed no link, have
only removed, though no file of `K`, and what they have failed to remove is still there. -/
structure Leads (P : Path → Prop) (K : FileNode → Prop) (s s' : Files) : Prop where
  frame : ∀ q, ¬P q → s'.tree.node q = s.tree.node q
  shrunk : ∀ q, s'.tree.node q = none ∨ s'.tree.node q = s.tree.node q
  kept : ∀ q n, s.tree.node q = some n → K n → s'.tree.node q = some n
  calls : ∃ new, s'.calls = s.calls ++ new ∧ ∀ c ∈ new, P c.path ∧ c.followed = [] ∧
    (c.Failed → s'.tree.node c.path ≠ none)

namespace Leads

variable {P Q : Path → Prop} {K : FileNode → Prop} {s s₁ s₂ : Files} {path : Path} {n : FileNode}

theorem refl (s : Files) : Leads P K s s where
  frame _ _ := rfl
  shrunk _ := .inr rfl
  kept _ _ h _ := h
  calls := ⟨[], (List.append_nil _).symm, fun _ hc => absurd hc List.not_mem_nil⟩

theorem of_eq_some (h : Leads P K s s₁) {q : Path} (hq : s₁.tree.node q = some n) :
    s.tree.node q = some n := by
  rcases h.shrunk q with hnone | hsame
  · rw [hnone] at hq
    cases hq
  · exact hsame ▸ hq

/-- A directory is empty if and only if all the entries it has had are gone. -/
theorem entries_eq_nil_iff (h : Leads P K s s₁) (path : Path) :
    s₁.tree.entries path = [] ↔
      ∀ name ∈ s.tree.entries path, s₁.tree.node (path ++ [name]) = none := by
  constructor
  · intro hnil name _
    by_contra hsome
    obtain ⟨m, hm⟩ := Option.ne_none_iff_exists'.mp hsome
    exact absurd (FileTree.mem_entries.mpr ⟨m, hm⟩) (hnil ▸ List.not_mem_nil)
  · intro hnone
    refine List.eq_nil_iff_forall_not_mem.mpr fun name hname => ?_
    obtain ⟨m, hm⟩ := FileTree.mem_entries.mp hname
    have hthere : name ∈ s.tree.entries path := FileTree.mem_entries.mpr ⟨m, h.of_eq_some hm⟩
    rw [hnone name hthere] at hm
    cases hm

theorem mono (h : Leads P K s s₁) (hPQ : ∀ q, P q → Q q) : Leads Q K s s₁ where
  frame q hq := h.frame q fun hP => hq (hPQ q hP)
  shrunk := h.shrunk
  kept := h.kept
  calls := by
    obtain ⟨new, hcalls, hnew⟩ := h.calls
    exact ⟨new, hcalls, fun c hc => ⟨hPQ _ (hnew c hc).1, (hnew c hc).2⟩⟩

/-- Calls on other paths behind them. -/
theorem trans (h : Leads P K s s₁) (h' : Leads Q K s₁ s₂) (hdisjoint : ∀ q, P q → ¬Q q) :
    Leads (fun q => P q ∨ Q q) K s s₂ where
  frame q hq := (h'.frame q (not_or.mp hq).2).trans (h.frame q (not_or.mp hq).1)
  shrunk q := by
    rcases h'.shrunk q with hnone | hsame
    · exact .inl hnone
    · rw [hsame]
      exact h.shrunk q
  kept q n hq hK := h'.kept q n (h.kept q n hq hK) hK
  calls := by
    obtain ⟨new, hcalls, hnew⟩ := h.calls
    obtain ⟨new', hcalls', hnew'⟩ := h'.calls
    refine ⟨new ++ new', by rw [hcalls', hcalls, List.append_assoc], fun c hc => ?_⟩
    rcases List.mem_append.mp hc with hc | hc
    · obtain ⟨hP, hfollowed, hfailed⟩ := hnew c hc
      refine ⟨.inl hP, hfollowed, fun hf => ?_⟩
      rw [h'.frame _ (hdisjoint _ hP)]
      exact hfailed hf
    · obtain ⟨hQ, hfollowed, hfailed⟩ := hnew' c hc
      exact ⟨.inr hQ, hfollowed, hfailed⟩

/-- A call in front of them that removes nothing. -/
theorem after {c : FileCall} (hP : P c.path) (hfollowed : c.followed = []) (hc : ¬c.Failed)
    (h : Leads P K (s.record c) s₁) : Leads P K s s₁ where
  frame := h.frame
  shrunk := h.shrunk
  kept := h.kept
  calls := by
    obtain ⟨new, hcalls, hnew⟩ := h.calls
    refine ⟨c :: new, by rw [hcalls, Files.record, List.append_assoc]; rfl, fun d hd => ?_⟩
    rcases List.mem_cons.mp hd with rfl | hd
    · exact ⟨hP, hfollowed, fun hf => absurd hf hc⟩
    · exact hnew d hd

/-- A call that removes a file which has nothing below it, or fails. -/
theorem removeIf (call : Syscall) (may : FileTree → Path → Bool) (h : s.tree.node path = some n)
    (hpath : path ≠ []) (hK : ¬K n)
    (hleaf : may s.tree path → ∀ q m, path <+: q → s.tree.node q = some m → q = path) :
    Leads (· = path) K s (s.removeIf call may path).2 ∧
      ((s.removeIf call may path).1 = true ↔
        (s.removeIf call may path).2.tree.node path = none) := by
  rw [Files.removeIf_eq call may h]
  split
  case isTrue hmay =>
    have hframe : ∀ q, q ≠ path → (s.tree.erase path).node q = s.tree.node q := by
      intro q hq
      rw [FileTree.node_erase hpath]
      split
      case isTrue hpre =>
        cases hnode : s.tree.node q with
        | none => rfl
        | some m => exact absurd (hleaf hmay q m hpre hnode) hq
      case isFalse => rfl
    have hgone : (s.tree.erase path).node path = none := by
      rw [FileTree.node_erase hpath, if_pos List.prefix_rfl]
    refine ⟨⟨hframe, fun q => ?_, fun q m hq hm => ?_, ?_⟩, iff_of_true rfl hgone⟩
    · by_cases hq : q = path
      · exact .inl (hq ▸ hgone)
      · exact .inr (hframe q hq)
    · refine (hframe q ?_).trans hq
      rintro rfl
      obtain rfl := Option.some.inj (h.symm.trans hq)
      exact hK hm
    · refine ⟨[⟨call, path, [], true⟩], rfl, fun c hc => ?_⟩
      obtain rfl := List.mem_singleton.mp hc
      exact ⟨rfl, rfl, fun hf => by cases hf.2⟩
  case isFalse hmay =>
    have hnode : s.tree.node path ≠ none := by
      rw [h]
      exact Option.some_ne_none n
    refine ⟨⟨fun _ _ => rfl, fun _ => .inr rfl, fun _ _ hq _ => hq, ?_⟩,
      iff_of_false Bool.false_ne_true hnode⟩
    refine ⟨[⟨call, path, [], false⟩], rfl, fun c hc => ?_⟩
    obtain rfl := List.mem_singleton.mp hc
    exact ⟨rfl, rfl, fun _ => hnode⟩

end Leads

end Easy.Lib.Posix
