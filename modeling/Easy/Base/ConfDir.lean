import Easy.Base.Config
import Easy.Base.FileUtil
import Easy.Lib.Disk
import Easy.Lib.Lts

/-!
`ListAllFile` of `easy/base/FileUtil.cc`, and `LoadFromConfDir` of `easy/base/Config.cc`, which
loads what is new in a directory.

`ListAllFile` goes through links in the path that it is given, but not through those in the
directory. `LoadFromConfDir` loads a file whose time is not the one it was recorded with. It looks
at the time before it reads, so that a change in between is seen the next time, as long as files
get a later time when they change. `lstat` is not checked: a file that is gone by then is
recorded with whatever there is in `st`.

A directory does not change while it is listed, and what one file sets is set at once.
-/

namespace Easy.Base

open Lib Lib.Posix

/-! ### Files of a directory -/

namespace FileUtil

/-- What `readdir` has for the type of an entry. -/
def dType (t : FileTree) (path : Path) (d_name : String) : Option FileType :=
  if d_name = "." ∨ d_name = ".." then some .dir
  else ((t.walk maxLinks (path ++ [d_name])).1.bind t.node).map FileNode.type

/-- The checks of a file name. -/
def endsIn (subfix filename : List Char) : Bool :=
  if subfix.isEmpty then true
  else if filename.length < subfix.length then false
  else filename.drop (filename.length - subfix.length) = subfix

/-- The loop of `ListAllFile` over the entries of a directory. -/
def listLoop (list : List Path → Path → Option (List Path)) (t : FileTree) (subfix : List Char)
    (path : Path) : List String → List Path → Option (List Path)
  | [], files => some files
  | d_name :: names, files =>
    match dType t path d_name with
    | some .dir =>
      if d_name = "." ∨ d_name = ".." then listLoop list t subfix path names files
      else
        match list files (path ++ [d_name]) with
        | none => none
        | some files => listLoop list t subfix path names files
    | some .reg =>
      if endsIn subfix d_name.toList then
        listLoop list t subfix path names (files ++ [path ++ [d_name]])
      else listLoop list t subfix path names files
    | _ => listLoop list t subfix path names files

/-- `ListAllFile`. It is `none` where the depth of the recursion is more than the fuel. -/
def listAllFile (t : FileTree) (subfix : List Char) : ℕ → List Path → Path → Option (List Path)
  | 0, _, _ => none
  | fuel + 1, files, path =>
    if (t.resolve maxLinks path).any fun q => (t.node q).isSome then
      match (Files.opendir path ⟨t, []⟩).1 with
      | none => some files
      | some names => listLoop (listAllFile t subfix fuel) t subfix path names files
    else some files

/-! #### What is listed -/

/-- A regular file below a directory, with such a name. -/
def Listed (t : FileTree) (subfix : List Char) (q rest : Path) : Prop :=
  ∃ n name, t.node (q ++ rest) = some n ∧ n.type = .reg ∧ rest.getLast? = some name ∧
    subfix <:+ name.toList

variable {t : FileTree} {subfix : List Char} {path q rest : Path} {name : String} {n : FileNode}

theorem endsIn_iff (subfix filename : List Char) :
    endsIn subfix filename = true ↔ subfix <:+ filename := by
  rw [endsIn]
  split
  case isTrue hempty => simp [List.isEmpty_iff.mp hempty]
  case isFalse =>
    split
    case isTrue hshort =>
      refine iff_of_false Bool.false_ne_true fun hsuffix => ?_
      exact absurd hsuffix.length_le (Nat.not_le_of_lt hshort)
    case isFalse =>
      rw [decide_eq_true_eq, List.suffix_iff_eq_drop]
      exact eq_comm

/-- In a directory. -/
theorem listed_cons (hdir : t.IsDir (q ++ [name])) :
    Listed t subfix q (name :: rest) ↔ Listed t subfix (q ++ [name]) rest := by
  rw [Listed, Listed, List.append_assoc, List.singleton_append]
  cases rest with
  | nil =>
      refine iff_of_false ?_ ?_
      · rintro ⟨n, last, hn, htype, -⟩
        obtain ⟨m, hm, hdir⟩ := hdir
        obtain rfl := Option.some.inj (hm.symm.trans hn)
        rw [htype] at hdir
        cases hdir
      · rintro ⟨n, last, -, -, hlast, -⟩
        cases hlast
  | cons name' rest => rw [List.getLast?_cons_cons]

/-- There is nothing below another file. -/
theorem listed_leaf (hn : t.node (q ++ [name]) = some n) (hdir : n.type ≠ .dir) :
    Listed t subfix q (name :: rest) ↔ rest = [] ∧ n.type = .reg ∧ subfix <:+ name.toList := by
  have hleaf : ¬t.IsDir (q ++ [name]) := by
    rintro ⟨m, hm, htype⟩
    obtain rfl := Option.some.inj (hm.symm.trans hn)
    exact hdir htype
  constructor
  · rintro ⟨m, last, hm, htype, hlast, hsuffix⟩
    have heq := FileTree.eq_of_not_isDir hleaf hm ⟨rest, by simp⟩
    obtain rfl : rest = [] := by simpa using heq
    obtain rfl := Option.some.inj (hm.symm.trans hn)
    obtain rfl := Option.some.inj hlast
    exact ⟨rfl, htype, hsuffix⟩
  · rintro ⟨rfl, htype, hsuffix⟩
    exact ⟨n, name, hn, htype, rfl, hsuffix⟩

/-- What is listed is below an entry. -/
theorem listed_entry (h : Listed t subfix q rest) :
    ∃ name ∈ t.entries q, ∃ rest', rest = name :: rest' := by
  obtain ⟨n, last, hn, -, hlast, -⟩ := h
  cases rest with
  | nil => cases hlast
  | cons name rest =>
      refine ⟨name, FileTree.mem_entries.mpr ?_, rest, rfl⟩
      by_cases hnil : rest = []
      · exact ⟨n, hnil ▸ hn⟩
      · obtain ⟨m, hm, -⟩ := FileTree.isDir_above (q := q ++ [name]) hn ⟨rest, by simp⟩ (by simpa)
        exact ⟨m, hm⟩

/-- An entry has its own path. -/
theorem walk_entry (hq : t.resolve maxLinks path = some q) (hdir : t.IsDir q) (name : String) :
    (t.walk maxLinks (path ++ [name])).1 = some (q ++ [name]) := by
  rw [FileTree.walk_concat, hq, Option.bind_some, if_pos hdir]

theorem resolve_entry (hq : t.resolve maxLinks path = some q) (hdir : t.IsDir (q ++ [name])) :
    t.resolve maxLinks (path ++ [name]) = some (q ++ [name]) := by
  obtain ⟨n, hn, htype⟩ := hdir
  refine (FileTree.resolve_of_walk maxLinks _).2 _
    (walk_entry hq (FileTree.isDir_of_node hn) name) fun m hm target hlink => ?_
  obtain rfl := Option.some.inj (hm.symm.trans hn)
  rw [htype] at hlink
  cases hlink

theorem dType_entry (hq : t.resolve maxLinks path = some q) (hn : t.node (q ++ [name]) = some n) :
    dType t path name = some n.type := by
  have hnamed := FileTree.named_entries (FileTree.mem_entries.mpr ⟨n, hn⟩)
  rw [dType, if_neg (by simp [hnamed]), walk_entry hq (FileTree.isDir_of_node hn) name,
    Option.bind_some, hn, Option.map_some]

/-- **An entry**: what is listed of it and below it, each file once. -/
theorem listLoop_cons {list : List Path → Path → Option (List Path)}
    (hq : t.resolve maxLinks path = some q) (hn : t.node (q ++ [name]) = some n)
    (hlist : ∀ files, t.IsDir (q ++ [name]) → ∃ new,
      list files (path ++ [name]) = some (files ++ new) ∧ new.Nodup ∧
        ∀ f, f ∈ new ↔ ∃ rest, f = path ++ [name] ++ rest ∧ Listed t subfix (q ++ [name]) rest)
    (names : List String) (files : List Path) :
    ∃ new, listLoop list t subfix path (name :: names) files =
        listLoop list t subfix path names (files ++ new) ∧ new.Nodup ∧
      ∀ f, f ∈ new ↔ ∃ rest, f = path ++ name :: rest ∧ Listed t subfix q (name :: rest) := by
  have hnamed := FileTree.named_entries (FileTree.mem_entries.mpr ⟨n, hn⟩)
  rw [listLoop, dType_entry hq hn]
  by_cases htype : n.type = .dir
  · have hdir : t.IsDir (q ++ [name]) := ⟨n, hn, htype⟩
    obtain ⟨new, hnew, hnodup, hmem⟩ := hlist files hdir
    refine ⟨new, by simp [htype, hnamed, hnew], hnodup, fun f => ?_⟩
    rw [hmem]
    simp only [List.append_assoc, List.singleton_append, listed_cons hdir]
  · have hleaf : ∀ rest, Listed t subfix q (name :: rest) ↔
        rest = [] ∧ n.type = .reg ∧ subfix <:+ name.toList := fun _ => listed_leaf hn htype
    simp only [hleaf]
    cases hreg : n.type with
    | dir => exact absurd hreg htype
    | reg =>
        cases hends : endsIn subfix name.toList with
        | true =>
            have hsuffix := (endsIn_iff _ _).mp hends
            exact ⟨[path ++ [name]], by simp, List.nodup_singleton _, by simp [hsuffix]⟩
        | false =>
            have hsuffix : ¬subfix <:+ name.toList := by simp [← endsIn_iff, hends]
            exact ⟨[], by simp, List.nodup_nil, by simp [hsuffix]⟩
    | lnk | fifo | sock => exact ⟨[], by simp, List.nodup_nil, by simp⟩

theorem listLoop_lists {list : List Path → Path → Option (List Path)}
    (hq : t.resolve maxLinks path = some q)
    (hlist : ∀ name files, t.IsDir (q ++ [name]) → ∃ new,
      list files (path ++ [name]) = some (files ++ new) ∧ new.Nodup ∧
        ∀ f, f ∈ new ↔ ∃ rest, f = path ++ [name] ++ rest ∧ Listed t subfix (q ++ [name]) rest)
    {names : List String} (hnames : ∀ name ∈ names, name ∈ t.entries q) (hnodup : names.Nodup)
    (files : List Path) :
    ∃ new, listLoop list t subfix path names files = some (files ++ new) ∧ new.Nodup ∧
      ∀ f, f ∈ new ↔ ∃ name ∈ names, ∃ rest, f = path ++ name :: rest ∧
        Listed t subfix q (name :: rest) := by
  induction names generalizing files with
  | nil => exact ⟨[], by simp [listLoop], List.nodup_nil, by simp⟩
  | cons name names ih =>
      obtain ⟨hfirst, hrest⟩ := List.forall_mem_cons.mp hnames
      obtain ⟨n, hn⟩ := FileTree.mem_entries.mp hfirst
      obtain ⟨hnot, hnodup⟩ := List.nodup_cons.mp hnodup
      obtain ⟨new, heq, hnew, hmem⟩ := listLoop_cons hq hn (hlist name) names files
      obtain ⟨new', heq', hnew', hmem'⟩ := ih hrest hnodup (files ++ new)
      refine ⟨new ++ new', by rw [heq, heq', List.append_assoc], ?_, fun f => ?_⟩
      · refine hnew.append hnew' fun f hf hf' => ?_
        obtain ⟨rest, rfl, -⟩ := (hmem f).mp hf
        obtain ⟨name', hname', rest', hpath, -⟩ := (hmem' _).mp hf'
        obtain rfl := (List.cons.inj (List.append_cancel_left hpath)).1
        exact hnot hname'
      · simp only [List.mem_append, hmem, hmem', List.exists_mem_cons_iff]

/-- **`ListAllFile`** lists the regular files below a directory whose names end in the suffix, each
of them once. -/
theorem listAllFile_lists {fuel : ℕ} (hq : t.resolve maxLinks path = some q) (hdir : t.IsDir q)
    (hdeep : Deep t q fuel) (files : List Path) :
    ∃ new, listAllFile t subfix fuel files path = some (files ++ new) ∧ new.Nodup ∧
      ∀ f, f ∈ new ↔ ∃ rest, f = path ++ rest ∧ Listed t subfix q rest := by
  induction fuel generalizing path q files with
  | zero =>
      obtain ⟨n, hn, -⟩ := hdir
      exact absurd (hdeep q n List.prefix_rfl hn) (Nat.lt_irrefl _)
  | succ fuel ih =>
      have haccess : (t.resolve maxLinks path).any (fun q => (t.node q).isSome) = true := by
        obtain ⟨n, hn, -⟩ := hdir
        simp [hq, hn]
      have hopendir : (Files.opendir path ⟨t, []⟩).1 = some ("." :: ".." :: t.entries q) := by
        simp [Files.opendir, walk_entry hq hdir]
      have hlist : ∀ name files, t.IsDir (q ++ [name]) → ∃ new,
          listAllFile t subfix fuel files (path ++ [name]) = some (files ++ new) ∧ new.Nodup ∧
            ∀ f, f ∈ new ↔ ∃ rest, f = path ++ [name] ++ rest ∧
              Listed t subfix (q ++ [name]) rest := by
        intro name files hsub
        refine ih (resolve_entry hq hsub) hsub (fun r m hpre hr => ?_) files
        have hlt := hdeep r m ((List.prefix_append q [name]).trans hpre) hr
        rw [List.length_append, List.length_singleton]
        omega
      obtain ⟨new, heq, hnodup, hmem⟩ := listLoop_lists hq hlist (fun _ h => h)
        (t.nodup_entries q) files
      refine ⟨new, ?_, hnodup, fun f => ?_⟩
      · rw [listAllFile, if_pos haccess, hopendir]
        simpa [listLoop, dType] using heq
      · rw [hmem]
        constructor
        · rintro ⟨name, -, rest, rfl, h⟩
          exact ⟨name :: rest, rfl, h⟩
        · rintro ⟨rest, rfl, h⟩
          obtain ⟨name, hname, rest, rfl⟩ := listed_entry h
          exact ⟨name, hname, rest, rfl, h⟩

/-- A directory, with a link and a file of another kind. -/
def confTree : FileTree where
  dirents := [⟨[], "conf", ⟨.dir, 0o755⟩⟩, ⟨["conf"], "a.yml", ⟨.reg, 0o644⟩⟩,
    ⟨["conf"], "a.txt", ⟨.reg, 0o644⟩⟩, ⟨["conf"], "d", ⟨.dir, 0o755⟩⟩,
    ⟨["conf"], "l.yml", ⟨.lnk ["a.yml"], 0o777⟩⟩, ⟨["conf", "d"], "b.yml", ⟨.reg, 0o644⟩⟩]
  nodup := by decide
  named := by decide
  closed := by decide

theorem listAllFile_lists_confTree : ∃ fuel new,
    listAllFile confTree ".yml".toList fuel [] ["conf"] = some new ∧ new.Nodup ∧
      ["conf", "d", "b.yml"] ∈ new := by
  obtain ⟨fuel, hdeep⟩ := exists_deep confTree ["conf"]
  obtain ⟨new, hnew, hnodup, hmem⟩ := @listAllFile_lists confTree ".yml".toList ["conf"] ["conf"]
    fuel (by decide) ⟨⟨.dir, 0o755⟩, by decide, rfl⟩ hdeep []
  exact ⟨fuel, new, hnew, hnodup, (hmem _).mpr ⟨["d", "b.yml"], rfl, ⟨.reg, 0o644⟩, "b.yml",
    by decide, rfl, rfl, by decide⟩⟩

/-- Of what is no directory nothing is listed. -/
theorem listAllFile_other (h : ¬t.NamesDir maxLinks path) (fuel : ℕ) (files : List Path) :
    listAllFile t subfix (fuel + 1) files path = some files := by
  have hopendir : (Files.opendir path ⟨t, []⟩).1 = none := by
    have hwalk : (t.walk maxLinks (path ++ ["."])).1 = none := by
      rw [FileTree.walk_concat]
      cases hq : t.resolve maxLinks path with
      | none => rfl
      | some q => exact if_neg fun hdir => h ⟨q, hq, hdir⟩
    simp [Files.opendir, hwalk]
  rw [listAllFile, hopendir]
  exact ite_self _

end FileUtil

/-! ### Loading what is new -/

/-- Where a call of `LoadFromConfDir` is. `done` has the files that it is through with. -/
inductive LoadPc
  | idle
  /-- At the head of the loop. -/
  | next (force : Bool) (done files : List Path)
  /-- Behind `lstat`. -/
  | stated (force : Bool) (done : List Path) (file : Path) (files : List Path) (mtime : BitVec 64)
  /-- In front of `LoadFile`. -/
  | loading (force : Bool) (done : List Path) (file : Path) (files : List Path)
  deriving DecidableEq

/-- The files with their times, what `Config` has, and what was in the files when they were read
last. A path without a file has no text. -/
structure ConfDir (ι κ : Type*) {τ : Type} (E : TypeEnv τ) where
  tree : FileTree
  st_mtime : Path → BitVec 64
  text : Path → Option κ
  file2modifytime : Path → BitVec 64
  registry : Registry E
  pc : ι → LoadPc
  loaded : Path → Option (Option κ)

namespace ConfDir

variable {ι κ : Type*} [DecidableEq ι] {τ : Type} {E : TypeEnv τ}

def setPc (s : ConfDir ι κ E) (i : ι) (p : LoadPc) : ConfDir ι κ E :=
  { s with pc := Function.update s.pc i p }

/-- What can happen next. `junk` is what is in `st` where `lstat` fails. -/
inductive Turn (ι κ : Type*)
  /-- Other processes change files. -/
  | others (tree : FileTree) (st_mtime : Path → BitVec 64) (text : Path → Option κ)
  | call (i : ι) (path : Path) (force : Bool) (fuel : ℕ)
  | lstat (i : ι) (junk : BitVec 64)
  | lock (i : ι)
  | load (i : ι)
  | ret (i : ι)

/-- `LoadFromConfDir` of an absolute path. `LoadFile` is what yaml-cpp makes of a text. -/
def step (emit : Yaml → String) (LoadFile : κ → Option Yaml) (s : ConfDir ι κ E) :
    Turn ι κ → Option (ConfDir ι κ E)
  | .others tree st_mtime text =>
    some { s with tree := tree, st_mtime := st_mtime, text := text }
  | .call i path force fuel =>
    match s.pc i with
    | .idle =>
      (FileUtil.listAllFile s.tree ".yml".toList fuel [] path).map fun files =>
        s.setPc i (.next force [] files)
    | _ => none
  | .lstat i junk =>
    match s.pc i with
    | .next force done (file :: files) =>
      -- the result is not checked, so that `st` may have any time
      let mtime := if (s.text file).isSome then s.st_mtime file else junk
      some (s.setPc i (.stated force done file files mtime))
    | _ => none
  | .lock i =>
    match s.pc i with
    | .stated force done file files mtime =>
      -- `continue`
      if force = false ∧ s.file2modifytime file = mtime then
        some (s.setPc i (.next force (done ++ [file]) files))
      else
        some { s.setPc i (.loading force done file files) with
          file2modifytime := Function.update s.file2modifytime file mtime }
    | _ => none
  | .load i =>
    match s.pc i with
    | .loading force done file files =>
      some { s.setPc i (.next force (done ++ [file]) files) with
        registry := ((s.text file).bind LoadFile).elim s.registry (s.registry.loadFromYaml emit)
        loaded := Function.update s.loaded file (some (s.text file)) }
    | _ => none
  | .ret i =>
    match s.pc i with
    | .next _ _ [] => some (s.setPc i .idle)
    | _ => none

/-- All interleavings, from a program that has loaded nothing. -/
def lts (emit : Yaml → String) (LoadFile : κ → Option Yaml) : Lts (ConfDir ι κ E) (Turn ι κ) where
  init s := s.file2modifytime = (fun _ => 0) ∧ s.pc = (fun _ => .idle) ∧ s.loaded = fun _ => none
  step := step emit LoadFile

/-- What a step does. -/
inductive Moves (emit : Yaml → String) (LoadFile : κ → Option Yaml) (s : ConfDir ι κ E) :
    Turn ι κ → ConfDir ι κ E → Prop
  | others (tree : FileTree) (st_mtime : Path → BitVec 64) (text : Path → Option κ) :
    Moves emit LoadFile s (.others tree st_mtime text)
      { s with tree := tree, st_mtime := st_mtime, text := text }
  | call {i : ι} {path : Path} {fuel : ℕ} {files : List Path} (hi : s.pc i = .idle)
    (hfiles : FileUtil.listAllFile s.tree ".yml".toList fuel [] path = some files) (force : Bool) :
    Moves emit LoadFile s (.call i path force fuel) (s.setPc i (.next force [] files))
  | lstat {i : ι} {force : Bool} {done : List Path} {file : Path} {files : List Path}
    (hi : s.pc i = .next force done (file :: files)) (junk : BitVec 64) :
    Moves emit LoadFile s (.lstat i junk) (s.setPc i (.stated force done file files
      (if (s.text file).isSome then s.st_mtime file else junk)))
  | skip {i : ι} {force : Bool} {done : List Path} {file : Path} {files : List Path}
    {mtime : BitVec 64} (hi : s.pc i = .stated force done file files mtime)
    (heq : s.file2modifytime file = mtime) :
    Moves emit LoadFile s (.lock i) (s.setPc i (.next force (done ++ [file]) files))
  | lock {i : ι} {force : Bool} {done : List Path} {file : Path} {files : List Path}
    {mtime : BitVec 64} (hi : s.pc i = .stated force done file files mtime) :
    Moves emit LoadFile s (.lock i) { s.setPc i (.loading force done file files) with
      file2modifytime := Function.update s.file2modifytime file mtime }
  | load {i : ι} {force : Bool} {done : List Path} {file : Path} {files : List Path}
    (hi : s.pc i = .loading force done file files) :
    Moves emit LoadFile s (.load i) { s.setPc i (.next force (done ++ [file]) files) with
      registry := ((s.text file).bind LoadFile).elim s.registry (s.registry.loadFromYaml emit)
      loaded := Function.update s.loaded file (some (s.text file)) }
  | ret {i : ι} {force : Bool} {done : List Path} (hi : s.pc i = .next force done []) :
    Moves emit LoadFile s (.ret i) (s.setPc i .idle)

variable {emit : Yaml → String} {LoadFile : κ → Option Yaml} {s s' : ConfDir ι κ E}
  {l : Turn ι κ} {p : Path}

theorem moves_of_step (h : step emit LoadFile s l = some s') : Moves emit LoadFile s l s' := by
  cases l with
  | others tree st_mtime text =>
      obtain rfl := Option.some.inj h
      exact .others tree st_mtime text
  | call i path force fuel =>
      simp only [step] at h
      split at h
      case h_1 hi =>
        obtain ⟨files, hfiles, rfl⟩ := Option.map_eq_some_iff.mp h
        exact .call hi hfiles force
      case h_2 => cases h
  | lstat i junk =>
      simp only [step] at h
      split at h
      case h_1 hi =>
        obtain rfl := Option.some.inj h
        exact .lstat hi junk
      case h_2 => cases h
  | lock i =>
      simp only [step] at h
      split at h
      case h_1 hi =>
        split at h
        case isTrue heq =>
          obtain rfl := Option.some.inj h
          exact .skip hi heq.2
        case isFalse =>
          obtain rfl := Option.some.inj h
          exact .lock hi
      case h_2 => cases h
  | load i =>
      simp only [step] at h
      split at h
      case h_1 hi =>
        obtain rfl := Option.some.inj h
        exact .load hi
      case h_2 => cases h
  | ret i =>
      simp only [step] at h
      split at h
      case h_1 hi =>
        obtain rfl := Option.some.inj h
        exact .ret hi
      case h_2 => cases h

/-! #### Files that are current -/

/-- Somebody is about to read the file. -/
def Pending (s : ConfDir ι κ E) (p : Path) : Prop :=
  ∃ i force done files, s.pc i = .loading force done p files

/-- What is in the file was read, or is about to be. With the time zero it need not be. -/
def Current (s : ConfDir ι κ E) (p : Path) : Prop :=
  s.st_mtime p = 0 ∨ s.Pending p ∨ s.loaded p = some (s.text p)

/-- Files are given a later time when they change, and are there when they are looked at. -/
def Stamped (s : ConfDir ι κ E) : Turn ι κ → Prop
  | .others _ st_mtime text =>
    ∀ p, s.st_mtime p ≤ st_mtime p ∧ (text p ≠ s.text p → s.st_mtime p < st_mtime p)
  | .lstat i _ => ∀ force done file files, s.pc i = .next force done (file :: files) →
    (s.text file).isSome
  | _ => True

/-- Files do not change. -/
def Turn.Ours : Turn ι κ → Prop
  | .others .. => False
  | _ => True

/-- Files are where they were. -/
theorem Moves.same (h : Moves emit LoadFile s l s') (hours : l.Ours) :
    s'.tree = s.tree ∧ s'.st_mtime = s.st_mtime ∧ s'.text = s.text := by
  cases h with
  | others => exact hours.elim
  | call | lstat | skip | lock | load | ret => exact ⟨rfl, rfl, rfl⟩

/-- Files that are there stay there. -/
theorem meets_of_ours {ls : List (Turn ι κ)} (htext : ∀ p, (s.text p).isSome)
    (hours : ∀ l ∈ ls, l.Ours) : (lts emit LoadFile).Meets Stamped s ls := by
  induction ls generalizing s with
  | nil => trivial
  | cons l ls ih =>
      obtain ⟨hfirst, hours⟩ := List.forall_mem_cons.mp hours
      intro s' hstep
      obtain ⟨-, -, hsame⟩ := (moves_of_step hstep).same hfirst
      refine ⟨?_, ih (fun p => hsame ▸ htext p) hours⟩
      cases l with
      | others => exact hfirst.elim
      | lstat i junk => exact fun _ _ file _ _ => htext file
      | call | lock | load | ret => trivial

theorem pending_setPc {i : ι} {pc : LoadPc} (h : s.Pending p)
    (hi : ∀ force done files, s.pc i ≠ .loading force done p files) : (s.setPc i pc).Pending p := by
  obtain ⟨j, force, done, files, hj⟩ := h
  have hji : j ≠ i := by
    rintro rfl
    exact hi force done files hj
  exact ⟨j, force, done, files, (Function.update_of_ne hji ..).trans hj⟩

theorem Current.setPc {i : ι} {pc : LoadPc} (h : s.Current p)
    (hi : ∀ force done files, s.pc i ≠ .loading force done p files) :
    (s.setPc i pc).Current p :=
  h.imp_right (Or.imp_left fun hpending => pending_setPc hpending hi)

/-- **A file stays current** as long as it does not change. -/
theorem Current.step (h : s.Current p) (hmoves : Moves emit LoadFile s l s') (hours : l.Ours) :
    s'.Current p := by
  cases hmoves with
  | others => exact hours.elim
  | call hi | lstat hi | skip hi | ret hi => exact h.setPc fun _ _ _ => by simp [hi]
  | lock hi => exact h.setPc (fun _ _ _ => by simp [hi])
  | @load i force done file files hi =>
      by_cases hp : p = file
      · subst hp
        exact .inr (.inr (Function.update_self ..))
      · refine h.imp_right (Or.imp (fun hpending => ?_) fun hloaded => ?_)
        · refine pending_setPc hpending fun _ _ _ hj => ?_
          rw [hi] at hj
          injection hj with _ _ hfile
          exact hp hfile.symm
        · exact (Function.update_of_ne hp ..).trans hloaded

/-- No time is from the future, and a file with the time it has been recorded with is current. -/
structure Fresh (s : ConfDir ι κ E) : Prop where
  recorded : ∀ p, s.file2modifytime p ≤ s.st_mtime p
  stated : ∀ i force done file files mtime, s.pc i = .stated force done file files mtime →
    mtime ≤ s.st_mtime file
  current : ∀ p, s.file2modifytime p = s.st_mtime p → s.Current p

theorem Fresh.setPc {i : ι} {pc : LoadPc} (h : s.Fresh)
    (hi : ∀ force done file files, s.pc i ≠ .loading force done file files)
    (hpc : ∀ force done file files mtime, pc = .stated force done file files mtime →
      mtime ≤ s.st_mtime file) : (s.setPc i pc).Fresh := by
  refine ⟨h.recorded, fun j force done file files mtime hj => ?_, fun p hp =>
    (h.current p hp).setPc fun force done files => hi force done p files⟩
  by_cases hji : j = i
  · subst hji
    exact hpc force done file files mtime ((Function.update_self ..).symm.trans hj)
  · exact h.stated j force done file files mtime ((Function.update_of_ne hji ..).symm.trans hj)

theorem Fresh.step (h : s.Fresh) (hmoves : Moves emit LoadFile s l s') (hg : s.Stamped l) :
    s'.Fresh := by
  have hmoves' := hmoves
  cases hmoves with
  | others tree st_mtime text =>
      refine ⟨fun p => BitVec.le_trans (h.recorded p) (hg p).1,
        fun i force done file files mtime hi =>
          BitVec.le_trans (h.stated i force done file files mtime hi) (hg file).1, fun p hp => ?_⟩
      -- a file that still has the time it was recorded with has not changed
      have hp : s.file2modifytime p = st_mtime p := hp
      have hle := h.recorded p
      have hsame : s.st_mtime p = st_mtime p := by
        have := (hg p).1
        bv_omega
      have htext : text p = s.text p := by
        by_contra hne
        have := (hg p).2 hne
        bv_omega
      have hcurrent := h.current p (hp.trans hsame.symm)
      unfold Current Pending at hcurrent ⊢
      dsimp only
      rwa [← hsame, htext]
  | call hi | skip hi | ret hi => exact h.setPc (by simp [hi]) (by simp)
  | @lstat i force done file files hi junk =>
      refine h.setPc (by simp [hi]) ?_
      rintro _ _ _ _ mtime ⟨⟩
      rw [if_pos (hg force done file files hi)]
      exact BitVec.le_refl _
  | @lock i force done file files mtime hi =>
      have hset : (s.setPc i (.loading force done file files)).Fresh :=
        h.setPc (by simp [hi]) (by simp)
      refine ⟨fun p => ?_, hset.stated, fun p hp => ?_⟩
      · show Function.update s.file2modifytime file mtime p ≤ s.st_mtime p
        by_cases hpf : p = file
        · rw [hpf, Function.update_self]
          exact h.stated i force done file files mtime hi
        · rw [Function.update_of_ne hpf]
          exact h.recorded p
      · by_cases hpf : p = file
        · subst hpf
          exact .inr (.inl ⟨i, force, done, files, Function.update_self ..⟩)
        · exact hset.current p ((Function.update_of_ne hpf ..).symm.trans hp)
  | @load i force done file files hi =>
      refine ⟨h.recorded, fun j force' done' file' files' mtime hj => ?_,
        fun p hp => (h.current p hp).step hmoves' trivial⟩
      by_cases hji : j = i
      · subst hji
        cases (Function.update_self ..).symm.trans hj
      · exact h.stated j force' done' file' files' mtime
          ((Function.update_of_ne hji ..).symm.trans hj)

theorem fresh_of_guarded (hs : (lts emit LoadFile).Guarded Stamped s) : s.Fresh := by
  refine hs.invariant (I := Fresh) ?_ fun s l s' _ hg hstep h => h.step (moves_of_step hstep) hg
  rintro s ⟨hrecorded, hpc, -⟩
  refine ⟨fun p => ?_, fun i => by simp [hpc], fun p hp => .inl (hp.symm.trans ?_)⟩
  · rw [hrecorded]
    exact Nat.zero_le _
  · rw [hrecorded]

/-- **A file that is skipped is not missed**: a file that has the time it was recorded with was
read after its last change, or is about to be, unless that time is zero. -/
theorem recorded_current (hs : (lts emit LoadFile).Guarded Stamped s)
    (hp : s.file2modifytime p = s.st_mtime p) : s.Current p :=
  (fresh_of_guarded hs).current p hp

/-! #### A whole call -/

/-- A call that has found `all` is through with files that are current. -/
inductive Went (s : ConfDir ι κ E) (all : List Path) : LoadPc → Prop
  | idle : Went s all .idle
  | next {force : Bool} {done files : List Path} (hall : all = done ++ files)
    (hdone : ∀ p ∈ done, s.Current p) : Went s all (.next force done files)
  | stated {force : Bool} {done files : List Path} {file : Path}
    (hall : all = done ++ file :: files) (hdone : ∀ p ∈ done, s.Current p) :
    Went s all (.stated force done file files (s.st_mtime file))
  | loading {force : Bool} {done files : List Path} {file : Path}
    (hall : all = done ++ file :: files) (hdone : ∀ p ∈ done, s.Current p) :
    Went s all (.loading force done file files)

variable {all : List Path}

omit [DecidableEq ι] in
theorem Went.mono {pc : LoadPc} (h : s.Went all pc) (hmtime : s'.st_mtime = s.st_mtime)
    (hcurrent : ∀ p, s.Current p → s'.Current p) : s'.Went all pc := by
  cases h with
  | idle => exact .idle
  | next hall hdone => exact .next hall fun p hp => hcurrent p (hdone p hp)
  | stated hall hdone =>
      rw [← hmtime]
      exact .stated hall fun p hp => hcurrent p (hdone p hp)
  | loading hall hdone => exact .loading hall fun p hp => hcurrent p (hdone p hp)

/-- One thread goes on. -/
theorem went_of_pc {i j : ι} {pc : LoadPc} (hpc : s'.pc = Function.update s.pc j pc)
    (hself : i = j → s'.Went all pc) (hkeep : s'.Went all (s.pc i)) : s'.Went all (s'.pc i) := by
  rw [hpc]
  by_cases hij : i = j
  · subst hij
    rw [Function.update_self]
    exact hself rfl
  · rwa [Function.update_of_ne hij]

/-- A thread makes a call. -/
def Turn.IsCall (i : ι) : Turn ι κ → Prop
  | .call j .. => j = i
  | _ => False

theorem Went.step {i : ι} (h : s.Went all (s.pc i)) (hfresh : s.Fresh)
    (hmoves : Moves emit LoadFile s l s') (hg : s.Stamped l) (hours : l.Ours)
    (hcall : ¬l.IsCall i) : s'.Went all (s'.pc i) := by
  obtain ⟨-, hmtime, -⟩ := hmoves.same hours
  have hkeep : s'.Went all (s.pc i) := h.mono hmtime fun p hp => hp.step hmoves hours
  have hstill : ∀ done : List Path, (∀ p ∈ done, s.Current p) → ∀ p ∈ done, s'.Current p :=
    fun _ hdone p hp => (hdone p hp).step hmoves hours
  have hnext : ∀ (done : List Path) (file : Path), (∀ p ∈ done, s.Current p) → s'.Current file →
      ∀ p ∈ done ++ [file], s'.Current p := by
    intro done file hdone hfile p hp
    rcases List.mem_append.mp hp with hp | hp
    · exact hstill done hdone p hp
    · exact List.mem_singleton.mp hp ▸ hfile
  cases hmoves with
  | others => exact hours.elim
  | call => exact went_of_pc rfl (fun hij => absurd hij.symm hcall) hkeep
  | @lstat j force done file files hj junk =>
      refine went_of_pc rfl (fun hij => ?_) hkeep
      rw [hij, hj] at h
      rw [if_pos (hg force done file files hj)] at hstill ⊢
      cases h with
      | next hall hdone => exact .stated hall (hstill done hdone)
  | @skip j force done file files mtime hj heq =>
      refine went_of_pc rfl (fun hij => ?_) hkeep
      rw [hij, hj] at h
      cases h with
      | stated hall hdone =>
          -- a file that is skipped is current already
          refine .next (hall.trans (List.append_cons ..)) (hnext done file hdone ?_)
          exact (hfresh.current file heq).setPc (by simp [hj])
  | @lock j force done file files mtime hj =>
      refine went_of_pc rfl (fun hij => ?_) hkeep
      rw [hij, hj] at h
      cases h with
      | stated hall hdone => exact .loading hall (hstill done hdone)
  | @load j force done file files hj =>
      refine went_of_pc rfl (fun hij => ?_) hkeep
      rw [hij, hj] at h
      cases h with
      | loading hall hdone =>
          refine .next (hall.trans (List.append_cons ..)) (hnext done file hdone ?_)
          exact .inr (.inr (Function.update_self ..))
  | ret => exact went_of_pc rfl (fun _ => .idle) hkeep

theorem Went.run {i : ι} {ls : List (Turn ι κ)} (hs : (lts emit LoadFile).Guarded Stamped s)
    (h : s.Went all (s.pc i)) (hg : (lts emit LoadFile).Meets Stamped s ls)
    (hours : ∀ l ∈ ls, l.Ours) (hone : ∀ l ∈ ls, ¬l.IsCall i)
    (hrun : (lts emit LoadFile).run s ls = some s') : s'.Went all (s'.pc i) := by
  induction ls generalizing s with
  | nil => exact Option.some.inj hrun ▸ h
  | cons l ls ih =>
      obtain ⟨s₁, hstep, hrun⟩ := Option.bind_eq_some_iff.mp hrun
      obtain ⟨hl, hg⟩ := hg s₁ hstep
      obtain ⟨hfirst, hours⟩ := List.forall_mem_cons.mp hours
      obtain ⟨hcall, hone⟩ := List.forall_mem_cons.mp hone
      have hnext := h.step (fresh_of_guarded hs) (moves_of_step hstep) hl hfirst hcall
      exact ih (.step hs hl hstep) hnext hg hours hone hrun

/-- **A call**, at its end, has been through all the files that `ListAllFile` finds in its
directory, and each of them was read after its last change, or is about to be by another call. -/
theorem call_current {i : ι} {path : Path} {force : Bool} {fuel : ℕ} {ls : List (Turn ι κ)}
    (hs : (lts emit LoadFile).Guarded Stamped s)
    (hg : (lts emit LoadFile).Meets Stamped s (.call i path force fuel :: ls))
    (hours : ∀ l ∈ ls, l.Ours) (hone : ∀ l ∈ ls, ¬l.IsCall i)
    (hrun : (lts emit LoadFile).run s (.call i path force fuel :: ls) = some s')
    {force' : Bool} {done : List Path} (hi' : s'.pc i = .next force' done []) :
    FileUtil.listAllFile s.tree ".yml".toList fuel [] path = some done ∧
      ∀ p ∈ done, s'.Current p := by
  obtain ⟨s₁, hstep, hrun⟩ := Option.bind_eq_some_iff.mp hrun
  obtain ⟨hl, hg⟩ := hg s₁ hstep
  have hmoves : Moves emit LoadFile s (.call i path force fuel) s₁ := moves_of_step hstep
  cases hmoves with
  | @call _ _ _ files hi hfiles =>
      have hpc : (s.setPc i (.next force [] files)).pc i = .next force [] files :=
        Function.update_self ..
      have hstart : (s.setPc i (.next force [] files)).Went files
          ((s.setPc i (.next force [] files)).pc i) := by
        rw [hpc]
        exact .next rfl fun p hp => absurd hp List.not_mem_nil
      have h := hstart.run (.step hs hl hstep) hg hours hone hrun
      rw [hi'] at h
      cases h with
      | next hall hdone => exact ⟨hfiles.trans (by simpa using hall), hdone⟩

/-! #### A directory with two files -/

def oneType : TypeEnv Unit := ⟨fun _ => ℕ, fun _ => (· == ·), fun _ _ => none, fun _ _ _ _ => false⟩

/-- A program that has loaded nothing, and files of one time with one text. -/
def fresh (text : Option Char) : ConfDir Unit Char oneType where
  tree := FileUtil.confTree
  st_mtime _ := 5
  text _ := text
  file2modifytime _ := 0
  registry := .empty _
  pc _ := .idle
  loaded _ := none

/-- A call. -/
def loads : List (Turn Unit Char) :=
  [.call () ["conf"] false 3, .lstat () 0, .lock (), .load (), .lstat () 0, .lock (), .load ()]

/-- What a state shows of a file. -/
def shows (s : ConfDir Unit Char oneType) : LoadPc × BitVec 64 × BitVec 64 :=
  (s.pc (), s.file2modifytime ["conf", "a.yml"], s.st_mtime ["conf", "a.yml"])

theorem exists_loads : ∃ s,
    (lts (fun _ => "") fun _ => none).run (fresh (some 'x')) loads = some s ∧ shows s =
      (.next false [["conf", "a.yml"], ["conf", "d", "b.yml"]] [], 5, 5) := by
  have hrun : ((lts (fun _ => "") fun _ => none).run (fresh (some 'x')) loads).map shows =
      some (.next false [["conf", "a.yml"], ["conf", "d", "b.yml"]] [], 5, 5) := by
    decide
  exact Option.map_eq_some_iff.mp hrun

theorem guarded_fresh (text : Option Char) :
    (lts (fun _ => "") fun _ => none).Guarded Stamped (fresh text) :=
  .init ⟨rfl, rfl, rfl⟩

theorem meets_loads :
    (lts (fun _ => "") fun _ => none).Meets Stamped (fresh (some 'x')) loads :=
  meets_of_ours (fun _ => rfl) (by simp [loads, Turn.Ours])

theorem recorded_current_loads : ∃ s : ConfDir Unit Char oneType,
    (lts (fun _ => "") fun _ => none).Guarded Stamped s ∧ s.st_mtime ["conf", "a.yml"] = 5 ∧
      s.Current ["conf", "a.yml"] := by
  obtain ⟨s, hrun, hshows⟩ := exists_loads
  obtain ⟨-, htimes⟩ := Prod.mk.inj hshows
  obtain ⟨hrecorded, hmtime⟩ := Prod.mk.inj htimes
  have hs := (guarded_fresh (some 'x')).of_run meets_loads hrun
  exact ⟨s, hs, hmtime, recorded_current hs (hrecorded.trans hmtime.symm)⟩

theorem call_current_loads : ∃ (s : ConfDir Unit Char oneType) (done : List Path),
    (lts (fun _ => "") fun _ => none).run (fresh (some 'x')) loads = some s ∧
      done = [["conf", "a.yml"], ["conf", "d", "b.yml"]] ∧ ∀ p ∈ done, s.Current p := by
  obtain ⟨s, hrun, hshows⟩ := exists_loads
  exact ⟨s, _, hrun, rfl, (call_current (guarded_fresh _) meets_loads (by simp [Turn.Ours])
    (by simp [Turn.IsCall]) hrun (Prod.mk.inj hshows).1).2⟩

/-- A file that is not there when `lstat` looks at it is recorded with any time, and not read
when it is there with that time. -/
def missed : List (Turn Unit Char) :=
  [.call () ["conf"] false 3, .lstat () 7, .lock (), .load (),
    .others FileUtil.confTree (fun _ => 7) fun _ => some 'x']

theorem current_false : ∃ s : ConfDir Unit Char oneType,
    (lts (fun _ => "") fun _ => none).Reachable s ∧
      s.file2modifytime ["conf", "a.yml"] = s.st_mtime ["conf", "a.yml"] ∧
        ¬s.Current ["conf", "a.yml"] := by
  have hrun : ((lts (fun _ => "") fun _ => none).run (fresh none) missed).map (fun s =>
      (shows s, s.loaded ["conf", "a.yml"], s.text ["conf", "a.yml"])) =
      some ((.next false [["conf", "a.yml"]] [["conf", "d", "b.yml"]], 7, 7), some none,
        some 'x') := by
    decide
  obtain ⟨s, hs, hshows⟩ := Lts.Reachable.of_map_run hrun (guarded_fresh none).reachable
  obtain ⟨hshows, hread⟩ := Prod.mk.inj hshows
  obtain ⟨hpc, htimes⟩ := Prod.mk.inj hshows
  obtain ⟨hrecorded, hmtime⟩ := Prod.mk.inj htimes
  obtain ⟨hloaded, htext⟩ := Prod.mk.inj hread
  refine ⟨s, hs, hrecorded.trans hmtime.symm, ?_⟩
  rintro (hzero | ⟨i, _, _, _, hi⟩ | hcurrent)
  · rw [hmtime] at hzero
    cases hzero
  · rw [hpc] at hi
    cases hi
  · rw [hloaded, htext] at hcurrent
    cases hcurrent

end ConfDir

end Easy.Base
