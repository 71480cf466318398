import Easy.Lib.Disk

/-!
`FileUtil::Dirname`, `Basename`, `Mkdir` and `OpenForWrite` (`easy/base/FileUtil.cc`).

Paths are text here, as in the calls. `names` is what the kernel makes of one: the names between
the slashes, but for those that stay where they are; the program works in the root directory. A
text that ends in such a one, or in a slash, asks for a directory, behind links. `Mkdir` cuts a
path in front of each slash in turn, its first character apart, and makes a directory of what is
in front. Names that go up (`..`) are in no tree, and no path is about one.

Calls fail for what is in the tree, or for another reason where `refused` says so. No other
process comes between the calls of one function.
-/

namespace Easy.Base

open Lib.Posix

/-! ### Paths as text -/

/-- What is between two slashes. -/
def entry (cur : List Char) : Path := if cur = [] ∨ cur = ['.'] then [] else [.ofList cur]

def namesFrom (cur : List Char) : List Char → Path
  | [] => entry cur
  | c :: s => if c = '/' then entry cur ++ namesFrom [] s else namesFrom (cur ++ [c]) s

/-- The names in a path. -/
def names (path : List Char) : Path := namesFrom [] path

/-- The position of the last `c`. -/
def rfind (c : Char) : List Char → Option ℕ
  | [] => none
  | d :: s => ((rfind c s).map (· + 1)).or (if d = c then some 0 else none)

namespace FileUtil

def dirname (filename : List Char) : List Char :=
  if filename = [] then ['.']
  else
    match rfind '/' filename with
    | some 0 => ['/']
    | none => ['.']
    | some pos => filename.take pos

def basename (filename : List Char) : List Char :=
  if filename = [] then filename
  else
    match rfind '/' filename with
    | none => filename
    | some pos => filename.drop (pos + 1)

/-- A text that names nothing behind its last slash asks for a directory. -/
def asksDir (path : List Char) : Bool := (names (basename path)).isEmpty

/-- `__lstat`: 0 is true. -/
def lstat' (path : List Char) (d : Disk) : Bool :=
  if asksDir path then d.tree.NamesDir maxLinks (names path)
  else d.tree.lexists maxLinks (names path)

/-- `access`, with `F_OK` -/
def access (path : List Char) (d : Disk) : Bool :=
  if asksDir path then d.tree.NamesDir maxLinks (names path) else d.access (names path)

variable (refused : Path → Bool)

/-- `__mkdir`: 0 is true. The kernel makes no directory of the name `.`. -/
def mkdir' (path : List Char) (d : Disk) : Bool × Disk :=
  if access path d then (true, d)
  else if basename path = ['.'] then (false, d)
  else Disk.mkdir refused (names path) 0o775 d

/-- Directories one after another, up to the first that fails. -/
def mkdirs : List (List Char) → Disk → Bool × Disk
  | [], d => (true, d)
  | path :: paths, d =>
    let (ok, d) := mkdir' refused path d
    if ok then mkdirs paths d else (false, d)

/-- The texts in front of the slashes of a path, from some character on. -/
def cuts (front : List Char) : List Char → List (List Char)
  | [] => []
  | c :: s => if c = '/' then front :: cuts (front ++ [c]) s else cuts (front ++ [c]) s

/-- `Mkdir`, of a path with a first character. -/
def mkdir (dirname : List Char) (d : Disk) : Bool × Disk :=
  if lstat' dirname d then (true, d)
  else mkdirs refused (cuts (dirname.take 1) (dirname.drop 1) ++ [dirname]) d

end FileUtil

/-! ### Streams -/

/-- `std::ofstream`: the file it has open, and whether `failbit` or `badbit` is set. -/
structure OfStream where
  file : Option ℕ
  fail : Bool
  deriving DecidableEq, Repr

namespace OfStream

def isOpen (ofs : OfStream) : Bool := ofs.file.isSome

def close (ofs : OfStream) : OfStream := ⟨none, ofs.fail || !ofs.isOpen⟩

/-- `open` with `std::ios::app`. A stream that has a file open keeps it, and fails. -/
def open' (refused : Path → Bool) (filename : List Char) (ofs : OfStream) (d : Disk) :
    OfStream × Disk :=
  if ofs.isOpen then ({ ofs with fail := true }, d)
  else if names (FileUtil.basename filename) = [] then (⟨none, true⟩, d)
  else
    match d.openAppend refused (names filename) with
    | (some i, d) => (⟨some i, false⟩, d)
    | (none, d) => (⟨none, true⟩, d)

end OfStream

/-- `OpenForWrite`, of a file to append to. -/
def FileUtil.openForWrite (refused : Path → Bool) (filename : List Char) (ofs : OfStream)
    (d : Disk) : OfStream × Disk :=
  let (ofs, d) := ofs.open' refused filename d
  if !ofs.isOpen then ofs.open' refused filename (mkdir refused (dirname filename) d).2
  else (ofs, d)

/-! ### Names of a path -/

section Names

variable {path front cur s : List Char}

theorem namesFrom_slash (cur s t : List Char) :
    namesFrom cur (s ++ '/' :: t) = namesFrom cur s ++ names t := by
  induction s generalizing cur with
  | nil => simp only [List.nil_append, namesFrom, if_true, names]
  | cons c s ih =>
      rw [List.cons_append, namesFrom, namesFrom]
      split
      case isTrue => rw [ih, List.append_assoc]
      case isFalse => rw [ih]

/-- What follows the last slash is one name at most. -/
theorem namesFrom_entry (h : '/' ∉ s) : namesFrom cur s = entry (cur ++ s) := by
  induction s generalizing cur with
  | nil => rw [namesFrom, List.append_nil]
  | cons c s ih =>
      obtain ⟨hc, hs⟩ := List.ne_and_not_mem_of_not_mem_cons h
      rw [namesFrom, if_neg (Ne.symm hc), ih hs, List.append_assoc, List.singleton_append]

theorem names_slash (s t : List Char) : names (s ++ '/' :: t) = names s ++ names t :=
  namesFrom_slash [] s t

theorem names_entry (h : '/' ∉ s) : names s = entry s := by
  rw [names, namesFrom_entry h, List.nil_append]

theorem rfind_none (h : '/' ∉ s) : rfind '/' s = none := by
  induction s with
  | nil => rfl
  | cons c s ih =>
      obtain ⟨hc, hs⟩ := List.ne_and_not_mem_of_not_mem_cons h
      rw [rfind, ih hs, if_neg (Ne.symm hc)]
      rfl

theorem rfind_append (h : '/' ∉ s) (front : List Char) :
    rfind '/' (front ++ '/' :: s) = some front.length := by
  induction front with
  | nil =>
      rw [List.nil_append, rfind, rfind_none h, if_pos rfl]
      rfl
  | cons c front ih =>
      rw [List.cons_append, rfind, ih]
      rfl

/-- A path is a name, or ends in one behind its last slash. -/
theorem slash_cases (path : List Char) :
    '/' ∉ path ∨ ∃ front s, path = front ++ '/' :: s ∧ '/' ∉ s := by
  by_cases h : '/' ∈ path
  · obtain ⟨s, front, hpath, hs⟩ := List.eq_append_cons_of_mem (List.mem_reverse.mpr h)
    refine .inr ⟨front.reverse, s.reverse, ?_, by simpa using hs⟩
    rw [← List.reverse_reverse path, hpath]
    simp
  · exact .inl h

theorem basename_of_not_mem (h : '/' ∉ path) :
    FileUtil.basename path = path := by
  rw [FileUtil.basename, rfind_none h]
  split <;> rfl

theorem basename_slash (h : '/' ∉ path) (front : List Char) :
    FileUtil.basename (front ++ '/' :: path) = path := by
  rw [FileUtil.basename, if_neg (by simp), rfind_append h]
  simp

/-- **`Dirname` and `Basename`** have the names of a path, the last of them in `Basename`. -/
theorem names_dirname_basename (filename : List Char) :
    names (FileUtil.dirname filename) ++ names (FileUtil.basename filename) = names filename ∧
      (names (FileUtil.basename filename)).length ≤ 1 := by
  have hone : ∀ s, (entry s).length ≤ 1 := by
    intro s
    rw [entry]
    split <;> simp
  rcases slash_cases filename with hnone | ⟨front, s, rfl, hs⟩
  · have hdir : FileUtil.dirname filename = ['.'] := by
      rw [FileUtil.dirname, rfind_none hnone]
      split <;> rfl
    have hbase : FileUtil.basename filename = filename := basename_of_not_mem hnone
    have hdot : names ['.'] = [] := rfl
    rw [hdir, hbase, names_entry hnone, hdot]
    exact ⟨rfl, hone filename⟩
  · have hne : front ++ '/' :: s ≠ [] := by simp
    have hbase : FileUtil.basename (front ++ '/' :: s) = s := basename_slash hs front
    have hdir : names (FileUtil.dirname (front ++ '/' :: s)) = names front := by
      rw [FileUtil.dirname, if_neg hne, rfind_append hs]
      cases front with
      | nil => rfl
      | cons c front => simp
    rw [hbase, hdir, names_slash, names_entry hs]
    exact ⟨rfl, hone s⟩

end Names

theorem FileUtil.dirname_ne_nil (filename : List Char) : dirname filename ≠ [] := by
  rw [dirname]
  split
  case isTrue => simp
  case isFalse hne =>
    split
    case h_1 => simp
    case h_2 => simp
    case h_3 pos hzero hpos =>
      have hpos : pos ≠ 0 := hzero
      simp [List.take_eq_nil_iff, hne, hpos]

/-! ### The directories of `Mkdir` -/

/-- Texts of paths that go along names, one at a time, or stay where they are. -/
inductive Climbs : Path → List String → List (List Char) → Prop
  | nil {q : Path} : Climbs q [] []
  | stay {q : Path} {xs : List String} {p : List Char} {ps : List (List Char)} (hname : names p = q)
      (hasks : FileUtil.asksDir p = true) (h : Climbs q xs ps) : Climbs q xs (p :: ps)
  | step {q : Path} {x : String} {xs : List String} {p : List Char} {ps : List (List Char)}
      (hname : names p = q ++ [x]) (hasks : FileUtil.asksDir p = false)
      (h : Climbs (q ++ [x]) xs ps) : Climbs q (x :: xs) (p :: ps)

theorem climbs_entry {q : Path} {cur p : List Char} {xs : List String} {ps : List (List Char)}
    (hname : names p = q ++ entry cur) (hasks : FileUtil.asksDir p = (entry cur).isEmpty)
    (h : Climbs (q ++ entry cur) xs ps) : Climbs q (entry cur ++ xs) (p :: ps) := by
  rw [entry] at h hname hasks ⊢
  split at h
  -- two slashes, or a dot
  case isTrue hstay =>
    rw [if_pos hstay] at hname hasks ⊢
    rw [List.append_nil] at h hname
    exact .stay hname hasks h
  case isFalse hstep =>
    rw [if_neg hstep] at hname hasks ⊢
    exact .step hname hasks h

/-- The cuts of a path go along its names. -/
theorem climbs_cuts (head cur s : List Char) (q : Path)
    (hhead : ∀ t, names (head ++ t) = q ++ namesFrom [] t)
    (hlast : ∀ t, '/' ∉ t → FileUtil.basename (head ++ t) = t) (hcur : '/' ∉ cur) :
    Climbs q (namesFrom cur s) (FileUtil.cuts (head ++ cur) s ++ [head ++ cur ++ s]) := by
  induction s generalizing head cur q with
  | nil =>
      have hname : names (head ++ cur) = q ++ entry cur := by
        rw [hhead, namesFrom_entry hcur, List.nil_append]
      have hasks : FileUtil.asksDir (head ++ cur) = (entry cur).isEmpty := by
        rw [FileUtil.asksDir, hlast cur hcur, names_entry hcur]
      have hclimb : Climbs q (entry cur ++ []) [head ++ cur] := climbs_entry hname hasks .nil
      simpa [FileUtil.cuts, namesFrom] using hclimb
  | cons c s ih =>
      rw [FileUtil.cuts, namesFrom]
      split
      case isTrue hc =>
        subst hc
        have hname : names (head ++ cur) = q ++ entry cur := by
          rw [hhead, namesFrom_entry hcur, List.nil_append]
        have hasks : FileUtil.asksDir (head ++ cur) = (entry cur).isEmpty := by
          rw [FileUtil.asksDir, hlast cur hcur, names_entry hcur]
        have hnext := ih (head ++ cur ++ ['/']) [] (q ++ entry cur) (fun t => by
          rw [List.append_assoc, List.singleton_append, names_slash, hname, names]) (fun t ht => by
          rw [List.append_assoc, List.singleton_append, basename_slash ht]) (by simp)
        rw [List.append_nil] at hnext
        have hclimb := climbs_entry hname hasks hnext
        simpa using hclimb
      case isFalse hc =>
        have hnext := ih head (cur ++ [c]) q hhead hlast (by simp [hcur, Ne.symm hc])
        simpa using hnext

/-- **The cuts of `Mkdir`** go along the names of the path. -/
theorem climbs_dirname {dirname : List Char} (hne : dirname ≠ []) :
    Climbs [] (names dirname)
      (FileUtil.cuts (dirname.take 1) (dirname.drop 1) ++ [dirname]) := by
  obtain ⟨c, s, rfl⟩ := List.exists_cons_of_ne_nil hne
  by_cases hc : c = '/'
  · subst hc
    have hnames : ∀ t, names ('/' :: t) = namesFrom [] t := names_slash []
    have hclimb := climbs_cuts ['/'] [] s [] (fun t => by
      rw [List.singleton_append, List.nil_append, hnames]) (fun t ht => by
      rw [List.singleton_append, ← List.nil_append ('/' :: t), basename_slash ht]) (by simp)
    rw [hnames]
    simpa using hclimb
  · have hclimb := climbs_cuts [] [c] s []
      (fun t => by rw [List.nil_append, List.nil_append, names])
      (fun t ht => by rw [List.nil_append, basename_of_not_mem ht]) (by simpa using Ne.symm hc)
    have hnames : names (c :: s) = namesFrom [c] s := by
      rw [names, namesFrom, if_neg hc, List.nil_append]
    rw [hnames]
    simpa using hclimb

namespace FileUtil

variable {refused : Path → Bool} {d : Disk} {q : Path} {x : String} {xs : List String}
  {p : List Char} {ps : List (List Char)}

/-- Something that is no directory is at a path behind `q`. -/
def Blocked (t : FileTree) (q : Path) (xs : List String) : Prop :=
  ∃ ys, ys <+: xs ∧ t.lexists maxLinks (q ++ ys) = true ∧ ¬t.NamesDir maxLinks (q ++ ys)

theorem append_cons (q : Path) (x : String) (xs : List String) : q ++ x :: xs = q ++ [x] ++ xs := by
  simp

theorem blocked_cons (h : Blocked d.tree (q ++ [x]) xs) : Blocked d.tree q (x :: xs) := by
  obtain ⟨ys, hpre, hys⟩ := h
  refine ⟨x :: ys, List.cons_prefix_cons.mpr ⟨rfl, hpre⟩, ?_⟩
  rwa [List.append_assoc, List.singleton_append] at hys

/-! #### One directory -/

theorem access_of_namesDir (h : d.tree.NamesDir maxLinks (names p)) : access p d = true := by
  have haccess : d.access (names p) = true := by
    obtain ⟨r, hr, n, hn, -⟩ := h
    simp [Disk.access, hr, hn]
  simp [access, h, haccess]

theorem lexists_of_access (h : d.access q = true) : d.tree.lexists maxLinks q = true := by
  obtain ⟨r, hr, hnode⟩ := (Option.any_eq_true _ _).mp h
  exact FileTree.lexists_of_resolve hr (Option.isSome_iff_ne_none.mp hnode)

theorem mkdir'_namesDir (h : d.tree.NamesDir maxLinks (names p)) :
    mkdir' refused p d = (true, d) := if_pos (access_of_namesDir h)

theorem mkdir'_grown (refused : Path → Bool) (p : List Char) (d : Disk) :
    d.Grown (mkdir' refused p d).2 ∧ d.tree.MoreDirs (mkdir' refused p d).2.tree := by
  rw [mkdir']
  split
  case isTrue => exact ⟨.refl d, .refl _⟩
  case isFalse =>
    split
    case isTrue => exact ⟨.refl d, .refl _⟩
    case isFalse => exact Disk.mkdir_grown refused (names p) 0o775 d

/-- What is there already is no new directory. -/
theorem mkdir'_lexists (h : d.tree.lexists maxLinks (names p) = true) :
    mkdir' refused p d = (access p d, d) := by
  rw [mkdir']
  split
  case isTrue haccess => rw [haccess]
  case isFalse haccess =>
    rw [Bool.eq_false_iff.mpr haccess]
    split
    case isTrue => rfl
    case isFalse =>
      rcases hmkdir : Disk.mkdir refused (names p) 0o775 d with ⟨ok, d'⟩
      rcases Disk.mkdir_cases hmkdir with ⟨rfl, rfl⟩ | ⟨-, r, hr, hmade⟩
      · rfl
      · rw [FileTree.lexists, hr, Option.any_some, hmade.free] at h
        cases h

/-- A text that does not ask for a directory. -/
theorem mkdir'_plain (hasks : asksDir p = false) : mkdir' refused p d =
    if d.access (names p) then (true, d) else Disk.mkdir refused (names p) 0o775 d := by
  have hdot : basename p ≠ ['.'] := fun h => by
    rw [asksDir, h] at hasks
    cases hasks
  rw [mkdir', access, hasks, if_neg Bool.false_ne_true, if_neg hdot]

/-- A directory is made in another one. -/
theorem mkdir'_below (hname : names p = q ++ [x]) (hasks : asksDir p = false)
    (h : ¬d.tree.NamesDir maxLinks q) : mkdir' refused p d = (false, d) := by
  have hwalk : (d.tree.walk maxLinks (q ++ [x])).1 = none := by
    rw [FileTree.walk_concat]
    cases hr : d.tree.resolve maxLinks q with
    | none => rfl
    | some r => exact if_neg fun hdir => h ⟨r, hr, hdir⟩
  have haccess : ¬d.access (q ++ [x]) = true := by
    intro haccess
    have hlexists := lexists_of_access haccess
    rw [FileTree.lexists, hwalk] at hlexists
    cases hlexists
  rw [mkdir'_plain hasks, hname, if_neg haccess, Disk.mkdir, hwalk, Option.filter_none]

/-! #### All of them -/

theorem mkdirs_cons (refused : Path → Bool) (p : List Char) (ps : List (List Char)) (d : Disk) :
    mkdirs refused (p :: ps) d =
      if (mkdir' refused p d).1 then mkdirs refused ps (mkdir' refused p d).2
      else (false, (mkdir' refused p d).2) := rfl

theorem mkdirs_grown (refused : Path → Bool) (ps : List (List Char)) (d : Disk) :
    d.Grown (mkdirs refused ps d).2 ∧ d.tree.MoreDirs (mkdirs refused ps d).2.tree := by
  induction ps generalizing d with
  | nil => exact ⟨.refl d, .refl _⟩
  | cons p ps ih =>
      have hfirst := mkdir'_grown refused p d
      rw [mkdirs_cons]
      split
      case isTrue => exact ⟨hfirst.1.trans (ih _).1, hfirst.2.trans (ih _).2⟩
      case isFalse => exact hfirst

theorem mkdirs_cons_namesDir (h : d.tree.NamesDir maxLinks (names p)) (ps : List (List Char)) :
    mkdirs refused (p :: ps) d = mkdirs refused ps d := by
  rw [mkdirs, mkdir'_namesDir h]
  rfl

/-- Nothing is in the way. A directory that was made has nothing in it. -/
theorem mkdirs_free (h : Climbs q xs ps) (hq : d.tree.NamesDir maxLinks q)
    (hxs : ∀ x ∈ xs, x ≠ "." ∧ x ≠ "..") (hfree : ¬Blocked d.tree q xs) :
    ∃ d', mkdirs (fun _ => false) ps d = (true, d') ∧ d'.tree.NamesDir maxLinks (q ++ xs) ∧
      (d' = d ∨ ∀ y, d'.tree.lexists maxLinks (q ++ xs ++ [y]) = false) := by
  induction h generalizing d with
  | nil => exact ⟨d, rfl, by rwa [List.append_nil], .inl rfl⟩
  | stay hname _ _ ih =>
      rw [mkdirs_cons_namesDir (hname ▸ hq)]
      exact ih hq hxs hfree
  | @step q x xs p ps hname hasks _ ih =>
      have hxs' : ∀ x ∈ xs, x ≠ "." ∧ x ≠ ".." := fun y hy => hxs y (List.mem_cons_of_mem _ hy)
      rw [append_cons q x xs]
      cases hlexists : d.tree.lexists maxLinks (q ++ [x]) with
      | true =>
          have hdir : d.tree.NamesDir maxLinks (q ++ [x]) := by
            by_contra hnot
            exact hfree (blocked_cons ⟨[], List.nil_prefix, by simpa using ⟨hlexists, hnot⟩⟩)
          rw [mkdirs_cons_namesDir (hname ▸ hdir)]
          exact ih hdir hxs' fun hblocked => hfree (blocked_cons hblocked)
      | false =>
          -- the directory is made, and nothing is in the way in a new directory
          obtain ⟨d₁, hmkdir, hdir, hempty⟩ :=
            Disk.mkdir_free hq (hxs x List.mem_cons_self) hlexists 0o775
          have haccess : ¬d.access (q ++ [x]) = true := fun haccess => by
            rw [lexists_of_access haccess] at hlexists
            cases hlexists
          have hfirst : mkdir' (fun _ => false) p d = (true, d₁) := by
            rw [mkdir'_plain hasks, hname, if_neg haccess, hmkdir]
          have hnothing : ∀ ys, ys ≠ [] → ¬d₁.tree.lexists maxLinks (q ++ [x] ++ ys) = true := by
            intro ys hne hys
            obtain ⟨y, ys, rfl⟩ := List.exists_cons_of_ne_nil hne
            rw [append_cons (q ++ [x]) y ys] at hys
            refine Bool.eq_false_iff.mp (hempty y) ?_
            by_cases hnil : ys = []
            · simpa [hnil] using hys
            · exact (FileTree.namesDir_of_lexists hnil hys).lexists
          rw [mkdirs_cons, hfirst]
          obtain ⟨d', hmkdirs, hdir', hsame⟩ := ih hdir hxs' (by
            rintro ⟨ys, -, hys, hnot⟩
            by_cases hnil : ys = []
            · exact hnot (by simpa [hnil] using hdir)
            · exact hnothing ys hnil hys)
          refine ⟨d', hmkdirs, hdir', .inr fun y => ?_⟩
          rcases hsame with rfl | hempty'
          · exact Bool.eq_false_iff.mpr fun hy => hnothing (xs ++ [y]) (by simp) (by simpa using hy)
          · exact hempty' y

/-- The next path goes on below what is no directory, or asks it to be one. -/
theorem mkdirs_stuck (h : Climbs q xs ps) (hps : ps ≠ [])
    (hq : d.tree.lexists maxLinks q = true) (hdir : ¬d.tree.NamesDir maxLinks q) :
    (mkdirs refused ps d).1 = false := by
  cases h with
  | nil => exact absurd rfl hps
  | stay hname hasks =>
      rw [← hname] at hq hdir
      rw [mkdirs_cons, mkdir'_lexists hq]
      simp [access, hasks, hdir]
  | step hname hasks => rw [mkdirs, mkdir'_below hname hasks hdir]; rfl

/-- Something is in the way, and the last of the paths is not there, or asks for a directory. -/
theorem mkdirs_blocked (refused : Path → Bool) (h : Climbs q xs ps)
    (hq : d.tree.NamesDir maxLinks q) (hblocked : Blocked d.tree q xs)
    (hnot : d.tree.lexists maxLinks (q ++ xs) = false ∨ ∃ p, ps.getLast? = some p ∧ asksDir p) :
    (mkdirs refused ps d).1 = false := by
  induction h with
  | nil =>
      obtain ⟨ys, hpre, -, hdir⟩ := hblocked
      obtain rfl := List.prefix_nil.mp hpre
      exact absurd (by simpa using hq) hdir
  | @stay q xs p ps hname hasks h ih =>
      rw [mkdirs_cons_namesDir (hname ▸ hq)]
      cases ps with
      | nil =>
          cases h
          obtain ⟨ys, hpre, -, hdir⟩ := hblocked
          obtain rfl := List.prefix_nil.mp hpre
          exact absurd (by simpa using hq) hdir
      | cons p' ps => exact ih hq hblocked (by simpa using hnot)
  | @step q x xs p ps hname hasks h ih =>
      rw [append_cons q x xs] at hnot
      have hend : ps = [] → d.tree.lexists maxLinks (q ++ [x]) = false := by
        rintro rfl
        cases h
        simpa [hasks] using hnot
      -- what is in the way is at this name or behind it, not at `q`
      obtain ⟨ys, hpre, hys, hdir⟩ := hblocked
      rcases List.prefix_cons_iff.mp hpre with rfl | ⟨ys, rfl, hpre'⟩
      · exact absurd (by simpa using hq) hdir
      rw [append_cons q x ys] at hys hdir
      have hlexists : d.tree.lexists maxLinks (q ++ [x]) = true := by
        by_cases hnil : ys = []
        · simpa [hnil] using hys
        · exact (FileTree.namesDir_of_lexists hnil hys).lexists
      -- something is there, so it was not the end of the path that is missing
      have hps : ps ≠ [] := fun hnil => by
        rw [hend hnil] at hlexists
        cases hlexists
      by_cases hfirst : d.tree.NamesDir maxLinks (q ++ [x])
      · rw [mkdirs_cons_namesDir (hname ▸ hfirst)]
        obtain ⟨p', ps, rfl⟩ := List.exists_cons_of_ne_nil hps
        exact ih hfirst ⟨ys, hpre', hys, hdir⟩ (by simpa using hnot)
      · rw [mkdirs_cons, mkdir'_lexists (hname ▸ hlexists)]
        split
        case isTrue => exact mkdirs_stuck h hps hlexists hfirst
        case isFalse => rfl

/-- The path is there, as a directory if it asks for one. -/
def There (t : FileTree) (dirname : List Char) : Prop :=
  if asksDir dirname then t.NamesDir maxLinks (names dirname)
  else t.lexists maxLinks (names dirname) = true

theorem There.lexists {t : FileTree} {dirname : List Char} (h : There t dirname) :
    t.lexists maxLinks (names dirname) = true := by
  rw [There] at h
  split at h
  case isTrue => exact FileTree.NamesDir.lexists h
  case isFalse => exact h

theorem there_of_namesDir {t : FileTree} {dirname : List Char}
    (h : t.NamesDir maxLinks (names dirname)) : There t dirname := by
  rw [There]
  split
  case isTrue => exact h
  case isFalse => exact h.lexists

theorem lstat'_iff (dirname : List Char) (d : Disk) :
    lstat' dirname d = true ↔ There d.tree dirname := by
  rw [lstat', There]
  split
  case isTrue => exact decide_eq_true_iff
  case isFalse => exact Iff.rfl

/-- **`Mkdir`** returns true if and only if the path is there, or nothing that is no directory is on
the way to it. It makes directories and changes nothing else. -/
structure MakesPath (dirname : List Char) (d : Disk) (ret : Bool) (d' : Disk) : Prop where
  ret_iff : ret = true ↔ There d.tree dirname ∨ ¬Blocked d.tree [] (names dirname)
  made : ret = true → ¬There d.tree dirname → d'.tree.NamesDir maxLinks (names dirname) ∧
    ∀ y, d'.tree.lexists maxLinks (names dirname ++ [y]) = false
  moreDirs : d.tree.MoreDirs d'.tree
  grown : d.Grown d'

theorem namesDir_nil (t : FileTree) : t.NamesDir maxLinks [] := ⟨[], rfl, t.isDir_nil⟩

theorem mkdir_makesPath (dirname : List Char) (d : Disk) (hne : dirname ≠ [])
    (hup : ∀ x ∈ names dirname, x ≠ "." ∧ x ≠ "..") :
    MakesPath dirname d (mkdir (fun _ => false) dirname d).1
      (mkdir (fun _ => false) dirname d).2 := by
  rw [mkdir]
  split
  case isTrue hthere =>
    have hthere := (lstat'_iff dirname d).mp hthere
    exact ⟨iff_of_true rfl (.inl hthere), fun _ hnot => absurd hthere hnot, .refl _, .refl d⟩
  case isFalse hnot =>
    rw [lstat'_iff] at hnot
    have hclimbs := climbs_dirname hne
    obtain ⟨hgrown, hmore⟩ := mkdirs_grown (fun _ => false)
      (cuts (dirname.take 1) (dirname.drop 1) ++ [dirname]) d
    by_cases hblocked : Blocked d.tree [] (names dirname)
    · have hend : d.tree.lexists maxLinks ([] ++ names dirname) = false ∨
          ∃ p, (cuts (dirname.take 1) (dirname.drop 1) ++ [dirname]).getLast? = some p ∧
            asksDir p := by
        cases hasks : asksDir dirname with
        | true => exact .inr ⟨dirname, by simp, hasks⟩
        | false => exact .inl (by simpa [There, hasks] using hnot)
      have hret := Bool.eq_false_iff.mp
        (mkdirs_blocked (fun _ => false) hclimbs (namesDir_nil _) hblocked hend)
      exact ⟨iff_of_false hret (by simp [hnot, hblocked]), fun htrue => absurd htrue hret, hmore,
        hgrown⟩
    · obtain ⟨d', hmkdirs, hdir, hsame⟩ := mkdirs_free hclimbs (namesDir_nil _) hup hblocked
      rw [hmkdirs] at hmore hgrown ⊢
      refine ⟨iff_of_true rfl (.inr hblocked), fun _ _ => ⟨hdir, ?_⟩, hmore, hgrown⟩
      refine hsame.resolve_left ?_
      rintro rfl
      exact hnot (there_of_namesDir hdir)

/-- A directory with a link to another one. -/
def linkedDisk : Disk where
  tree := ⟨[⟨[], "srv", ⟨.dir, 0o755⟩⟩, ⟨[], "var", ⟨.lnk ["srv"], 0o777⟩⟩], by decide, by decide,
    by decide⟩
  ino p := if p = ["srv"] then 1 else 0
  data _ := []
  next := 2
  used p _ := by
    split <;> decide

/-- A regular file. -/
def filedDisk : Disk where
  tree := ⟨[⟨[], "srv", ⟨.reg, 0o644⟩⟩], by decide, by decide, by decide⟩
  ino _ := 1
  data _ := []
  next := 2
  used _ _ := by decide

/-- The path goes through the link. -/
theorem mkdir_makesPath_linked :
    MakesPath "/var/log//easy".toList linkedDisk
      (mkdir (fun _ => false) "/var/log//easy".toList linkedDisk).1
      (mkdir (fun _ => false) "/var/log//easy".toList linkedDisk).2 :=
  mkdir_makesPath "/var/log//easy".toList linkedDisk (by decide) (by decide)

example : (mkdir (fun _ => false) "/var/log//easy".toList linkedDisk).1 = true ∧
    (mkdir (fun _ => false) "/var/log//easy".toList linkedDisk).2.tree.dirents.map Dirent.path =
      [["srv"], ["var"], ["srv", "log"], ["srv", "log", "easy"]] := by
  decide

/-- A file is there, but not as a directory. -/
example : (mkdir (fun _ => false) "srv".toList filedDisk,
    mkdir (fun _ => false) "srv/".toList filedDisk).map Prod.fst Prod.fst = (true, false) := by
  decide

end FileUtil

/-! ### Opening a file -/

section Open

variable {refused : Path → Bool} {filename : List Char} {ofs ofs' : OfStream} {d d' : Disk}

/-- A stream that was closed has the file of a name, or has failed. -/
structure Opens (filename : List Char) (ofs' : OfStream) (d d' : Disk) : Prop where
  grown : d.Grown d'
  opened : ofs' = ⟨none, true⟩ ∨
    ∃ i, ofs' = ⟨some i, false⟩ ∧ d'.file (names filename) = some i ∧ i < d'.next

theorem opens_open (hclosed : ofs.isOpen = false) (h : ofs.open' refused filename d = (ofs', d')) :
    Opens filename ofs' d d' := by
  rw [OfStream.open', hclosed, if_neg Bool.false_ne_true] at h
  split at h
  case isTrue =>
    obtain ⟨rfl, rfl⟩ := Prod.mk.inj h
    exact ⟨.refl d, .inl rfl⟩
  case isFalse =>
    have hgrown := Disk.openAppend_grown refused (names filename) d
    split at h
    case h_1 i d₁ hopen =>
      obtain ⟨rfl, rfl⟩ := Prod.mk.inj h
      obtain ⟨hfile, hlt, hgrown⟩ := Disk.openAppend_file hopen
      exact ⟨hgrown, .inr ⟨i, rfl, hfile, hlt⟩⟩
    case h_2 d₁ hopen =>
      obtain ⟨rfl, rfl⟩ := Prod.mk.inj h
      rw [hopen] at hgrown
      exact ⟨hgrown, .inl rfl⟩

theorem open_fails (hclosed : ofs.isOpen = false)
    (h : ofs.open' refused filename d = (ofs', d')) (hfails : ofs'.isOpen = false) : d' = d := by
  rw [OfStream.open', hclosed, if_neg Bool.false_ne_true] at h
  split at h
  case isTrue => exact (Prod.mk.inj h).2.symm
  case isFalse =>
    split at h
    case h_1 i d₁ hopen =>
      obtain ⟨rfl, rfl⟩ := Prod.mk.inj h
      cases hfails
    case h_2 d₁ hopen =>
      obtain ⟨rfl, rfl⟩ := Prod.mk.inj h
      rcases Disk.openAppend_cases hopen with ⟨-, rfl⟩ | ⟨-, rfl⟩ | ⟨hsome, -⟩
      · rfl
      · rfl
      · cases hsome

/-- **`OpenForWrite`** of a stream that is closed. -/
theorem opens_openForWrite (hclosed : ofs.isOpen = false)
    (h : FileUtil.openForWrite refused filename ofs d = (ofs', d')) : Opens filename ofs' d d' := by
  rw [FileUtil.openForWrite] at h
  rcases hopen : ofs.open' refused filename d with ⟨ofs₁, d₁⟩
  rw [hopen] at h
  have hfirst := opens_open hclosed hopen
  cases hok : ofs₁.isOpen with
  | true =>
      simp only [hok, Bool.not_true, Bool.false_eq_true, if_false] at h
      obtain ⟨rfl, rfl⟩ := Prod.mk.inj h
      exact hfirst
  | false =>
      simp only [hok, Bool.not_false, if_true] at h
      have hsecond := opens_open hok h
      refine ⟨hfirst.grown.trans (.trans ?_ hsecond.grown), hsecond.opened⟩
      rw [FileUtil.mkdir]
      split
      case isTrue => exact .refl d₁
      case isFalse => exact (FileUtil.mkdirs_grown refused _ d₁).1

/-- A stream that has a file open fails, and keeps it. -/
theorem openForWrite_isOpen (hopen : ofs.isOpen = true) :
    FileUtil.openForWrite refused filename ofs d = ({ ofs with fail := true }, d) := by
  have hkept : OfStream.isOpen { ofs with fail := true } = true := hopen
  simp only [FileUtil.openForWrite, OfStream.open', hopen, hkept, if_true, Bool.not_true,
    Bool.false_eq_true, if_false]

/-- **A file is opened** where nothing is in the way of its directory, and what has its name is a
regular file, if anything has. -/
theorem openForWrite_opens {x : String} (hclosed : ofs.isOpen = false)
    (hbase : names (FileUtil.basename filename) = [x])
    (hup : ∀ y ∈ names filename, y ≠ "." ∧ y ≠ "..")
    (hdir : ¬FileUtil.Blocked d.tree [] (names (FileUtil.dirname filename)))
    (hfile : d.tree.lexists maxLinks (names filename) = true → d.file (names filename) ≠ none) :
    (FileUtil.openForWrite (fun _ => false) filename ofs d).1.isOpen = true := by
  have hnames : names (FileUtil.dirname filename) ++ [x] = names filename :=
    hbase ▸ (names_dirname_basename filename).1
  rw [← hnames] at hup hfile
  have hx := hup x (by simp)
  have hopened : ∀ d₁ : Disk, d₁.tree.NamesDir maxLinks (names (FileUtil.dirname filename)) →
      (d₁.tree.lexists maxLinks (names (FileUtil.dirname filename) ++ [x]) = true →
        d₁.file (names (FileUtil.dirname filename) ++ [x]) ≠ none) →
      ∀ ofs₁ : OfStream, ofs₁.isOpen = false →
        (ofs₁.open' (fun _ => false) filename d₁).1.isOpen = true := by
    intro d₁ hdir₁ hfile₁ ofs₁ hclosed₁
    obtain ⟨i, d', hopen⟩ := Disk.exists_openAppend hdir₁ hx hfile₁
    rw [OfStream.open', hclosed₁, if_neg Bool.false_ne_true, hbase, if_neg (by simp), ← hnames,
      hopen]
    rfl
  rw [FileUtil.openForWrite]
  rcases hfirst : ofs.open' (fun _ => false) filename d with ⟨ofs₁, d₁⟩
  cases hok : ofs₁.isOpen with
  | true => simp [hok]
  | false =>
      obtain rfl := open_fails hclosed hfirst hok
      simp only [hok, Bool.not_false, if_true]
      -- in a directory the first `open` would have gone well
      have hmissing : ¬d₁.tree.NamesDir maxLinks (names (FileUtil.dirname filename)) := by
        intro hthere
        have htrue := hopened d₁ hthere hfile ofs hclosed
        rw [hfirst, hok] at htrue
        cases htrue
      have hnone : ¬FileUtil.There d₁.tree (FileUtil.dirname filename) := fun hthere =>
        hdir ⟨_, List.prefix_rfl, hthere.lexists, hmissing⟩
      have hmkdir := FileUtil.mkdir_makesPath (FileUtil.dirname filename) d₁
        (FileUtil.dirname_ne_nil filename) fun y hy => hup y (List.mem_append_left _ hy)
      obtain ⟨hmade, hempty⟩ := hmkdir.made (hmkdir.ret_iff.mpr (.inr hdir)) hnone
      refine hopened _ hmade (fun hx => ?_) ofs₁ hok
      rw [hempty x] at hx
      cases hx

end Open

end Easy.Base
