import Easy.Lib.FileTree

/-!
`Rm` and `Unlink` of `easy/base/FileUtil.cc`.

`Rm` takes what has the bit `S_IFDIR` in its mode for a directory, which sockets have, too. It
does not get a socket open, and neither the socket nor a directory above it is removed. The
result for a directory is that for its last entry, unless `rmdir` fails; it fails where anything
is left, so that no failure in front of the last entry is lost.
-/

namespace Easy.Base

open Lib Lib.Posix

namespace FileUtil

variable {refused : Path → Bool} {path : Path} {s s' : Files} {n : FileNode} {fuel : ℕ}

/-- `Unlink` -/
def unlink (refused : Path → Bool) (filename : Path) (exist : Bool) (s : Files) : Bool × Files :=
  if !exist then
    match s.lstat filename with
    | (none, s) => (true, s)
    | (some _, s) => s.unlink refused filename
  else s.unlink refused filename

/-- The loop of `Rm` over the entries of a directory; `ret` is the last result. -/
def rmLoop (rm : Path → Files → Option (Bool × Files)) (path : Path) :
    List String → Bool → Files → Option (Bool × Files)
  | [], ret, s => some (ret, s)
  | d_name :: names, ret, s =>
    if d_name = "." ∨ d_name = ".." then rmLoop rm path names ret s
    else
      match rm (path ++ [d_name]) s with
      | none => none
      | some (ret, s) => rmLoop rm path names ret s

/-- `Rm`. It is `none` where the depth of the recursion is more than the fuel. -/
def rm (refused : Path → Bool) : ℕ → Path → Files → Option (Bool × Files)
  | 0, _, _ => none
  | fuel + 1, path, s =>
    match s.lstat path with
    | (none, s) => some (true, s)
    | (some stMode, s) =>
      if stMode &&& S_IFDIR = 0 then some (unlink refused path false s)
      else
        match s.opendir path with
        | (none, s) => some (false, s)
        | (some names, s) =>
          match rmLoop (rm refused fuel) path names true s with
          | none => none
          | some (ret, s) =>
            let (gone, s) := s.rmdir refused path
            some (if !gone then false else ret, s)

/-! ### What `Rm` does at a path -/

/-- The calls are made on the path and below it, and true is returned if and only if the path is
gone. It is if there is no socket and nothing fails. -/
structure Removes (refused : Path → Bool) (path : Path) (s : Files) (ret : Bool) (s' : Files) :
    Prop where
  leads : Leads (path <+: ·) (·.type = .sock) s s'
  ret_iff : ret = true ↔ s'.tree.node path = none
  all : (∀ q m, path <+: q → s.tree.node q = some m → m.type ≠ .sock ∧ refused q = false) →
    ret = true

/-- The fuel is enough for what is below the path. -/
def Deep (t : FileTree) (path : Path) (fuel : ℕ) : Prop :=
  ∀ q m, path <+: q → t.node q = some m → q.length < path.length + fuel

theorem removes_unlink (refused : Path → Bool) (hnode : s.tree.node path = some n)
    (hpath : path ≠ []) (hdir : n.type ≠ .dir) (hsock : n.type ≠ .sock) :
    Removes refused path s (s.unlink refused path).1 (s.unlink refused path).2 := by
  have hleaf : ¬s.tree.IsDir path := by
    rintro ⟨m, hm, htype⟩
    obtain rfl := Option.some.inj (hnode.symm.trans hm)
    exact hdir htype
  obtain ⟨hleads, hret⟩ := Leads.removeIf (K := (·.type = .sock)) .unlink
    (fun t p => (t.node p).any (·.type ≠ .dir) && !refused p) hnode hpath hsock
    fun _ q m hpre hq => FileTree.eq_of_not_isDir hleaf hq hpre
  refine ⟨hleads.mono fun q hq => hq ▸ List.prefix_rfl, hret, fun hall => ?_⟩
  have hok := (hall path n List.prefix_rfl hnode).2
  rw [Files.unlink, Files.removeIf_eq _ _ hnode]
  simp [hnode, hdir, hok]

/-- `rmdir` removes the directory if and only if there is nothing in it and it is not refused. -/
theorem rmdir_leads (refused : Path → Bool) (hnode : s.tree.node path = some n)
    (hpath : path ≠ []) (hdir : n.type = .dir) :
    Leads (· = path) (·.type = .sock) s (s.rmdir refused path).2 ∧
      ((s.rmdir refused path).1 = true ↔ (s.rmdir refused path).2.tree.node path = none) ∧
      ((s.rmdir refused path).1 = true ↔ s.tree.entries path = [] ∧ refused path = false) := by
  have hsock : n.type ≠ .sock := by
    rw [hdir]
    exact nofun
  obtain ⟨hleads, hret⟩ := Leads.removeIf (K := (·.type = .sock)) .rmdir
    (fun t p => p ≠ [] && (t.node p).any (·.type = .dir) && (t.entries p).isEmpty && !refused p)
    hnode hpath hsock fun hmay q m hpre hq => by
      simp only [Bool.and_eq_true, List.isEmpty_iff] at hmay
      exact FileTree.eq_of_entries_nil hmay.1.2 hq hpre
  refine ⟨hleads, hret, ?_⟩
  rw [Files.rmdir, Files.removeIf_eq _ _ hnode]
  split
  case isTrue hmay => simpa [hnode, hpath, hdir] using hmay
  case isFalse hmay => simpa [hnode, hpath, hdir] using hmay

/-- Paths below different entries are different. -/
theorem not_below_both {name name' : String} (hne : name ≠ name') {q : Path}
    (h : path ++ [name] <+: q) : ¬path ++ [name'] <+: q := by
  intro h'
  have heq := (List.prefix_of_prefix_length_le h h' (by simp)).eq_of_length (by simp)
  exact hne (List.cons.inj (List.append_cancel_left heq)).1

theorem below_entry {name : String} {q : Path} (h : path ++ [name] <+: q) :
    path <+: q ∧ q ≠ path := by
  refine ⟨(List.prefix_append path [name]).trans h, ?_⟩
  rintro rfl
  exact absurd h.length_le (by simp)

/-- **The loop** removes the entries one after the other. If it has removed all of them, the last
result is true. -/
theorem rmLoop_removes (hrm : ∀ path s n, s.tree.node path = some n → path ≠ [] →
      Deep s.tree path fuel → ∃ ret s', rm refused fuel path s = some (ret, s') ∧
        Removes refused path s ret s')
    {names : List String} (hnames : ∀ name ∈ names, name ≠ "." ∧ name ≠ "..")
    (hnodup : names.Nodup) (hnodes : ∀ name ∈ names, ∃ n, s.tree.node (path ++ [name]) = some n)
    (hdeep : ∀ name ∈ names, Deep s.tree (path ++ [name]) fuel) (ret : Bool) :
    ∃ ret' s', rmLoop (rm refused fuel) path names ret s = some (ret', s') ∧
      Leads (fun q => ∃ name ∈ names, path ++ [name] <+: q) (·.type = .sock) s s' ∧
      ((∀ name ∈ names, s'.tree.node (path ++ [name]) = none) → ret = true → ret' = true) ∧
      ((∀ name ∈ names, ∀ q m, path ++ [name] <+: q → s.tree.node q = some m →
        m.type ≠ .sock ∧ refused q = false) →
          ∀ name ∈ names, s'.tree.node (path ++ [name]) = none) := by
  induction names generalizing s ret with
  | nil => exact ⟨ret, s, rfl, .refl s, fun _ hret => hret, fun _ _ hname => by cases hname⟩
  | cons name names ih =>
      obtain ⟨hfresh, hnodup⟩ := List.nodup_cons.mp hnodup
      have hdisjoint : ∀ q, path ++ [name] <+: q → ¬∃ name' ∈ names, path ++ [name'] <+: q := by
        rintro q hq ⟨name', hname', hq'⟩
        exact not_below_both (fun heq : name = name' => hfresh (heq ▸ hname')) hq hq'
      obtain ⟨n, hn⟩ := hnodes name List.mem_cons_self
      obtain ⟨r, s₁, hstep, hleads, hr, hall⟩ := hrm (path ++ [name]) s n hn
        (List.concat_ne_nil name path) (hdeep name List.mem_cons_self)
      -- the other entries are as they were
      have hsame : ∀ name' ∈ names, ∀ q, path ++ [name'] <+: q →
          s₁.tree.node q = s.tree.node q := fun name' hname' q hq =>
        hleads.frame q fun hpre => hdisjoint q hpre ⟨name', hname', hq⟩
      obtain ⟨ret', s', hloop, hleads', htrue, hgone⟩ := ih
        (fun name' hname' => hnames name' (List.mem_cons_of_mem _ hname')) hnodup
        (fun name' hname' => by
          obtain ⟨m, hm⟩ := hnodes name' (List.mem_cons_of_mem _ hname')
          exact ⟨m, (hsame name' hname' _ List.prefix_rfl).trans hm⟩)
        (fun name' hname' q m hpre hq => hdeep name' (List.mem_cons_of_mem _ hname') q m hpre
          (hleads.of_eq_some hq)) r
      have hfirst : s'.tree.node (path ++ [name]) = s₁.tree.node (path ++ [name]) :=
        hleads'.frame _ fun hbelow => hdisjoint _ List.prefix_rfl hbelow
      obtain ⟨hdot, hdotdot⟩ := hnames name List.mem_cons_self
      refine ⟨ret', s', ?_, ?_, fun hnone _ => ?_, fun hgood name' hname' => ?_⟩
      · rw [rmLoop, if_neg (not_or.mpr ⟨hdot, hdotdot⟩), hstep]
        exact hloop
      · refine (hleads.trans hleads' hdisjoint).mono fun q hq => ?_
        rcases hq with hq | ⟨name', hname', hq⟩
        · exact ⟨name, List.mem_cons_self, hq⟩
        · exact ⟨name', List.mem_cons_of_mem _ hname', hq⟩
      · refine htrue (fun name' hname' => hnone name' (List.mem_cons_of_mem _ hname')) ?_
        exact hr.mpr (hfirst.symm.trans (hnone name List.mem_cons_self))
      · rcases List.mem_cons.mp hname' with rfl | hname'
        · exact hfirst.trans (hr.mp (hall (hgood name' List.mem_cons_self)))
        · refine hgone (fun name'' hname'' q m hpre hq => ?_) name' hname'
          exact hgood name'' (List.mem_cons_of_mem _ hname'') q m hpre (hleads.of_eq_some hq)

/-! ### The cases of `Rm` -/

/-- A file that is no directory and no socket is unlinked behind a second `lstat`. -/
theorem rm_file (hnode : s.tree.node path = some n) (hdir : n.type ≠ .dir)
    (hsock : n.type ≠ .sock) :
    rm refused (fuel + 1) path s = some (((s.record ⟨.lstat, path, [], true⟩).record
      ⟨.lstat, path, [], true⟩).unlink refused path) := by
  have hbit : n.stMode &&& S_IFDIR = 0 := (stMode_and_S_IFDIR n).mpr ⟨hdir, hsock⟩
  have hagain : (s.record ⟨.lstat, path, [], true⟩).lstat path =
      (some n.stMode, (s.record ⟨.lstat, path, [], true⟩).record ⟨.lstat, path, [], true⟩) :=
    Files.lstat_eq hnode
  rw [rm, Files.lstat_eq hnode]
  simp only [hbit, if_true, unlink, Bool.not_false, hagain]

/-- `opendir` fails for a socket. -/
theorem rm_sock (hnode : s.tree.node path = some n) (hsock : n.type = .sock) :
    rm refused (fuel + 1) path s = some (false, (s.record ⟨.lstat, path, [], true⟩).record
      ⟨.opendir, path, [], false⟩) := by
  have hbit : n.stMode &&& S_IFDIR ≠ 0 := fun h => ((stMode_and_S_IFDIR n).mp h).2 hsock
  have hopendir : (s.record ⟨.lstat, path, [], true⟩).opendir path =
      (none, (s.record ⟨.lstat, path, [], true⟩).record ⟨.opendir, path, [], false⟩) :=
    Files.opendir_other hnode (by simp [hsock]) (by simp [hsock])
  rw [rm, Files.lstat_eq hnode]
  simp only [hbit, if_false, hopendir]

/-- A directory is gone through and then removed. -/
theorem rm_dir (hnode : s.tree.node path = some n) (hdir : n.type = .dir) :
    rm refused (fuel + 1) path s =
      (rmLoop (rm refused fuel) path (s.tree.entries path) true
        ((s.record ⟨.lstat, path, [], true⟩).record ⟨.opendir, path, [], true⟩)).map fun r =>
          (if !(r.2.rmdir refused path).1 then false else r.1, (r.2.rmdir refused path).2) := by
  have hbit : n.stMode &&& S_IFDIR ≠ 0 := fun h => ((stMode_and_S_IFDIR n).mp h).1 hdir
  have hopendir : (s.record ⟨.lstat, path, [], true⟩).opendir path =
      (some ("." :: ".." :: s.tree.entries path),
        (s.record ⟨.lstat, path, [], true⟩).record ⟨.opendir, path, [], true⟩) :=
    Files.opendir_eq ⟨n, hnode, hdir⟩
  rw [rm, Files.lstat_eq hnode]
  simp only [hbit, if_false, hopendir]
  rw [rmLoop, if_pos (.inl rfl), rmLoop, if_pos (.inr rfl)]
  cases rmLoop (rm refused fuel) path (s.tree.entries path) true
    ((s.record ⟨.lstat, path, [], true⟩).record ⟨.opendir, path, [], true⟩) <;> rfl

theorem rm_dir_removes (ih : ∀ path s n, s.tree.node path = some n → path ≠ [] →
      Deep s.tree path fuel → ∃ ret s', rm refused fuel path s = some (ret, s') ∧
        Removes refused path s ret s')
    (hnode : s.tree.node path = some n) (hpath : path ≠ []) (hdir : n.type = .dir)
    (hdeep : Deep s.tree path (fuel + 1)) :
    ∃ ret s', rm refused (fuel + 1) path s = some (ret, s') ∧ Removes refused path s ret s' := by
  obtain ⟨ret, s₁, hloop, hleads, htrue, hgone⟩ := rmLoop_removes ih
    (s := (s.record ⟨.lstat, path, [], true⟩).record ⟨.opendir, path, [], true⟩)
    (fun name hname => FileTree.named_entries hname) (s.tree.nodup_entries path)
    (fun name hname => FileTree.mem_entries.mp hname)
    (fun name _ q m hpre hq => by
      have hlt := hdeep q m (below_entry hpre).1 hq
      rw [List.length_append, List.length_singleton]
      omega) true
  have hnode₁ : s₁.tree.node path = some n := by
    refine (hleads.frame path ?_).trans hnode
    rintro ⟨name, -, hpre⟩
    exact (below_entry hpre).2 rfl
  obtain ⟨hleads', hret, hempty⟩ := rmdir_leads refused hnode₁ hpath hdir
  have hentries : s₁.tree.entries path = [] ↔
      ∀ name ∈ s.tree.entries path, s₁.tree.node (path ++ [name]) = none :=
    hleads.entries_eq_nil_iff path
  refine ⟨_, _, by rw [rm_dir hnode hdir, hloop, Option.map_some], ?_, ?_, fun hall => ?_⟩
  · refine .after List.prefix_rfl rfl (FileCall.not_failed_lstat true)
      (.after List.prefix_rfl rfl (FileCall.not_failed_opendir true) ?_)
    refine (hleads.trans hleads' fun q ⟨name, _, hpre⟩ => (below_entry hpre).2).mono ?_
    rintro q (⟨name, -, hpre⟩ | rfl)
    · exact (below_entry hpre).1
    · exact List.prefix_rfl
  · rw [← hret]
    cases hok : (s₁.rmdir refused path).1 with
    | false => exact Iff.rfl
    | true => exact iff_of_true (htrue (hentries.mp (hempty.mp hok).1) rfl) rfl
  · have hnone := hgone fun name _ q m hpre hq => hall q m (below_entry hpre).1 hq
    have hok : (s₁.rmdir refused path).1 = true :=
      hempty.mpr ⟨hentries.mpr hnone, (hall path n List.prefix_rfl hnode).2⟩
    simpa [hok] using htrue hnone rfl

/-- **`Rm`**, with enough fuel. -/
theorem rm_removes (refused : Path → Bool) (fuel : ℕ) : ∀ path s n,
    s.tree.node path = some n → path ≠ [] → Deep s.tree path fuel → ∃ ret s',
      rm refused fuel path s = some (ret, s') ∧ Removes refused path s ret s' := by
  induction fuel with
  | zero =>
      intro path s n hnode _ hdeep
      exact absurd (hdeep path n List.prefix_rfl hnode) (Nat.lt_irrefl _)
  | succ fuel ih =>
      intro path s n hnode hpath hdeep
      by_cases hdir : n.type = .dir
      case neg =>
        by_cases hsock : n.type = .sock
        · have hkept : s.tree.node path ≠ none := by simp [hnode]
          refine ⟨_, _, rm_sock hnode hsock, ?_, iff_of_false Bool.false_ne_true hkept, ?_⟩
          · exact .after List.prefix_rfl rfl (FileCall.not_failed_lstat true)
              (.after List.prefix_rfl rfl (FileCall.not_failed_opendir false) (.refl _))
          · exact fun hall => absurd hsock (hall path n List.prefix_rfl hnode).1
        · have hunlink := removes_unlink refused
            (s := (s.record ⟨.lstat, path, [], true⟩).record ⟨.lstat, path, [], true⟩)
            hnode hpath hdir hsock
          refine ⟨_, _, rm_file hnode hdir hsock, ?_, hunlink.ret_iff, hunlink.all⟩
          exact .after List.prefix_rfl rfl (FileCall.not_failed_lstat true)
            (.after List.prefix_rfl rfl (FileCall.not_failed_lstat true) hunlink.leads)
      exact rm_dir_removes ih hnode hpath hdir hdeep

/-! ### Enough fuel -/

theorem rmLoop_mono {rm rm' : Path → Files → Option (Bool × Files)} {r : Bool × Files}
    (h : ∀ p s r, rm p s = some r → rm' p s = some r) {names : List String} {ret : Bool}
    (hr : rmLoop rm path names ret s = some r) : rmLoop rm' path names ret s = some r := by
  induction names generalizing ret s with
  | nil => exact hr
  | cons name names ih =>
      rw [rmLoop] at hr ⊢
      split at hr
      case isTrue hdots =>
        rw [if_pos hdots]
        exact ih hr
      case isFalse hdots =>
        rw [if_neg hdots]
        cases hrm : rm (path ++ [name]) s with
        | none =>
            rw [hrm] at hr
            cases hr
        | some r₁ =>
            rw [hrm] at hr
            rw [h _ _ _ hrm]
            exact ih hr

/-- With more fuel the result is the same. -/
theorem rm_succ {r : Bool × Files} (hr : rm refused fuel path s = some r) :
    rm refused (fuel + 1) path s = some r := by
  induction fuel generalizing path s r with
  | zero => cases hr
  | succ fuel ih =>
      rw [rm] at hr ⊢
      split
      case h_1 hl =>
        rw [hl] at hr
        exact hr
      case h_2 stMode s₁ hl =>
        rw [hl] at hr
        dsimp only at hr
        split
        case isTrue hbit => rwa [if_pos hbit] at hr
        case isFalse hbit =>
          rw [if_neg hbit] at hr
          split
          case h_1 ho =>
            rw [ho] at hr
            exact hr
          case h_2 names s₂ ho =>
            rw [ho] at hr
            dsimp only at hr
            cases hloop : rmLoop (rm refused fuel) path names true s₂ with
            | none =>
                rw [hloop] at hr
                cases hr
            | some r₁ =>
                rw [hloop] at hr
                rw [rmLoop_mono (fun _ _ _ => ih) hloop]
                exact hr

theorem rm_mono {k : ℕ} {r : Bool × Files} (hk : fuel ≤ k)
    (hr : rm refused fuel path s = some r) : rm refused k path s = some r := by
  induction hk with
  | refl => exact hr
  | step _ ih => exact rm_succ ih

theorem exists_deep (t : FileTree) (path : Path) : ∃ fuel, Deep t path fuel := by
  have hbound : ∀ es : List Dirent, ∃ k, ∀ e ∈ es, e.path.length ≤ k := by
    intro es
    induction es with
    | nil => exact ⟨0, fun e he => by cases he⟩
    | cons e es ih =>
        obtain ⟨k, hk⟩ := ih
        refine ⟨max e.path.length k, fun d hd => ?_⟩
        rcases List.mem_cons.mp hd with rfl | hd
        · exact Nat.le_max_left _ _
        · exact Nat.le_trans (hk d hd) (Nat.le_max_right _ _)
  obtain ⟨k, hk⟩ := hbound t.dirents
  refine ⟨k + 1, fun q m _ hq => ?_⟩
  by_cases hnil : q = []
  · rw [hnil, List.length_nil]
    omega
  · obtain ⟨e, he, rfl, -⟩ := (FileTree.node_eq_some hnil).mp hq
    exact Nat.lt_of_lt_of_le (Nat.lt_succ_of_le (hk e he)) (Nat.le_add_left _ _)

/-! ### Trees -/

/-- `Rm` ends and returns true, and the path and all below it are gone and nothing else, where
the calls only fail for a reason that POSIX has. If calls fail for other reasons it ends, too,
has made calls on the path and below it only and has followed no link, and where it has failed
to remove something it returns false. -/
structure RemovesTree (path : Path) (s : Files) : Prop where
  all : ∃ fuel s', (∀ k, fuel ≤ k → rm (fun _ => false) k path s = some (true, s')) ∧
    ∀ q, s'.tree.node q = if path <+: q then none else s.tree.node q
  inside : ∀ refused, ∃ fuel ret s' new,
    (∀ k, fuel ≤ k → rm refused k path s = some (ret, s')) ∧ s'.calls = s.calls ++ new ∧
      (∀ c ∈ new, path <+: c.path ∧ c.followed = []) ∧
        (∀ q, ¬path <+: q → s'.tree.node q = s.tree.node q) ∧
          ((∃ c ∈ new, c.Failed) → ret = false)

theorem Removes.eq_false {ret : Bool} (h : Removes refused path s ret s') {q : Path}
    (hpre : path <+: q) (hq : s'.tree.node q ≠ none) : ret = false := by
  have hthere : s'.tree.node path ≠ none := by
    obtain ⟨m, hm⟩ := Option.ne_none_iff_exists'.mp hq
    by_cases heq : path = q
    · exact heq ▸ hq
    · obtain ⟨d, hd, -⟩ := FileTree.isDir_above hm hpre heq
      exact hd ▸ Option.some_ne_none d
  exact Bool.eq_false_iff.mpr fun htrue => hthere (h.ret_iff.mp htrue)

/-- **Trees are removed** if and only if there is no socket in them. -/
theorem removesTree_iff (s : Files) {e : Dirent} (he : e ∈ s.tree.dirents) :
    RemovesTree e.path s ↔ ∀ q m, e.path <+: q → s.tree.node q = some m → m.type ≠ .sock := by
  have hpath : e.path ≠ [] := List.concat_ne_nil e.name e.dir
  have hnode : s.tree.node e.path = some e.node :=
    (FileTree.node_eq_some hpath).mpr ⟨e, he, rfl, rfl⟩
  obtain ⟨fuel, hdeep⟩ := exists_deep s.tree e.path
  constructor
  · intro h q m hpre hq hsock
    obtain ⟨k, s', hrun, hgone⟩ := h.all
    obtain ⟨ret, s₁, hrm, hremoves⟩ :=
      rm_removes (fun _ => false) fuel e.path s e.node hnode hpath hdeep
    have hsame := (hrun _ (Nat.le_max_left k fuel)).symm.trans
      (rm_mono (Nat.le_max_right k fuel) hrm)
    obtain ⟨-, rfl⟩ := Prod.mk.inj (Option.some.inj hsame)
    have hkept := hremoves.leads.kept q m hq hsock
    rw [hgone, if_pos hpre] at hkept
    cases hkept
  · intro hsocks
    constructor
    · obtain ⟨ret, s', hrm, hremoves⟩ :=
        rm_removes (fun _ => false) fuel e.path s e.node hnode hpath hdeep
      obtain rfl := hremoves.all fun q m hpre hq => ⟨hsocks q m hpre hq, rfl⟩
      refine ⟨fuel, s', fun k hk => rm_mono hk hrm, fun q => ?_⟩
      split
      case isTrue hpre =>
        by_contra hq
        cases hremoves.eq_false hpre hq
      case isFalse hnot => exact hremoves.leads.frame q hnot
    · intro refused
      obtain ⟨ret, s', hrm, hremoves⟩ :=
        rm_removes refused fuel e.path s e.node hnode hpath hdeep
      obtain ⟨new, hcalls, hnew⟩ := hremoves.leads.calls
      refine ⟨fuel, ret, s', new, fun k hk => rm_mono hk hrm, hcalls,
        fun c hc => ⟨(hnew c hc).1, (hnew c hc).2.1⟩, hremoves.leads.frame, ?_⟩
      rintro ⟨c, hc, hfailed⟩
      exact hremoves.eq_false (hnew c hc).1 ((hnew c hc).2.2 hfailed)

/-- A directory with a file and a link to a directory elsewhere. -/
def linked : Files where
  tree := ⟨[⟨[], "a", ⟨.dir, 0o755⟩⟩, ⟨["a"], "f", ⟨.reg, 0o644⟩⟩,
    ⟨["a"], "l", ⟨.lnk ["b"], 0o777⟩⟩, ⟨[], "b", ⟨.dir, 0o755⟩⟩], by decide, by decide, by decide⟩
  calls := []

theorem removesTree_linked : RemovesTree ["a"] linked := by
  refine (removesTree_iff linked (e := ⟨[], "a", ⟨.dir, 0o755⟩⟩) List.mem_cons_self).mpr ?_
  intro q m _ hq
  by_cases hnil : q = []
  · subst hnil
    obtain rfl := Option.some.inj hq
    decide
  · obtain ⟨d, hd, -, rfl⟩ := (FileTree.node_eq_some hnil).mp hq
    have hall : ∀ d ∈ linked.tree.dirents, d.node.type ≠ .sock := by decide
    exact hall d hd

/-- A directory with a socket. -/
def listening : Files where
  tree := ⟨[⟨[], "a", ⟨.dir, 0o755⟩⟩, ⟨["a"], "s", ⟨.sock, 0o755⟩⟩], by decide, by decide,
    by decide⟩
  calls := []

/-- The socket is left, and the directory. -/
theorem removesTree_false :
    ((rm (fun _ => false) 3 ["a"] listening).map fun r => (r.1, r.2.tree.dirents)) =
      some (false, [⟨[], "a", ⟨.dir, 0o755⟩⟩, ⟨["a"], "s", ⟨.sock, 0o755⟩⟩]) ∧
    ¬RemovesTree ["a"] listening := by
  have hrun : ((rm (fun _ => false) 3 ["a"] listening).map fun r => (r.1, r.2.tree.dirents)) =
      some (false, [⟨[], "a", ⟨.dir, 0o755⟩⟩, ⟨["a"], "s", ⟨.sock, 0o755⟩⟩]) := by
    decide
  refine ⟨hrun, fun h => ?_⟩
  obtain ⟨k, s', hrm, -⟩ := h.all
  obtain ⟨r, hr, hfalse⟩ := Option.map_eq_some_iff.mp hrun
  have hsame := (rm_mono (Nat.le_max_right k 3) hr).symm.trans (hrm _ (Nat.le_max_left k 3))
  obtain rfl := Option.some.inj hsame
  cases (Prod.mk.inj hfalse).1

end FileUtil

end Easy.Base
