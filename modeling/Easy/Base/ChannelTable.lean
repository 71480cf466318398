import Easy.Lib.Threads
import Easy.Lib.PtrTable

/-!
The table `channels_` of `easy/base/IOManager.cc`, from descriptors to channels.

`addEvent` looks at the size of the table under the read lock and grows the table
under the write lock, to a size it computes from its own descriptor. The size may
have changed in between. Every access of the table that could be out of its bounds,
or find a null pointer, has no next state.
-/

namespace Easy.Base

open Lib

variable {ι : Type}

/-- `channels_`, and the number of the next `Channel`. -/
structure ChannelTable where
  channels : List (Option ℕ)
  next : ℕ
  deriving DecidableEq, Repr

namespace ChannelTable

/-- `resizeChannels` -/
def resizeChannels (t : ChannelTable) (size : ℕ) : ChannelTable :=
  let (next, channels) := PtrTable.fill t.next (PtrTable.resize t.channels size)
  ⟨channels, next⟩

@[simp] theorem length_resizeChannels (t : ChannelTable) (size : ℕ) :
    (t.resizeChannels size).channels.length = size := by
  simp [resizeChannels]

/-- How `removeEvent`, `cancelEvent` and `cancelAll` find the channel of a descriptor. -/
def lookup (t : ChannelTable) (fd : ℕ) : Option ℕ :=
  if t.channels.length ≤ fd then none else t.channels[fd]?.join

/-- No entry is null. -/
def Filled (t : ChannelTable) : Prop := ∀ i < t.channels.length, ∃ c, t.channels[i]? = some (some c)

theorem filled_resizeChannels (t : ChannelTable) (size : ℕ) : (t.resizeChannels size).Filled := by
  intro i hi
  exact PtrTable.getElem?_fill_of_lt (by simpa using hi)

/-- A table that does not shrink keeps its channels. -/
theorem getElem?_resizeChannels {t : ChannelTable} {size i c : ℕ}
    (h : t.channels[i]? = some (some c)) (hsize : t.channels.length ≤ size) :
    (t.resizeChannels size).channels[i]? = some (some c) :=
  PtrTable.getElem?_fill_resize h hsize

theorem lookup_eq_some {t : ChannelTable} {fd c : ℕ} (h : t.channels[fd]? = some (some c)) :
    t.lookup fd = some c := by
  have hfd : fd < t.channels.length := (List.getElem?_eq_some_iff.mp h).1
  rw [lookup, if_neg (by omega), h]
  rfl

end ChannelTable

/-- The table, the channel first made for each descriptor, the largest size the table
has had, and the channels that `addEvent` calls have taken from it, with their
descriptors. -/
structure TableRun where
  table : ChannelTable
  first : ℕ → Option ℕ
  high : ℕ
  taken : List (ℕ × ℕ)

/-- Where a thread is in `addEvent`: not in it, before its read lock, or past it
with a table too small. -/
inductive AddPc
  | idle
  | called (fd : ℕ)
  | growing (fd : ℕ)
  deriving DecidableEq

inductive AddAct
  | call (fd : ℕ)
  | check
  | grow
  deriving DecidableEq

namespace TableRun

/-- `channels_[idx]` -/
def index (g : TableRun) (fd : ℕ) : Option TableRun :=
  match g.table.channels[fd]? with
  | some (some c) => some { g with taken := g.taken ++ [(fd, c)] }
  | _ => none

/-- The write lock section of `addEvent` up to the access. -/
def resize (g : TableRun) (fd : ℕ) : TableRun :=
  let table := g.table.resizeChannels (fd <<< 1)
  { g with
    table := table
    first := fun i => (g.first i).or table.channels[i]?.join
    high := max g.high table.channels.length }

/-- The table after the constructor of `IOManager`. -/
def start : TableRun :=
  let table := ChannelTable.resizeChannels ⟨[], 0⟩ 32
  ⟨table, fun i => table.channels[i]?.join, 32, []⟩

/-- `addEvent` up to the lock of the channel, by any threads. -/
def addEvent (ι : Type) : Threads ι TableRun AddPc AddAct where
  init g pc := g = start ∧ pc = fun _ => .idle
  act _ g p a := match p, a with
    | .idle, .call fd => some (g, .called fd)
    | .called fd, .check =>
      if g.table.channels.length > fd then (g.index fd).map fun g => (g, .idle)
      else some (g, .growing fd)
    | .growing fd, .grow => ((g.resize fd).index fd).map fun g => (g, .idle)
    | _, _ => none

/-- The table has never shrunk, each descriptor has the channel first made for it,
and every channel an `addEvent` has taken is found again under its descriptor. -/
structure Grows (g : TableRun) : Prop where
  size : g.high ≤ g.table.channels.length
  kept : ∀ i c, g.first i = some c → g.table.channels[i]? = some (some c)
  found : ∀ x ∈ g.taken, g.table.lookup x.1 = some x.2

/-- What holds as long as the table has not shrunk. -/
structure Steady (g : TableRun) : Prop where
  size : g.high = g.table.channels.length
  first : ∀ i, g.first i = g.table.channels[i]?.join
  taken : ∀ x ∈ g.taken, g.table.channels[x.1]? = some (some x.2)

theorem join_eq_some {o : Option (Option ℕ)} {c : ℕ} : o.join = some c ↔ o = some (some c) := by
  rcases o with _ | _ | _ <;> simp

theorem Steady.grows {g : TableRun} (h : g.Steady) : g.Grows := by
  refine ⟨h.size.le, fun i c hc => ?_, fun x hx => ChannelTable.lookup_eq_some (h.taken x hx)⟩
  rwa [h.first, join_eq_some] at hc

/-! ### What a lock section does -/

section Steps

variable {g g' : TableRun} {fd : ℕ}

theorem index_eq_some (h : g.index fd = some g') :
    ∃ c, g.table.channels[fd]? = some (some c) ∧ g' = { g with taken := g.taken ++ [(fd, c)] } := by
  simp only [index] at h
  split at h
  · exact ⟨_, ‹_›, (Option.some.inj h).symm⟩
  · cases h

theorem isSome_index (hf : g.table.Filled) (h : fd < g.table.channels.length) :
    (g.index fd).isSome := by
  obtain ⟨c, hc⟩ := hf fd h
  simp [index, hc]

theorem Steady.index (h : g.Steady) (hg : g.index fd = some g') : g'.Steady := by
  obtain ⟨c, hc, rfl⟩ := index_eq_some hg
  refine ⟨h.size, h.first, fun x hx => ?_⟩
  rcases List.mem_append.mp hx with hx | hx
  · exact h.taken x hx
  · rw [List.mem_singleton.mp hx]
    exact hc

theorem Steady.resize (h : g.Steady) (hle : g.table.channels.length ≤ fd <<< 1) :
    (g.resize fd).Steady := by
  constructor
  · simp only [TableRun.resize, h.size, ChannelTable.length_resizeChannels]
    omega
  · intro i
    simp only [TableRun.resize]
    cases hfirst : g.first i with
    | none => rfl
    | some c =>
        rw [h.first, join_eq_some] at hfirst
        rw [ChannelTable.getElem?_resizeChannels hfirst hle]
        rfl
  · exact fun x hx => ChannelTable.getElem?_resizeChannels (h.taken x hx) hle

/-- A table that has shrunk is smaller than it has been. -/
theorem not_grows_resize (h : g.Steady) (hlt : ¬ g.table.channels.length ≤ fd <<< 1)
    (hg : (g.resize fd).index fd = some g') : ¬ g'.Grows := by
  obtain ⟨c, -, rfl⟩ := index_eq_some hg
  intro hgrows
  have hsize := hgrows.size
  simp only [TableRun.resize, h.size, ChannelTable.length_resizeChannels] at hsize
  omega

theorem act_cases {i : ι} {p p' : AddPc} {a : AddAct}
    (h : (addEvent ι).act i g p a = some (g', p')) :
    (g' = g ∧ (∀ fd, p' = .growing fd → g.table.channels.length ≤ fd) ∧
      ¬ ∃ fd, p = .growing fd ∧ a = .grow) ∨
    (∃ fd, p = .called fd ∧ p' = .idle ∧ g.index fd = some g') ∨
    ∃ fd, p = .growing fd ∧ a = .grow ∧ p' = .idle ∧ (g.resize fd).index fd = some g' := by
  simp only [addEvent] at h
  split at h
  · obtain ⟨rfl, rfl⟩ := Prod.mk.inj (Option.some.inj h)
    exact .inl ⟨rfl, by simp, by simp⟩
  · rename_i k
    split at h
    · obtain ⟨g₁, hg₁, heq⟩ := Option.map_eq_some_iff.mp h
      obtain ⟨rfl, rfl⟩ := Prod.mk.inj heq
      exact .inr (.inl ⟨k, rfl, rfl, hg₁⟩)
    · obtain ⟨rfl, rfl⟩ := Prod.mk.inj (Option.some.inj h)
      refine .inl ⟨rfl, fun fd hp => ?_, by simp⟩
      obtain rfl := AddPc.growing.inj hp
      omega
  · obtain ⟨g₁, hg₁, heq⟩ := Option.map_eq_some_iff.mp h
    obtain ⟨rfl, rfl⟩ := Prod.mk.inj heq
    exact .inr (.inr ⟨_, rfl, rfl, rfl, hg₁⟩)
  · cases h

end Steps

/-! ### Runs -/

/-- The accesses of the table are in its bounds: whatever lock section a thread has
come to, it goes through it. -/
def InBounds (s : Threads.State ι TableRun AddPc) : Prop :=
  ∀ i fd, (s.pc i = .called fd → ((addEvent ι).act i s.shared (s.pc i) .check).isSome) ∧
    (s.pc i = .growing fd → ((addEvent ι).act i s.shared (s.pc i) .grow).isSome)

/-- Under the write lock the table is not larger than it is resized to. -/
def NoShrink (s : Threads.State ι TableRun AddPc) (l : ι × AddAct) : Prop :=
  ∀ fd, s.pc l.1 = .growing fd → l.2 = .grow → s.shared.table.channels.length ≤ fd <<< 1

variable [DecidableEq ι] {s s' : Threads.State ι TableRun AddPc} {l : ι × AddAct}

/-- The table has at least its first size, and so has the descriptor of a thread that
found it too small. -/
structure Large (g : TableRun) (p : AddPc) : Prop where
  filled : g.table.Filled
  length : 32 ≤ g.table.channels.length
  growing : ∀ fd, p = .growing fd → 32 ≤ fd

omit [DecidableEq ι] in
theorem act_large {i : ι} {g g' : TableRun} {p p' : AddPc} {a : AddAct}
    (hact : (addEvent ι).act i g p a = some (g', p')) (h : Large g p) : Large g' p' := by
  rcases act_cases hact with ⟨rfl, hp, -⟩ | ⟨fd, rfl, rfl, hg⟩ | ⟨fd, rfl, -, rfl, hg⟩
  · exact ⟨h.filled, h.length, fun fd hfd => h.length.trans (hp fd hfd)⟩
  · obtain ⟨c, -, rfl⟩ := index_eq_some hg
    exact ⟨h.filled, h.length, by simp⟩
  · obtain ⟨c, -, rfl⟩ := index_eq_some hg
    have hfd := h.growing fd rfl
    refine ⟨ChannelTable.filled_resizeChannels _ _, ?_, by simp⟩
    simp only [resize, ChannelTable.length_resizeChannels, Nat.shiftLeft_eq]
    omega

theorem large (h : (addEvent ι).lts.Reachable s) (i : ι) : Large s.shared (s.pc i) := by
  refine Threads.local_invariant (J := fun _ => Large) ?_ ?_ ?_ h i
  · rintro g pc ⟨rfl, rfl⟩ i
    exact ⟨ChannelTable.filled_resizeChannels _ 32, by simp [start], by simp⟩
  · exact fun i g p a g' p' hact hJ => act_large hact hJ
  · intro i j g p a g' p' q hact _ hJ hq
    have hJ' := act_large hact hJ
    exact ⟨hJ'.filled, hJ'.length, hq.growing⟩

theorem inBounds (h : (addEvent ι).lts.Reachable s) : InBounds s := by
  intro i fd
  have hlarge := large h i
  constructor
  · intro hp
    simp only [addEvent, hp]
    split
    · simpa using isSome_index hlarge.filled ‹_›
    · rfl
  · intro hp
    have hfd := hlarge.growing fd hp
    have hlt : fd < (s.shared.resize fd).table.channels.length := by
      simp only [resize, ChannelTable.length_resizeChannels, Nat.shiftLeft_eq]
      omega
    simp only [addEvent, hp]
    simpa using isSome_index (ChannelTable.filled_resizeChannels _ _) hlt

theorem step_steady (hstep : (addEvent ι).lts.step s l = some s') (h : s.shared.Steady)
    (hl : NoShrink s l) : s'.shared.Steady := by
  obtain ⟨g, p, hact, rfl⟩ := Threads.step_eq_some.mp hstep
  rcases act_cases hact with ⟨rfl, -, -⟩ | ⟨fd, -, -, hg⟩ | ⟨fd, hp, ha, -, hg⟩
  · exact h
  · exact h.index hg
  · exact (h.resize (hl fd hp ha)).index hg

theorem step_not_grows (hstep : (addEvent ι).lts.step s l = some s') (h : s.shared.Steady)
    (hl : ¬ NoShrink s l) : ¬ s'.shared.Grows := by
  obtain ⟨g, p, hact, rfl⟩ := Threads.step_eq_some.mp hstep
  simp only [NoShrink, not_forall] at hl
  obtain ⟨fd, hp, ha, hlt⟩ := hl
  rcases act_cases hact with ⟨-, -, hno⟩ | ⟨fd', hp', -, -⟩ | ⟨fd', hp', -, -, hg⟩
  · exact absurd ⟨fd, hp, ha⟩ hno
  · rw [hp] at hp'
    cases hp'
  · obtain rfl := AddPc.growing.inj (hp.symm.trans hp')
    exact not_grows_resize h hlt hg

theorem steady_start : start.Steady := ⟨by simp [start], fun _ => rfl, by simp [start]⟩

/-- **The table only grows**, along a run of any threads, if and only if no `addEvent`
resizes it below the size it has by then. Its accesses are in its bounds in any run. -/
theorem grows_along_iff :
    (∀ ls : List (ι × AddAct),
      (addEvent ι).lts.Along (fun s => s.shared.Grows) ⟨start, fun _ => .idle⟩ ls ↔
        (addEvent ι).lts.Meets NoShrink ⟨start, fun _ => .idle⟩ ls) ∧
    ∀ s, (addEvent ι).lts.Reachable s → InBounds s :=
  ⟨fun ls => Lts.along_iff_meets_of (J := fun s => s.shared.Steady) (fun _ => Steady.grows)
    (fun _ _ _ => step_steady) (fun _ _ _ => step_not_grows) steady_start ls, fun _ => inBounds⟩

/-- The threads of descriptors 40 and 100 both find 32 channels; the table grows to
200 and shrinks to 80, without descriptor 100. -/
theorem grows_false : ∃ s, (addEvent (Fin 2)).lts.Reachable s ∧ ¬ s.shared.Grows := by
  have hrun : (((addEvent (Fin 2)).lts.run ⟨start, fun _ => .idle⟩
      [(0, .call 100), (1, .call 40), (0, .check), (1, .check), (0, .grow), (1, .grow)]).map
        fun s => (s.shared.taken, s.shared.table.lookup 100)) =
      some ([(100, 100), (40, 40)], none) := by decide +kernel
  obtain ⟨s, hr, heq⟩ := Lts.Reachable.of_map_run hrun (.init ⟨rfl, rfl⟩)
  obtain ⟨htaken, hlookup⟩ := Prod.mk.inj heq
  refine ⟨s, hr, fun h => ?_⟩
  have hfound := h.found (100, 100) (by simp [htaken])
  simp [hlookup] at hfound

end TableRun

end Easy.Base
