import Easy.Base.Registrations
import Easy.Lib.Count

/-!
`pendingEventCount_` against the bits it counts.

Every critical section moves the count by as much as it changes the number of
bits, except `dispatch`: it takes one off for every event of the mask it was
given, and the mask is from an earlier `epoll_wait`. The count is exact along a
run if and only if no dispatch handles an event the channel no longer has.
-/

namespace Easy.Base

open Lib

variable {σ φ κ : Type*}

namespace Events

/-- The number of bits that are set. -/
def count (e : Events) : ℤ := (e.read.toNat + e.write.toNat : ℕ)

@[simp] theorem count_none : none.count = 0 := rfl

theorem count_add {e : Events} {ev : Event} (h : e.has ev = false) :
    (e.add ev).count = e.count + 1 := by
  obtain ⟨r, w⟩ := e
  cases ev <;> cases r <;> cases w <;> simp_all [has, add, count]

theorem count_remove {e : Events} {ev : Event} (h : e.has ev = true) :
    (e.remove ev).count = e.count - 1 := by
  obtain ⟨r, w⟩ := e
  cases ev <;> cases r <;> cases w <;> simp_all [has, remove, count]

theorem count_diff (e evs : Events) :
    (e.diff evs).count - (evs.diff e).count = e.count - evs.count := by
  obtain ⟨r, w⟩ := e
  obtain ⟨r', w'⟩ := evs
  cases r <;> cases w <;> cases r' <;> cases w' <;> rfl

theorem count_eq_zero {e : Events} : e.count = 0 ↔ e = none := by
  obtain ⟨r, w⟩ := e
  cases r <;> cases w <;> simp [count, none]

end Events

namespace Held

variable {h : Held σ φ κ} {slots : Slots σ φ κ}

theorem events_clear (slots : Slots σ φ κ) (evs : Events) :
    (Channel.of (clear slots evs)).events = (Channel.of slots).events.diff evs := by
  obtain ⟨r, w⟩ := evs
  cases r <;> cases w <;> simp [Channel.of, clear, Events.has, Events.diff]

theorem events_update_none (slots : Slots σ φ κ) (ev : Event) :
    (Channel.of (Function.update slots ev none)).events = (Channel.of slots).events.remove ev := by
  cases ev <;> simp [Channel.of, Events.remove]

theorem events_update_some (slots : Slots σ φ κ) (ev : Event) (reg : Registration σ φ κ) :
    (Channel.of (Function.update slots ev (some reg))).events =
      (Channel.of slots).events.add ev := by
  cases ev <;> simp [Channel.of, Events.add]

/-- The bits a call takes off the count although the channel does not have them. -/
def Op.stale (events : Events) : Op σ φ κ → Events
  | .dispatch mask fails =>
    if events.inter (revents events mask) = .none ∨ fails then .none
    else (revents events mask).diff events
  | _ => .none

/-- Sweeping events takes those off the count that the channel does not have. -/
theorem sweep_count (hc : h.channel = .of slots) (evs i : Events) :
    ((h.epollCtl i).sweep slots evs).pendingEventCount -
      ((h.epollCtl i).sweep slots evs).channel.events.count =
        h.pendingEventCount - h.channel.events.count - (evs.diff h.channel.events).count := by
  have hdiff := Events.count_diff (Channel.of slots).events evs
  simp only [sweep, epollCtl, events_clear, hc]
  simp only [Events.count] at hdiff ⊢
  omega

/-- How far a section moves the count off the bits of its channel. -/
theorem exec_count (hc : h.channel = .of slots) {op : Op σ φ κ} {r : Bool} {h' : Held σ φ κ}
    (he : op.exec h = .ok (r, h')) :
    (∃ slots', h'.channel = .of slots') ∧
      h'.pendingEventCount - h'.channel.events.count =
        h.pendingEventCount - h.channel.events.count - (op.stale h.channel.events).count := by
  cases op with
  | addEvent ev cb this cur fails =>
      simp only [Op.exec, addEvent_of hc] at he
      split at he <;> obtain ⟨rfl, rfl⟩ := Prod.mk.inj (Except.ok.inj he)
      · exact ⟨⟨slots, hc⟩, by simp [Op.stale]⟩
      · rename_i hfree
        rw [not_or, Bool.not_eq_true, ← Channel.has_events_of] at hfree
        refine ⟨⟨_, rfl⟩, ?_⟩
        simp only [events_update_some, Events.count_add hfree.1, hc, Op.stale, Events.count_none]
        omega
  | removeEvent ev fails =>
      simp only [Op.exec, removeEvent_of hc] at he
      split at he <;> obtain ⟨rfl, rfl⟩ := Prod.mk.inj (Except.ok.inj he)
      · exact ⟨⟨slots, hc⟩, by simp [Op.stale]⟩
      · rename_i hheld
        rw [not_or, Option.isNone_iff_eq_none, ← ne_eq, ← Option.isSome_iff_ne_none,
          ← Channel.has_events_of] at hheld
        refine ⟨⟨_, rfl⟩, ?_⟩
        simp only [events_update_none, Events.count_remove hheld.1, hc, Op.stale, Events.count_none]
        omega
  | cancelEvent ev fails =>
      simp only [Op.exec, cancelEvent_of hc] at he
      split at he <;> obtain ⟨rfl, rfl⟩ := Prod.mk.inj (Except.ok.inj he)
      · exact ⟨⟨slots, hc⟩, by simp [Op.stale]⟩
      · rename_i hheld
        rw [not_or, Option.isNone_iff_eq_none, ← ne_eq, ← Option.isSome_iff_ne_none] at hheld
        have hnone : (Events.none.add ev).diff h.channel.events = .none := by
          cases ev <;> simp [hc, Channel.of, Events.add, Events.none, Events.diff, hheld.1]
        exact ⟨⟨_, rfl⟩, by rw [sweep_count hc, hnone]; rfl⟩
  | cancelAll fails =>
      simp only [Op.exec, cancelAll_of hc] at he
      split at he <;> obtain ⟨rfl, rfl⟩ := Prod.mk.inj (Except.ok.inj he)
      · exact ⟨⟨slots, hc⟩, by simp [Op.stale]⟩
      · have hnone : h.channel.events.diff h.channel.events = .none := by
          simp [Events.diff, Events.none]
        exact ⟨⟨_, rfl⟩, by rw [sweep_count hc, hnone]; rfl⟩
  | dispatch mask fails =>
      simp only [Op.exec, dispatch_of hc] at he
      split at he <;> obtain ⟨rfl, rfl⟩ := Prod.mk.inj (Except.ok.inj he)
      · rename_i hskip
        exact ⟨⟨slots, hc⟩, by simp only [Op.stale, if_pos hskip, Events.count_none]; omega⟩
      · rename_i hskip
        exact ⟨⟨_, rfl⟩, by rw [sweep_count hc]; simp only [Op.stale, if_neg hskip]⟩

end Held

/-! ### Runs of all channels -/

/-- The channels of a manager, what the kernel watches for each, the count,
and the masks that `epoll_wait` has returned and no worker has dispatched. -/
structure Channels (ι σ φ κ : Type*) where
  channels : ι → Channel σ φ κ
  interest : ι → Events
  pendingEventCount : ℤ
  harvested : List (ι × EpollMask)

/-- A section of one of the calls, `epoll_wait` returning a mask, and the
section in which a worker handles the `k`-th mask that is left. -/
inductive ChannelsOp (ι σ φ κ : Type*)
  | call (c : ι) (op : Held.Op σ φ κ)
  | harvest (c : ι) (mask : EpollMask)
  | dispatch (k : ℕ) (fails : Bool)

/-- The sections other than that of `idle`. -/
def Held.Op.isCall : Held.Op σ φ κ → Bool
  | .dispatch .. => false
  | _ => true

namespace Channels

variable {ι : Type*} [DecidableEq ι]

/-- Taking `channel->lock_`. -/
def lock (m : Channels ι σ φ κ) (c : ι) : Held σ φ κ :=
  ⟨m.channels c, m.interest c, m.pendingEventCount, []⟩

/-- Releasing it. -/
def unlock (m : Channels ι σ φ κ) (c : ι) (h : Held σ φ κ) : Channels ι σ φ κ :=
  { m with
    channels := Function.update m.channels c h.channel
    interest := Function.update m.interest c h.interest
    pendingEventCount := h.pendingEventCount }

/-- One critical section on channel `c`. -/
def critical (m : Channels ι σ φ κ) (c : ι) (op : Held.Op σ φ κ) : Option (Channels ι σ φ κ) :=
  match op.exec (m.lock c) with
  | .error _ => none
  | .ok (_, h) => some (m.unlock c h)

def step (m : Channels ι σ φ κ) : ChannelsOp ι σ φ κ → Option (Channels ι σ φ κ)
  | .call c op => if op.isCall then m.critical c op else none
  | .harvest c mask =>
    -- the kernel reports what it watches for, and errors and hang-ups
    if m.interest c ≠ .none ∧ (mask.epollin → (m.interest c).read) ∧
        (mask.epollout → (m.interest c).write) then
      some { m with harvested := m.harvested ++ [(c, mask)] }
    else none
  | .dispatch k fails =>
    m.harvested[k]?.bind fun e =>
      { m with harvested := m.harvested.eraseIdx k }.critical e.1 (.dispatch e.2 fails)

/-- All runs from a manager whose channels are unused. -/
def machine : Lts (Channels ι σ φ κ) (ChannelsOp ι σ φ κ) where
  init m := (∀ c, m.channels c = .empty) ∧ m.pendingEventCount = 0
  step := step

/-- The count is the number of bits set over all channels. -/
def Exact [Fintype ι] (m : Channels ι σ φ κ) : Prop :=
  m.pendingEventCount = ∑ c, (m.channels c).events.count

/-- A dispatch does nothing, or fails at `epoll_ctl`, or every event it handles
is one the channel still has. -/
def Fresh (m : Channels ι σ φ κ) : ChannelsOp ι σ φ κ → Prop
  | .dispatch k fails => ∀ e ∈ m.harvested[k]?,
      (m.channels e.1).events.inter (Held.revents (m.channels e.1).events e.2) = .none ∨
        fails = true ∨
        (Held.revents (m.channels e.1).events e.2).diff (m.channels e.1).events = .none
  | _ => True

instance (m : Channels ι σ φ κ) : DecidablePred m.Fresh
  | .dispatch k fails => inferInstanceAs (Decidable (∀ e ∈ m.harvested[k]?,
      (m.channels e.1).events.inter (Held.revents (m.channels e.1).events e.2) = .none ∨
        fails = true ∨
        (Held.revents (m.channels e.1).events e.2).diff (m.channels e.1).events = .none))
  | .call .. | .harvest .. => inferInstanceAs (Decidable True)

/-- Every channel is two slots. -/
def Slotted (m : Channels ι σ φ κ) : Prop := ∀ c, ∃ slots, m.channels c = .of slots

variable [Fintype ι]

/-- A section moves the difference between count and bits by the stale bits of
its call. -/
theorem critical_exact {m m' : Channels ι σ φ κ} {c : ι} {op : Held.Op σ φ κ}
    (h : m.critical c op = some m') (hs : m.Slotted) (hx : m.Exact) :
    m'.Slotted ∧ (m'.Exact ↔ op.stale (m.channels c).events = .none) := by
  obtain ⟨slots, hc⟩ := hs c
  simp only [critical] at h
  split at h
  · cases h
  · rename_i r held he
    obtain rfl := Option.some.inj h
    obtain ⟨⟨slots', hc'⟩, hcount⟩ := Held.exec_count (h := m.lock c) hc he
    constructor
    · intro d
      by_cases hd : d = c
      · subst hd
        exact ⟨slots', by simp [unlock, hc']⟩
      · obtain ⟨s, hs⟩ := hs d
        exact ⟨s, by simp [unlock, hd, hs]⟩
    · have hsum := sum_update (fun ch : Channel σ φ κ => ch.events.count) m.channels c held.channel
      rw [Exact] at hx
      simp only [lock] at hcount
      rw [← Events.count_eq_zero]
      simp only [Exact, unlock, hsum]
      omega

/-- **One step.** -/
theorem step_exact {m m' : Channels ι σ φ κ} {op : ChannelsOp ι σ φ κ} (h : m.step op = some m')
    (hs : m.Slotted) (hx : m.Exact) : m'.Slotted ∧ (m'.Exact ↔ m.Fresh op) := by
  cases op with
  | call c op =>
      simp only [step] at h
      split at h
      · rename_i hcall
        obtain ⟨hs', hx'⟩ := critical_exact h hs hx
        refine ⟨hs', hx'.trans (iff_of_true ?_ trivial)⟩
        cases op <;> first | rfl | cases hcall
      · cases h
  | harvest c mask =>
      simp only [step] at h
      split at h
      · obtain rfl := Option.some.inj h
        exact ⟨hs, iff_of_true hx trivial⟩
      · cases h
  | dispatch k fails =>
      obtain ⟨e, hk, hsec⟩ := Option.bind_eq_some_iff.mp h
      obtain ⟨hs', hx'⟩ := critical_exact hsec hs hx
      refine ⟨hs', hx'.trans ?_⟩
      simp only [Fresh, hk, Option.mem_def, Option.some.injEq, forall_eq', Held.Op.stale]
      split <;> rename_i hskip
      · simpa using or_assoc.mp (.inl hskip)
      · rw [not_or] at hskip
        simp [hskip.1, hskip.2]

/-- **`pendingEventCount_` is exact** along a run from unused channels if and only
if every dispatch of the run is fresh. -/
theorem exact_along_iff {m : Channels ι σ φ κ} (h : machine.init m)
    (ops : List (ChannelsOp ι σ φ κ)) : machine.Along Exact m ops ↔ machine.Meets Fresh m ops := by
  obtain ⟨hc, hp⟩ := h
  refine Lts.along_iff_meets (T := machine) (I := Slotted)
    (fun _ _ _ h hs hx => (step_exact h hs hx).1) (fun _ _ _ h hs hx => (step_exact h hs hx).2)
    (fun c => ⟨_, (hc c).trans Channel.empty_eq_of⟩) ?_ ops
  simp [Exact, hp, hc, Channel.empty]

/-- A manager whose channels are unused. -/
def unused (ι σ φ κ : Type*) : Channels ι σ φ κ := ⟨fun _ => .empty, fun _ => .none, 0, []⟩

/-- Two channels; one is harvested and dispatched, one is cancelled. -/
theorem exact_along_two :
    machine.Along Exact (unused Bool Unit ℕ ℕ)
      [.call true (.addEvent .read none () 1 false), .call false (.addEvent .write none () 2 false),
        .harvest true ⟨true, false, false, false⟩, .call false (.cancelAll false),
        .dispatch 0 false] :=
  (exact_along_iff ⟨fun _ => rfl, rfl⟩ _).mpr (by decide)

/-- A mask is harvested, one of its two events is removed, and the mask is
dispatched. -/
theorem exact_stale_false :
    ∃ m : Channels Unit Unit ℕ ℕ, machine.Reachable m ∧ ¬ m.Exact := by
  have hrun : ((machine.run (unused Unit Unit ℕ ℕ)
      [.call () (.addEvent .read none () 1 false), .call () (.addEvent .write none () 2 false),
        .harvest () ⟨true, true, false, false⟩, .call () (.removeEvent .write false),
        .dispatch 0 false]).map fun m => (m.pendingEventCount, (m.channels ()).events)) =
          some (-1, .none) := by decide
  obtain ⟨m, hr, heq⟩ := Lts.Reachable.of_map_run hrun (.init ⟨fun _ => rfl, rfl⟩)
  obtain ⟨hcount, hev⟩ := Prod.mk.inj heq
  refine ⟨m, hr, fun hx => ?_⟩
  rw [Exact, hcount] at hx
  simp [hev] at hx

end Channels

end Easy.Base
