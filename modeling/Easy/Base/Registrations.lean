import Easy.Base.Channel
import Easy.Lib.Lts

/-!
A channel is two slots. Each is empty or holds one registration, and the bits
of `events_` and the two contexts say the same about it.

`Channel.of` is the channel of two slots. Every critical section takes a channel
of this form to another one without an `Abort`, and its specification says how
the slots change. What becomes of the registrations over a run is then a matter
of the slots alone.
-/

namespace Easy.Base

open Lib

variable {σ φ κ : Type*}

/-- What an accepted `addEvent` leaves in a context. -/
structure Registration (σ φ κ : Type*) where
  scheduler : σ
  work : Work κ φ
  deriving DecidableEq

namespace EventCtx

/-- The context of a slot. -/
def of : Option (Registration σ φ κ) → EventCtx σ φ κ
  | none => empty
  | some ⟨sch, .cb cb⟩ => ⟨some sch, none, some cb⟩
  | some ⟨sch, .fiber f⟩ => ⟨some sch, some f, none⟩

/-- A scheduler, and exactly one of a callback and a fiber. -/
def Full (ctx : EventCtx σ φ κ) : Prop :=
  ctx.scheduler.isSome ∧ (ctx.cb.isSome ∧ ctx.fiber = none ∨ ctx.cb = none ∧ ctx.fiber.isSome)

theorem full_of (r : Registration σ φ κ) : (of (some r)).Full := by
  obtain ⟨sch, w⟩ := r
  cases w <;> simp [of, Full]

/-- The registration a context holds. -/
def registration (ctx : EventCtx σ φ κ) : Option (Registration σ φ κ) :=
  match ctx.scheduler, ctx.cb, ctx.fiber with
  | some sch, some cb, _ => some ⟨sch, .cb cb⟩
  | some sch, none, some f => some ⟨sch, .fiber f⟩
  | _, _, _ => none

@[simp] theorem registration_of (r : Option (Registration σ φ κ)) : (of r).registration = r := by
  rcases r with _ | ⟨sch, cb | f⟩ <;> rfl

end EventCtx

/-- The two slots of a channel. -/
abbrev Slots (σ φ κ : Type*) := Event → Option (Registration σ φ κ)

namespace Channel

/-- The channel of two slots. -/
def of (slots : Slots σ φ κ) : Channel σ φ κ where
  read_ := .of (slots .read)
  write_ := .of (slots .write)
  events := ⟨(slots .read).isSome, (slots .write).isSome⟩

variable (slots : Slots σ φ κ)

theorem empty_eq_of : (empty : Channel σ φ κ) = of fun _ => none := rfl

@[simp] theorem has_events_of (ev : Event) : (of slots).events.has ev = (slots ev).isSome := by
  cases ev <;> rfl

@[simp] theorem getEventCtx_of (ev : Event) : (of slots).getEventCtx ev = .of (slots ev) := by
  cases ev <;> rfl

theorem clear_of (ev : Event) :
    ({ of slots with events := (of slots).events.remove ev } :
        Channel σ φ κ).setEventCtx .empty ev =
      of (Function.update slots ev none) := by
  cases ev <;> simp [of, Events.remove, setEventCtx, EventCtx.of]

theorem fill_of (ev : Event) (r : Registration σ φ κ) :
    ({ of slots with events := (of slots).events.add ev } : Channel σ φ κ).setEventCtx
      (.of (some r)) ev = of (Function.update slots ev (some r)) := by
  cases ev <;> simp [of, Events.add, setEventCtx]

theorem events_of_eq_none : (of slots).events = .none ↔ ∀ ev, slots ev = none := by
  constructor
  · intro h ev
    have := has_events_of slots ev
    rw [h] at this
    cases ev <;> simpa [Events.none, Events.has] using this.symm
  · intro h
    simp [of, h, Events.none]

end Channel

namespace Held

variable {h : Held σ φ κ} {slots : Slots σ φ κ}

/-- The calls of `schedule` that empty the slot of `ev`. -/
def tasksOf (slots : Slots σ φ κ) (ev : Event) : List (Event × σ × Work κ φ) :=
  (slots ev).toList.map fun r => (ev, r.scheduler, r.work)

/-- The state after the slot of `ev` was emptied into the scheduler. -/
def consume (h : Held σ φ κ) (slots : Slots σ φ κ) (ev : Event) : Held σ φ κ :=
  { h with
    channel := .of (Function.update slots ev none)
    scheduled := h.scheduled ++ tasksOf slots ev }

/-- The slots after those of `evs` were emptied. -/
def clear (slots : Slots σ φ κ) (evs : Events) : Slots σ φ κ :=
  fun ev => if evs.has ev then none else slots ev

/-- The state after the slots of `evs` were emptied into the scheduler, and the
count went down for every bit of `evs`. -/
def sweep (h : Held σ φ κ) (slots : Slots σ φ κ) (evs : Events) : Held σ φ κ :=
  { h with
    channel := .of (clear slots evs)
    pendingEventCount := h.pendingEventCount - (evs.read.toNat + evs.write.toNat : ℕ)
    scheduled := h.scheduled ++ (if evs.read then tasksOf slots .read else []) ++
      if evs.write then tasksOf slots .write else [] }

/-! ### The critical sections -/

theorem handleEvent_of (hc : h.channel = .of slots) (ev : Event) :
    h.handleEvent ev = .ok (h.consume slots ev) := by
  have hclear := Channel.clear_of slots ev
  simp only [handleEvent, hc, Channel.has_events_of, Channel.getEventCtx_of, consume]
  rcases hs : slots ev with _ | ⟨sch, cb | f⟩
  · have hsame : Function.update slots ev none = slots := by rw [← hs, Function.update_eq_self]
    simp [hsame, ← hc, tasksOf, hs]
  · simpa [EventCtx.of, EventCtx.empty, schedule, tasksOf, hs] using hclear
  · simpa [EventCtx.of, EventCtx.empty, schedule, tasksOf, hs] using hclear

/-- What a call of `addEvent` registers. -/
def registered (cb : Option κ) (this : σ) (cur : φ) : Registration σ φ κ :=
  ⟨this, match cb with | some k => .cb k | none => .fiber cur⟩

theorem addEvent_of (hc : h.channel = .of slots) (ev : Event) (cb : Option κ) (this : σ) (cur : φ)
    (fails : Bool) :
    h.addEvent ev cb this cur fails =
      if (slots ev).isSome ∨ fails then .ok (false, h)
      else .ok (true, { h with
        channel := .of (Function.update slots ev (some (registered cb this cur)))
        interest := (Channel.of slots).events.add ev
        pendingEventCount := h.pendingEventCount + 1 }) := by
  have hfill := Channel.fill_of slots ev (registered cb this cur)
  simp only [addEvent, hc, Channel.has_events_of, epollCtl]
  cases hs : slots ev with
  | some r => simp
  | none =>
      cases fails with
      | true => simp
      | false =>
          have hctx : ({ Channel.of slots with events := (Channel.of slots).events.add ev } :
              Channel σ φ κ).getEventCtx ev = .of none := by
            rw [← hs]
            cases ev <;> rfl
          cases cb <;>
            simpa [hctx, EventCtx.of, EventCtx.empty, registered] using hfill

theorem removeEvent_of (hc : h.channel = .of slots) (ev : Event) (fails : Bool) :
    h.removeEvent ev fails =
      if (slots ev).isNone ∨ fails then .ok (false, h)
      else .ok (true, { h with
        channel := .of (Function.update slots ev none)
        interest := (Channel.of slots).events.remove ev
        pendingEventCount := h.pendingEventCount - 1 }) := by
  have hclear := Channel.clear_of slots ev
  simp only [removeEvent, hc, Channel.has_events_of, epollCtl, decrement, cleanUp]
  cases hs : slots ev with
  | none => simp
  | some r =>
      cases fails with
      | true => simp
      | false => simpa using hclear

/-- A bit of `revents` is handled: its slot is emptied, and the count goes
down whether the slot held anything or not. -/
theorem dispatchOne_of (hc : h.channel = .of slots) (revents : Events) (ev : Event) :
    h.dispatchOne revents ev =
      .ok (if revents.has ev then (h.consume slots ev).decrement else h) := by
  simp only [dispatchOne]
  split <;> simp [handleEvent_of hc, bind, Except.bind, pure, Except.pure]

theorem clear_add (slots : Slots σ φ κ) (ev : Event) :
    clear slots (Events.none.add ev) = Function.update slots ev none := by
  funext ev'
  cases ev <;> cases ev' <;> simp [clear, Events.add, Events.none, Events.has]

theorem dispatchOne_both (hc : h.channel = .of slots) (evs : Events) :
    ∃ h₁, h.dispatchOne evs .read = .ok h₁ ∧
      h₁.channel.events.write = h.channel.events.write ∧
      h₁.dispatchOne evs .write = .ok (h.sweep slots evs) := by
  obtain ⟨r, w⟩ := evs
  have hclear : clear slots ⟨r, w⟩ =
      if r then (if w then Function.update (Function.update slots .read none) .write none
        else Function.update slots .read none)
      else if w then Function.update slots .write none else slots := by
    funext ev
    cases ev <;> cases r <;> cases w <;> simp [clear, Events.has]
  refine ⟨_, dispatchOne_of hc _ _, ?_⟩
  cases r with
  | false =>
      refine ⟨rfl, ?_⟩
      simp only [Events.has, Bool.false_eq_true, if_false]
      rw [dispatchOne_of hc, sweep, hclear]
      cases w <;> simp [Events.has, consume, decrement, ← hc]
  | true =>
      refine ⟨by simp [Events.has, consume, decrement, hc, Channel.of], ?_⟩
      simp only [Events.has, if_true]
      rw [dispatchOne_of (rfl : _ = Channel.of (Function.update slots .read none)), sweep, hclear]
      cases w with
      | false => simp [Events.has, consume, decrement]
      | true =>
          simp [Events.has, consume, decrement, tasksOf]
          omega

theorem cancelEvent_of (hc : h.channel = .of slots) (ev : Event) (fails : Bool) :
    h.cancelEvent ev fails =
      if (slots ev).isNone ∨ fails then .ok (false, h)
      else .ok (true, (h.epollCtl ((Channel.of slots).events.remove ev)).sweep slots
        (Events.none.add ev)) := by
  have hev := handleEvent_of (h := h.epollCtl ((Channel.of slots).events.remove ev)) hc ev
  have hsweep : ∀ h : Held σ φ κ,
      (h.consume slots ev).decrement = h.sweep slots (Events.none.add ev) := by
    intro h
    rw [sweep, clear_add]
    cases ev <;> simp [consume, decrement, Events.add, Events.none]
  simp only [cancelEvent, hc, Channel.has_events_of]
  cases hs : slots ev with
  | none => simp
  | some r =>
      cases fails with
      | true => simp
      | false => simp [hev, bind, Except.bind, pure, Except.pure, hsweep]

theorem dispatch_of (hc : h.channel = .of slots) (mask : EpollMask) (fails : Bool) :
    h.dispatch mask fails =
      if h.channel.events.inter (revents h.channel.events mask) = .none ∨ fails then .ok (false, h)
      else .ok (true, (h.epollCtl (h.channel.events.diff (revents h.channel.events mask))).sweep
        slots (revents h.channel.events mask)) := by
  generalize hr : revents h.channel.events mask = evs
  obtain ⟨h₁, hread, -, hwrite⟩ :=
    dispatchOne_both (h := h.epollCtl (h.channel.events.diff evs)) hc evs
  simp only [dispatch, hr]
  by_cases hnone : h.channel.events.inter evs = .none
  · simp [hnone]
  · cases fails <;> simp [hnone, hread, hwrite, bind, Except.bind, pure, Except.pure]

theorem cancelAll_of (hc : h.channel = .of slots) (fails : Bool) :
    h.cancelAll fails =
      if h.channel.events = .none ∨ fails then .ok (false, h)
      else .ok (true, (h.epollCtl .none).sweep slots h.channel.events) := by
  obtain ⟨h₁, hread, hsame, hwrite⟩ :=
    dispatchOne_both (h := h.epollCtl .none) hc h.channel.events
  have hread' : (h.epollCtl .none).cancelOne .read = .ok h₁ := hread
  have hwrite' : h₁.cancelOne .write =
      .ok ((h.epollCtl .none).sweep slots h.channel.events) := by
    rw [← hwrite]
    simp only [cancelOne, dispatchOne, Events.has, hsame]
    rfl
  -- the assertion at the end of `cancelAll`
  have hleft : ((h.epollCtl .none).sweep slots h.channel.events).channel.events = .none := by
    rw [sweep, Channel.events_of_eq_none]
    intro ev
    rw [clear, hc, Channel.has_events_of]
    cases slots ev <;> simp
  simp only [cancelAll]
  by_cases hnone : h.channel.events = .none
  · simp [hnone]
  · cases fails <;> simp [hnone, hread', hwrite', hleft, bind, Except.bind, pure, Except.pure]

/-! ### What a section does to the registrations -/

/-- What a call registers if it returns `true`. -/
def Op.accepted : Op σ φ κ → List (Event × Registration σ φ κ)
  | .addEvent ev cb this cur _ => [(ev, registered cb this cur)]
  | _ => []

/-- What a call throws away if it returns `true`. -/
def Op.dropped (c : Channel σ φ κ) : Op σ φ κ → List (Event × Registration σ φ κ)
  | .removeEvent ev _ => (c.getEventCtx ev).registration.toList.map fun r => (ev, r)
  | _ => []

/-- **One critical section.** It leaves a channel of two slots, and does one of
four things to them: nothing, filling an empty slot, dropping what one holds, or
emptying some into the scheduler. -/
theorem exec_cases (hc : h.channel = .of slots) (op : Op σ φ κ) :
    ∃ r h', op.exec h = .ok (r, h') ∧
      ((r = false ∧ h' = h) ∨
      (∃ ev reg, r = true ∧ op.accepted = [(ev, reg)] ∧ op.dropped h.channel = [] ∧
        slots ev = none ∧ h'.channel = .of (Function.update slots ev (some reg)) ∧
        h'.scheduled = h.scheduled) ∨
      (∃ ev reg, r = true ∧ op.accepted = [] ∧ op.dropped h.channel = [(ev, reg)] ∧
        slots ev = some reg ∧ h'.channel = .of (Function.update slots ev none) ∧
        h'.scheduled = h.scheduled) ∨
      ∃ evs i, r = true ∧ op.accepted = [] ∧ op.dropped h.channel = [] ∧
        h' = (h.epollCtl i).sweep slots evs) := by
  cases op with
  | addEvent ev cb this cur fails =>
      simp only [Op.exec, addEvent_of hc]
      split
      · exact ⟨_, _, rfl, .inl ⟨rfl, rfl⟩⟩
      · rename_i hfree
        rw [not_or, Bool.not_eq_true, Option.isSome_eq_false_iff,
          Option.isNone_iff_eq_none] at hfree
        exact ⟨_, _, rfl, .inr (.inl ⟨ev, _, rfl, rfl, rfl, hfree.1, rfl, rfl⟩)⟩
  | removeEvent ev fails =>
      simp only [Op.exec, removeEvent_of hc]
      split
      · exact ⟨_, _, rfl, .inl ⟨rfl, rfl⟩⟩
      · rename_i hheld
        rw [not_or, Option.isNone_iff_eq_none] at hheld
        obtain ⟨reg, hreg⟩ := Option.ne_none_iff_exists'.mp hheld.1
        exact ⟨_, _, rfl, .inr (.inr (.inl ⟨ev, reg, rfl, rfl, by simp [Op.dropped, hc, hreg], hreg,
          rfl, rfl⟩))⟩
  | cancelEvent ev fails =>
      simp only [Op.exec, cancelEvent_of hc]
      split
      · exact ⟨_, _, rfl, .inl ⟨rfl, rfl⟩⟩
      · exact ⟨_, _, rfl, .inr (.inr (.inr ⟨_, _, rfl, rfl, rfl, rfl⟩))⟩
  | cancelAll fails =>
      simp only [Op.exec, cancelAll_of hc]
      split
      · exact ⟨_, _, rfl, .inl ⟨rfl, rfl⟩⟩
      · exact ⟨_, _, rfl, .inr (.inr (.inr ⟨_, _, rfl, rfl, rfl, rfl⟩))⟩
  | dispatch mask fails =>
      simp only [Op.exec, dispatch_of hc]
      split
      · exact ⟨_, _, rfl, .inl ⟨rfl, rfl⟩⟩
      · exact ⟨_, _, rfl, .inr (.inr (.inr ⟨_, _, rfl, rfl, rfl, rfl⟩))⟩

end Held

/-! ### Runs of one channel -/

/-- How a registration ends. -/
inductive Fate
  | scheduled
  | dropped
  deriving DecidableEq, Repr

/-- A channel, with the registrations accepted and consumed so far. -/
structure Trace (σ φ κ : Type*) where
  held : Held σ φ κ
  accepted : List (Event × Registration σ φ κ)
  consumed : List (Event × Registration σ φ κ × Fate)

namespace Trace

/-- A critical section. What it gives to the scheduler or drops is consumed. -/
def step (t : Trace σ φ κ) (op : Held.Op σ φ κ) : Option (Trace σ φ κ) :=
  match op.exec { t.held with scheduled := [] } with
  | .error _ => none
  | .ok (r, h) => some
    { held := h
      accepted := t.accepted ++ if r then op.accepted else []
      consumed := t.consumed ++
        (h.scheduled.map fun x => (x.1, ⟨x.2.1, x.2.2⟩, .scheduled)) ++
        if r then (op.dropped t.held.channel).map fun x => (x.1, x.2, .dropped) else [] }

def machine : Lts (Trace σ φ κ) (Held.Op σ φ κ) where
  init t := t.held.channel = .empty ∧ t.accepted = [] ∧ t.consumed = []
  step := step

variable (t : Trace σ φ κ) (ev : Event)

/-- The registrations of one event accepted so far, in order. -/
def acceptedOf : List (Registration σ φ κ) :=
  t.accepted.filterMap fun x => if x.1 = ev then some x.2 else none

/-- The registrations of one event consumed so far, in order. -/
def consumedOf : List (Registration σ φ κ) :=
  t.consumed.filterMap fun x => if x.1 = ev then some x.2.1 else none

/-- The registration of one event that is pending. -/
def pendingOf : List (Registration σ φ κ) :=
  (t.held.channel.getEventCtx ev).registration.toList

variable {t ev}

/-- What emptying the slots of `evs` hands to the scheduler for one event. -/
theorem swept_of {h : Held σ φ κ} (slots : Slots σ φ κ) (evs : Events) (ev : Event)
    (hnil : h.scheduled = []) :
    ((h.sweep slots evs).scheduled.map fun x =>
      (x.1, (⟨x.2.1, x.2.2⟩ : Registration σ φ κ), Fate.scheduled)).filterMap
        (fun x => if x.1 = ev then some x.2.1 else none) =
      if evs.has ev then (slots ev).toList else [] := by
  obtain ⟨r, w⟩ := evs
  simp only [Held.sweep, hnil, Held.tasksOf, Events.has]
  cases ev <;> cases r <;> cases w <;> cases slots .read <;> cases slots .write <;> simp

/-- The accounts of one channel: it is two slots, and what was accepted for an
event is what was consumed for it and then what is pending. -/
structure Balanced (t : Trace σ φ κ) : Prop where
  slots : ∃ slots, t.held.channel = .of slots
  account : ∀ ev, t.acceptedOf ev = t.consumedOf ev ++ t.pendingOf ev

theorem Balanced.step {t' : Trace σ φ κ} {op : Held.Op σ φ κ} (hs : t.step op = some t')
    (hb : t.Balanced) : t'.Balanced := by
  obtain ⟨slots, hc⟩ := hb.slots
  obtain ⟨r, h', he, hcases⟩ :=
    Held.exec_cases (h := { t.held with scheduled := [] }) hc op
  simp only [Trace.step, he, Option.some.injEq] at hs
  subst hs
  have hacc := hb.account
  simp only [acceptedOf, consumedOf, pendingOf, hc, Channel.getEventCtx_of,
    EventCtx.registration_of] at hacc
  rcases hcases with ⟨rfl, rfl⟩ | ⟨ev, reg, rfl, hin, hout, hfree, hc', hsch⟩ |
    ⟨ev, reg, rfl, hin, hout, hheld, hc', hsch⟩ | ⟨evs, i, rfl, hin, hout, rfl⟩
  · refine ⟨⟨slots, hc⟩, fun ev => ?_⟩
    simp [acceptedOf, consumedOf, pendingOf, hc, hacc]
  · refine ⟨⟨_, hc'⟩, fun ev' => ?_⟩
    have := hacc ev'
    by_cases hev : ev' = ev
    · subst hev
      simp_all [acceptedOf, consumedOf, pendingOf]
    · simp_all [acceptedOf, consumedOf, pendingOf, Ne.symm hev]
  · refine ⟨⟨_, hc'⟩, fun ev' => ?_⟩
    have := hacc ev'
    by_cases hev : ev' = ev
    · subst hev
      simp_all [acceptedOf, consumedOf, pendingOf]
    · simp_all [acceptedOf, consumedOf, pendingOf, Ne.symm hev]
  · refine ⟨⟨_, rfl⟩, fun ev => ?_⟩
    have hswept := swept_of (h := Held.epollCtl { t.held with scheduled := [] } i) slots evs ev rfl
    simp only [acceptedOf, consumedOf, pendingOf, hin, hout, if_true, List.append_nil, List.map_nil,
      List.filterMap_append, hswept, hacc ev, List.append_assoc, List.append_cancel_left_eq]
    simp only [Held.sweep, Channel.getEventCtx_of, EventCtx.registration_of, Held.clear]
    split <;> simp

/-- **Every registration is resolved exactly once.** In every reachable state the
bit of an event is set exactly when its context holds a scheduler and one of a
callback and a fiber, and the context is empty otherwise; no assertion of the
next critical section fails; and the registrations accepted for an event are,
one by one and in order, those consumed and the pending one. -/
theorem registrations_resolved_once (h : machine.Reachable t) :
    (∀ ev, (t.held.channel.events.has ev → (t.held.channel.getEventCtx ev).Full) ∧
      (¬ t.held.channel.events.has ev → t.held.channel.getEventCtx ev = .empty)) ∧
    (∀ op : Held.Op σ φ κ, ∃ r, op.exec t.held = .ok r) ∧
    ∀ ev, t.acceptedOf ev = t.consumedOf ev ++ t.pendingOf ev := by
  have hb : t.Balanced := by
    refine h.invariant (fun s hs => ?_) fun _ _ _ hs hb => hb.step hs
    obtain ⟨hc, hacc, hcons⟩ := hs
    rw [Channel.empty_eq_of] at hc
    refine ⟨⟨_, hc⟩, fun ev => ?_⟩
    simp [acceptedOf, consumedOf, pendingOf, hacc, hcons, hc]
  obtain ⟨slots, hc⟩ := hb.slots
  refine ⟨fun ev => ?_, fun op => ?_, hb.account⟩
  · rw [hc, Channel.has_events_of, Channel.getEventCtx_of]
    cases hs : slots ev with
    | none => simp [EventCtx.of]
    | some reg => simp [EventCtx.full_of]
  · obtain ⟨r, h', he, -⟩ := Held.exec_cases hc op
    exact ⟨_, he⟩

/-- Two registrations, of which a stale mask schedules one and the caller
removes the other. -/
theorem registrations_resolved_once_run :
    ∃ t : Trace Unit ℕ ℕ, machine.run
        ⟨⟨.empty, .none, 0, []⟩, [], []⟩
        [.addEvent .read none () 7 false, .addEvent .write (some 8) () 7 false,
          .removeEvent .write false, .dispatch ⟨true, true, false, false⟩ false] = some t ∧
      (∀ ev, (t.held.channel.events.has ev → (t.held.channel.getEventCtx ev).Full) ∧
        (¬ t.held.channel.events.has ev → t.held.channel.getEventCtx ev = .empty)) ∧
      (∀ op : Held.Op Unit ℕ ℕ, ∃ r, op.exec t.held = .ok r) ∧
      ∀ ev, t.acceptedOf ev = t.consumedOf ev ++ t.pendingOf ev := by
  obtain ⟨t, ht⟩ := Option.isSome_iff_exists.mp (show (machine.run
    (⟨⟨.empty, .none, 0, []⟩, [], []⟩ : Trace Unit ℕ ℕ)
    [.addEvent .read none () 7 false, .addEvent .write (some 8) () 7 false,
      .removeEvent .write false, .dispatch ⟨true, true, false, false⟩ false]).isSome from by decide)
  exact ⟨t, ht, registrations_resolved_once (.of_run (.init ⟨rfl, rfl, rfl⟩) ht)⟩

end Trace

end Easy.Base
