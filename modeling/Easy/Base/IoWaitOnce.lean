import Mathlib.Data.List.Count
import Easy.Base.IoCalls

/-!
Every wait is woken once.

A fiber that waits in a hooked call has one wake-up, which is in one place: the slot of
its event, the timer of its `sleep`, or the queue of tasks. A fiber that runs has none.
-/

namespace Easy.Base

open Lib

/-- Where the wake-up of a fiber is. -/
inductive Place
  | nowhere
  | slot (fd : ℕ) (event : Event)
  | queue
  | timer (t : ℕ)
  deriving DecidableEq, Repr

/-- A wake-up stays where it is, or goes from a slot to the tasks. -/
def Place.Moves (w w' : Place) : Prop := w' = w ∨ (∃ fd ev, w = .slot fd ev) ∧ w' = .queue

/-- Where the slots of a descriptor that are emptied leave it. -/
def Place.swept (fd : ℕ) (evs : Events) : Place → Place
  | .slot fd' ev => if fd' = fd ∧ evs.has ev then .queue else .slot fd' ev
  | w => w

/-- Where it may be. -/
def FiberPc.Parks : FiberPc → Place → Prop
  | .spawned, w => w = .queue
  | .io c _ (.added _ _), w | .io c _ (.suspended _ _), w => w = .slot c.fd c.event ∨ w = .queue
  | .sleeping t, w | .asleep t, w => w = .timer t ∨ w = .queue
  | _, w => w = .nowhere

namespace IoWaits

variable {φ κ : Type*} [DecidableEq φ] {s s' : IoWaits φ κ}

/-- The registration of a fiber is in a slot. -/
def Holds (s : IoWaits φ κ) (fd : ℕ) (ev : Event) (f : φ) : Prop :=
  ((s.held fd).channel.getEventCtx ev).registration = some ⟨(), .fiber f⟩

/-- The wake-up of a fiber is in this place, and in no other. -/
structure At (s : IoWaits φ κ) (f : φ) (w : Place) : Prop where
  slot : ∀ fd ev, s.Holds fd ev f ↔ w = .slot fd ev
  queue : s.tasks.count f = if w = .queue then 1 else 0
  timer : ∀ t, (s.alarms t).bind Alarm.sleeper = some f ↔ w = .timer t

/-- Every fiber has the wake-up that it should have. -/
structure Placed (s : IoWaits φ κ) : Prop where
  slotted : ∀ fd, ∃ slots, (s.held fd).channel = .of slots
  place : ∀ f, ∃ w, s.At f w ∧ (s.pc f).Parks w

theorem At.congr {f : φ} {w : Place} (h : s.At f w) (hheld : s'.held = s.held)
    (htasks : s'.tasks = s.tasks)
    (halarms : ∀ t, (s'.alarms t).bind Alarm.sleeper = (s.alarms t).bind Alarm.sleeper) :
    s'.At f w where
  slot fd ev := by
    rw [Holds, hheld]
    exact h.slot fd ev
  queue := by rw [htasks, h.queue]
  timer t := by rw [halarms, h.timer]

/-! ### What touches no wake-up -/

theorem Placed.congr (h : s.Placed) (hheld : s'.held = s.held) (htasks : s'.tasks = s.tasks)
    (halarms : ∀ t, (s'.alarms t).bind Alarm.sleeper = (s.alarms t).bind Alarm.sleeper)
    (hpc : ∀ f w, (s.pc f).Parks w → (s'.pc f).Parks w) : s'.Placed where
  slotted fd := hheld ▸ h.slotted fd
  place f := by
    obtain ⟨w, hat, hparks⟩ := h.place f
    exact ⟨w, hat.congr hheld htasks halarms, hpc f w hparks⟩

/-- One fiber goes on. -/
theorem parks_goOn {f : φ} {p : FiberPc} (hp : ∀ w, (s.pc f).Parks w → p.Parks w) (g : φ)
    (w : Place) (hg : (s.pc g).Parks w) : ((s.goOn f p).pc g).Parks w := by
  by_cases hgf : g = f
  · subst hgf
    simpa using hp w hg
  · simpa [hgf] using hg

theorem Placed.goOn (h : s.Placed) {f : φ} {p : FiberPc}
    (hp : ∀ w, (s.pc f).Parks w → p.Parks w) : (s.goOn f p).Placed :=
  h.congr rfl rfl (fun _ => rfl) (parks_goOn hp)

theorem Placed.setInfo (h : s.Placed) {k : ℕ} {p : InfoPtr} : (s.setInfo k p).Placed :=
  h.congr rfl rfl (fun _ => rfl) fun _ _ => id

theorem Placed.leave (h : s.Placed) {f : φ} {o : Outcome}
    (hp : ∀ w, (s.pc f).Parks w → w = .nowhere) : (s.leave f o).Placed :=
  (h.goOn (p := .user) hp).congr rfl rfl (fun _ => rfl) fun _ _ => id

omit [DecidableEq φ] in
/-- The timer of a call in any stage schedules nobody itself. -/
theorem sleeper_cancel {k fd : ℕ} {event : Event} {e : ℕ} {st : Stage} :
    (⟨.cancel k fd event, e, st⟩ : Alarm φ).sleeper = none := by
  simp [Alarm.sleeper]

/-- A timer changes, and schedules nobody else. -/
theorem Placed.setAlarm (h : s.Placed) {t : ℕ} {b : Alarm φ}
    (hb : b.sleeper = (s.alarms t).bind Alarm.sleeper) : (s.setAlarm t b).Placed := by
  refine h.congr rfl rfl (fun u => ?_) fun _ _ => id
  by_cases hut : u = t
  · subst hut
    simp [hb]
  · simp [hut]

theorem Placed.cancelTimer (h : s.Placed) {timer : Option ℕ} {k fd : ℕ} {event : Event}
    (hcb : ∀ t ∈ timer, ∃ a, s.alarms t = some a ∧ a.cb = .cancel k fd event) :
    (s.cancelTimer timer).Placed := by
  unfold IoWaits.cancelTimer
  split
  · exact h
  · rename_i t
    obtain ⟨⟨cb, e, st⟩, ha, rfl⟩ := hcb t rfl
    rw [ha]
    dsimp only
    split
    · exact h.setAlarm (by rw [ha, Option.bind_some, sleeper_cancel, sleeper_cancel])
    · exact h

/-! ### Critical sections -/

/-- The fiber whose registration is in a slot. -/
def fiberIn (slots : Slots Unit φ κ) (ev : Event) : Option φ :=
  (slots ev).bind Registration.fiber

section Slots

omit [DecidableEq φ]

theorem fiberIn_eq_some {slots : Slots Unit φ κ} {ev : Event} {f : φ} :
    fiberIn slots ev = some f ↔ slots ev = some ⟨(), .fiber f⟩ := by
  unfold fiberIn
  rcases slots ev with _ | ⟨⟨⟩, k | g⟩ <;> simp [Registration.fiber]

theorem holds_iff {fd : ℕ} {slots : Slots Unit φ κ} (h : (s.held fd).channel = .of slots)
    (ev : Event) (f : φ) : s.Holds fd ev f ↔ fiberIn slots ev = some f := by
  rw [Holds, h, Channel.getEventCtx_of, EventCtx.registration_of, fiberIn_eq_some]

theorem holds_update {fd : ℕ} {h' : Held Unit φ κ} {slots : Slots Unit φ κ}
    (h : h'.channel = .of slots) (ev : Event) (f : φ) :
    Holds { s with held := Function.update s.held fd h' } fd ev f ↔ fiberIn slots ev = some f :=
  holds_iff (by simpa using h) ev f

theorem holds_update_ne {fd fd' : ℕ} (hfd : fd' ≠ fd) {h' : Held Unit φ κ} (ev : Event) (f : φ) :
    Holds { s with held := Function.update s.held fd h' } fd' ev f ↔ s.Holds fd' ev f := by
  simp [Holds, hfd]

/-- The fibers that are scheduled when slots are emptied. -/
theorem fibersOf_swept (slots : Slots Unit φ κ) (evs : Events) :
    fibersOf ((if evs.read then Held.tasksOf slots .read else []) ++
      if evs.write then Held.tasksOf slots .write else []) =
      (if evs.read then fiberIn slots .read else none).toList ++
        (if evs.write then fiberIn slots .write else none).toList := by
  have hone : ∀ (b : Bool) (ev : Event), fibersOf (if b then Held.tasksOf slots ev else []) =
      (if b then fiberIn slots ev else none).toList := by
    intro b ev
    cases b with
    | false => rfl
    | true =>
        rcases hs : slots ev with _ | ⟨⟨⟩, k | g⟩ <;>
          simp [fibersOf, Held.tasksOf, fiberIn, Registration.fiber, hs]
  rw [fibersOf, List.filterMap_append]
  exact congrArg₂ _ (hone evs.read .read) (hone evs.write .write)

end Slots

theorem count_toList (o : Option φ) (f : φ) : o.toList.count f = if o = some f then 1 else 0 := by
  cases o with
  | none => rfl
  | some g => simp [List.count_singleton]

/-- How often a fiber is scheduled when slots are emptied. -/
theorem count_swept (slots : Slots Unit φ κ) (evs : Events) (f : φ) :
    (fibersOf ((if evs.read then Held.tasksOf slots .read else []) ++
      if evs.write then Held.tasksOf slots .write else [])).count f =
      (if evs.read = true ∧ fiberIn slots .read = some f then 1 else 0) +
        if evs.write = true ∧ fiberIn slots .write = some f then 1 else 0 := by
  rw [fibersOf_swept, List.count_append, count_toList, count_toList]
  cases evs.read <;> cases evs.write <;> simp

/-- A fiber whose slot is emptied is scheduled, and no other. -/
theorem At.sweep {fd : ℕ} {slots : Slots Unit φ κ} {evs : Events} {f : φ} {w : Place}
    {g : Held Unit φ κ} (hc : (s.held fd).channel = .of slots)
    (hc' : g.channel = .of (Held.clear slots evs)) (hat : s.At f w) :
    { s with
      held := Function.update s.held fd g
      tasks := s.tasks ++ fibersOf ((if evs.read then Held.tasksOf slots .read else []) ++
        if evs.write then Held.tasksOf slots .write else []) }.At f
      (w.swept fd evs) := by
  have hin : ∀ ev, fiberIn slots ev = some f ↔ w = .slot fd ev := fun ev =>
    (holds_iff hc ev f).symm.trans (hat.slot fd ev)
  have hcount := count_swept slots evs f
  simp only [hin] at hcount
  have hslot : ∀ fd' ev, IoWaits.Holds { s with held := Function.update s.held fd g } fd' ev f ↔
      w = .slot fd' ev ∧ ¬ (fd' = fd ∧ evs.has ev) := by
    intro fd' ev
    by_cases hfd : fd' = fd
    · subst hfd
      rw [holds_update hc', ← hin, fiberIn, fiberIn, Held.clear]
      by_cases hev : evs.has ev <;> simp [hev]
    · rw [holds_update_ne hfd, hat.slot fd' ev]
      simp [hfd]
  constructor
  case slot =>
    intro fd' ev
    refine (hslot fd' ev).trans ?_
    cases w with
    | slot fd₀ ev₀ =>
        rw [Place.swept]
        split
        · rename_i hswept
          refine iff_of_false ?_ (by simp)
          rintro ⟨heq, hnot⟩
          obtain ⟨rfl, rfl⟩ := Place.slot.inj heq
          exact hnot hswept
        · rename_i hkept
          refine ⟨And.left, fun heq => ⟨heq, ?_⟩⟩
          obtain ⟨rfl, rfl⟩ := Place.slot.inj heq
          exact hkept
    | _ => simp [Place.swept]
  case queue =>
    rw [List.count_append, hat.queue, hcount]
    cases w with
    | slot fd₀ ev₀ =>
        by_cases hfd : fd₀ = fd
        · cases ev₀ <;> by_cases hr : evs.read <;> by_cases hw : evs.write <;>
            simp [Place.swept, hfd, Events.has, hr, hw]
        · simp [Place.swept, hfd]
    | _ => simp [Place.swept]
  case timer =>
    intro t
    refine (hat.timer t).trans ?_
    cases w with
    | slot fd₀ ev₀ =>
        rw [Place.swept]
        split <;> simp
    | _ => simp [Place.swept]

/-- A channel changes that no fiber is in, before or after. -/
theorem At.held {fd : ℕ} {slots slots' : Slots Unit φ κ} {g : Held Unit φ κ} {f : φ} {w : Place}
    (hc : (s.held fd).channel = .of slots) (hc' : g.channel = .of slots')
    (hsame : ∀ ev, fiberIn slots' ev = some f ↔ fiberIn slots ev = some f) (hat : s.At f w) :
    { s with held := Function.update s.held fd g }.At f w := by
  refine ⟨fun fd' ev => ?_, hat.queue, hat.timer⟩
  by_cases hfd : fd' = fd
  · subst hfd
    exact ((holds_update hc' ev f).trans (hsame ev)).trans
      ((holds_iff hc ev f).symm.trans (hat.slot fd' ev))
  · exact (holds_update_ne hfd ev f).trans (hat.slot fd' ev)

/-- A fiber is registered. -/
theorem At.fill {fd : ℕ} {slots : Slots Unit φ κ} {g : Held Unit φ κ} {ev : Event} {f : φ}
    (hc : (s.held fd).channel = .of slots)
    (hc' : g.channel = .of (Function.update slots ev (some ⟨(), .fiber f⟩)))
    (hat : s.At f .nowhere) :
    { s with held := Function.update s.held fd g }.At f (.slot fd ev) := by
  refine ⟨fun fd' ev' => ?_, hat.queue, fun t => (hat.timer t).trans (by simp)⟩
  have hnot : ¬ s.Holds fd' ev' f := fun h => nomatch (hat.slot fd' ev').mp h
  by_cases hfd : fd' = fd
  · subst hfd
    refine (holds_update hc' ev' f).trans ?_
    rw [holds_iff hc, fiberIn_eq_some] at hnot
    rw [fiberIn_eq_some]
    by_cases hev : ev' = ev
    · subst hev
      simp
    · rw [Function.update_of_ne hev]
      exact iff_of_false hnot fun heq => hev (Place.slot.inj heq).2.symm
  · refine (holds_update_ne hfd ev' f).trans ?_
    exact iff_of_false hnot fun heq => hfd (Place.slot.inj heq).1.symm

/-- The section registers this fiber. -/
def Registers (op : Held.Op Unit φ κ) (r : Bool) (f : φ) (ev : Event) : Prop :=
  r = true ∧ op.accepted = [(ev, ⟨(), .fiber f⟩)]

/-- **One critical section** that drops no fiber has the wake-up of a fiber that it registers,
and moves those of others. -/
theorem section_at {fd : ℕ} {op : Held.Op Unit φ κ} {r : Bool} {slots : Slots Unit φ κ}
    (hc : (s.held fd).channel = .of slots) (hsec : s.section_ fd op = some (r, s'))
    (hdrop : ∀ x ∈ op.dropped (s.held fd).channel, x.2.fiber = none) :
    (∃ slots', (s'.held fd).channel = .of slots') ∧
      (∀ f w, s.At f w → (∀ ev, ¬ Registers op r f ev) → ∃ w', s'.At f w' ∧ w.Moves w') ∧
      ∀ f ev, Registers op r f ev → s.At f .nowhere → s'.At f (.slot fd ev) := by
  obtain ⟨h, hexec, rfl⟩ := section_cases hsec
  obtain ⟨r', h', hexec', hcases⟩ := Held.exec_cases (h := { s.held fd with scheduled := [] }) hc op
  obtain ⟨rfl, rfl⟩ := Prod.mk.inj (Except.ok.inj (hexec.symm.trans hexec'))
  have hnone : op.accepted = [] → ∀ r f ev, ¬ Registers op r f ev := by
    rintro hacc r f ev ⟨-, hacc'⟩
    rw [hacc] at hacc'
    cases hacc'
  rcases hcases with ⟨rfl, rfl⟩ | ⟨ev, ⟨⟨⟩, work⟩, rfl, hacc, -, hfree, hc', hsch⟩ |
    ⟨ev, reg, rfl, hacc, hout, hheld, hc', hsch⟩ | ⟨evs, i, rfl, hacc, -, rfl⟩
  · refine ⟨⟨slots, by simpa using hc⟩, fun f w hat _ => ⟨w, ?_, .inl rfl⟩,
      fun _ _ h => nomatch h.1⟩
    have hheld := hat.held hc (g := { s.held fd with scheduled := [] }) hc fun _ => Iff.rfl
    simpa [fibersOf] using hheld
  · simp only [hsch, fibersOf, List.filterMap_nil, List.append_nil]
    refine ⟨⟨_, by simpa using hc'⟩, fun f w hat hnot => ⟨w, ?_, .inl rfl⟩, ?_⟩
    · have hf : work ≠ .fiber f := by
        rintro rfl
        exact hnot ev ⟨rfl, hacc⟩
      refine hat.held hc hc' fun ev' => ?_
      by_cases hev : ev' = ev
      · subst hev
        rw [fiberIn_eq_some, fiberIn_eq_some, Function.update_self, hfree]
        simp [hf]
      · rw [fiberIn, fiberIn, Function.update_of_ne hev]
    · rintro f ev' ⟨-, hacc'⟩ hat
      obtain ⟨rfl, hwork⟩ := Prod.mk.inj (List.singleton_inj.mp (hacc.symm.trans hacc'))
      obtain ⟨-, rfl⟩ := Registration.mk.inj hwork
      exact hat.fill hc hc'
  · simp only [hsch, fibersOf, List.filterMap_nil, List.append_nil]
    refine ⟨⟨_, by simpa using hc'⟩, fun f w hat _ => ⟨w, ?_, .inl rfl⟩,
      fun f ev hreg => absurd hreg (hnone hacc _ f ev)⟩
    have hk := hdrop (ev, reg) (by rw [hout]; exact List.mem_singleton_self _)
    refine hat.held hc hc' fun ev' => ?_
    by_cases hev : ev' = ev
    · subst hev
      rw [fiberIn_eq_some, fiberIn_eq_some, Function.update_self, hheld]
      refine iff_of_false nofun fun heq => ?_
      obtain rfl := Option.some.inj heq
      cases hk
    · rw [fiberIn, fiberIn, Function.update_of_ne hev]
  · refine ⟨⟨Held.clear slots evs, by simp [Held.sweep]⟩, fun f w hat _ => ⟨_, hat.sweep
      (g := { Held.sweep _ slots evs with scheduled := [] }) hc rfl, ?_⟩,
      fun f ev hreg => absurd hreg (hnone hacc _ f ev)⟩
    cases w with
    | slot fd' ev =>
        rw [Place.swept]
        split
        · exact .inr ⟨⟨fd', ev, rfl⟩, rfl⟩
        · exact .inl rfl
    | _ => exact .inl rfl

theorem parks_moves {p : FiberPc} {w w' : Place} (h : p.Parks w) (hw : w.Moves w') :
    p.Parks w' := by
  rcases hw with rfl | ⟨⟨fd, ev, rfl⟩, rfl⟩
  · exact h
  · cases p with
    | io c script phase =>
        cases phase <;> first | exact .inr rfl | cases h
    | spawned => cases h
    | sleeping t => exact .inr rfl
    | asleep t => exact .inr rfl
    | fresh => cases h
    | user => cases h

omit [DecidableEq φ] in
/-- Every channel stays two slots in a section of one. -/
theorem slotted_section {fd : ℕ} {op : Held.Op Unit φ κ} {r : Bool}
    (h : ∀ fd, ∃ slots, (s.held fd).channel = .of slots) (hsec : s.section_ fd op = some (r, s'))
    (hfd : ∃ slots, (s'.held fd).channel = .of slots) :
    ∀ fd, ∃ slots, (s'.held fd).channel = .of slots := by
  intro fd'
  by_cases heq : fd' = fd
  · exact heq ▸ hfd
  · obtain ⟨_, -, rfl⟩ := section_cases hsec
    simpa [heq] using h fd'

/-- A section that neither registers nor drops a fiber. -/
theorem Placed.section_ (h : s.Placed) {fd : ℕ} {op : Held.Op Unit φ κ} {r : Bool}
    (hsec : s.section_ fd op = some (r, s'))
    (hdrop : ∀ x ∈ op.dropped (s.held fd).channel, x.2.fiber = none)
    (hreg : ∀ f ev, ¬ Registers op r f ev) : s'.Placed := by
  obtain ⟨slots, hc⟩ := h.slotted fd
  obtain ⟨hfd, hmoves, -⟩ := section_at hc hsec hdrop
  refine ⟨slotted_section h.slotted hsec hfd, fun f => ?_⟩
  obtain ⟨w, hat, hparks⟩ := h.place f
  obtain ⟨w', hat', hw⟩ := hmoves f w hat (hreg f)
  have hpc : s'.pc f = s.pc f := by
    obtain ⟨_, -, rfl⟩ := section_cases hsec
    rfl
  exact ⟨w', hat', hpc ▸ parks_moves hparks hw⟩

theorem Placed.critical (h : s.Placed) {fd : ℕ} {op : Held.Op Unit φ κ}
    (hproper : s.Proper (.critical fd op)) {r : Bool} (hsec : s.section_ fd op = some (r, s')) :
    s'.Placed := by
  refine h.section_ hsec (fun x hx => ?_) ?_
  · cases op with
    | removeEvent ev fails =>
        obtain ⟨reg, hreg, rfl⟩ := List.mem_map.mp hx
        simpa [Proper, Option.mem_toList.mp hreg] using hproper
    | _ => cases hx
  · rintro f ev ⟨-, hacc⟩
    cases op with
    | addEvent ev' cb this cur fails =>
        obtain ⟨k, rfl⟩ := Option.isSome_iff_exists.mp hproper
        obtain ⟨-, hreg⟩ := Prod.mk.inj (List.singleton_inj.mp hacc)
        cases hreg
    | _ => cases hacc

theorem Placed.cancelEvent (h : s.Placed) {t : ℕ} {fails : Bool}
    (hs : s.cancelEvent t fails = some s') : s'.Placed := by
  obtain ⟨k, fd, event, e, r, s₁, ha, hsec, rfl⟩ := cancelEvent_cases hs
  have h₁ : s₁.Placed := h.section_ hsec nofun fun f ev hreg => nomatch hreg.2
  have ha₁ : s₁.alarms t = some ⟨.cancel k fd event, e, .stored⟩ := by
    obtain ⟨_, -, rfl⟩ := section_cases hsec
    exact ha
  refine Placed.setInfo (h₁.setAlarm ?_)
  rw [ha₁, Option.bind_some, sleeper_cancel, sleeper_cancel]

theorem Placed.addEvent (h : s.Placed) {f : φ} {fails : Bool} {errno : ℤ}
    (hs : s.addEvent f fails errno = some s') : s'.Placed := by
  obtain ⟨c, script, r, timer, added, s₁, hf, hsec, rfl⟩ := addEvent_cases hs
  obtain ⟨slots, hc⟩ := h.slotted c.fd
  obtain ⟨hfd, hmoves, hreg⟩ := section_at hc hsec nofun
  have hslotted := slotted_section h.slotted hsec hfd
  have hpc : s₁.pc = s.pc := by
    obtain ⟨_, -, rfl⟩ := section_cases hsec
    rfl
  have hregs : ∀ g ev, Registers (.addEvent c.event none () f fails : Held.Op Unit φ κ) added g ev ↔
      added = true ∧ g = f ∧ ev = c.event := by
    intro g ev
    simp [Registers, Held.Op.accepted, Held.registered, and_comm, eq_comm]
  refine ⟨hslotted, fun g => ?_⟩
  obtain ⟨w, hat, hparks⟩ := h.place g
  by_cases hgf : g = f
  · subst hgf
    rw [hf] at hparks
    obtain rfl : w = .nowhere := hparks
    cases hadded : added with
    | true =>
        have hat' := hreg g c.event ((hregs g c.event).mpr ⟨hadded, rfl, rfl⟩) hat
        exact ⟨_, hat'.congr rfl rfl fun _ => rfl, by simp [FiberPc.Parks]⟩
    | false =>
        obtain ⟨w', hat', hw⟩ := hmoves g _ hat fun ev hr =>
          absurd (hr.1.symm.trans hadded) (by decide)
        refine ⟨w', hat'.congr rfl rfl fun _ => rfl, ?_⟩
        rcases hw with rfl | ⟨⟨_, _, hw⟩, -⟩
        · simp [FiberPc.Parks]
        · cases hw
  · obtain ⟨w', hat', hw⟩ := hmoves g w hat fun ev hr => hgf ((hregs g ev).mp hr).2.1
    refine ⟨w', hat'.congr rfl rfl fun _ => rfl, ?_⟩
    rw [goOn_pc, Function.update_of_ne hgf, hpc]
    exact parks_moves hparks hw

/-! ### The tasks and the timers -/

theorem At.push_self {f : φ} (hat : s.At f .nowhere) : (s.schedule [f]).At f .queue where
  slot fd ev := (hat.slot fd ev).trans (by simp)
  queue := by
    have hcount := hat.queue
    simpa [schedule, List.count_append] using hcount
  timer t := (hat.timer t).trans (by simp)

theorem At.push_other {f g : φ} {w : Place} (hat : s.At g w) (hgf : g ≠ f) :
    (s.schedule [f]).At g w where
  slot := hat.slot
  queue := by
    have hcount : [f].count g = 0 := by simp [Ne.symm hgf]
    rw [schedule, List.count_append, hcount]
    exact hat.queue
  timer := hat.timer

theorem At.pop_self {f : φ} (hat : s.At f .queue) :
    { s with tasks := s.tasks.erase f }.At f .nowhere where
  slot fd ev := (hat.slot fd ev).trans (by simp)
  queue := by
    rw [List.count_erase_self, hat.queue]
    rfl
  timer t := (hat.timer t).trans (by simp)

theorem At.pop_other {f g : φ} {w : Place} (hat : s.At g w) (hgf : g ≠ f) :
    { s with tasks := s.tasks.erase f }.At g w where
  slot := hat.slot
  queue := by
    rw [List.count_erase_of_ne hgf]
    exact hat.queue
  timer := hat.timer

/-- The timer of a sleeper is over. -/
theorem At.wake_self {f : φ} {t : ℕ} {b : Alarm φ} (hat : s.At f (.timer t))
    (hb : b.sleeper = none) : (s.setAlarm t b).At f .nowhere where
  slot fd ev := (hat.slot fd ev).trans (by simp)
  queue := hat.queue
  timer u := by
    by_cases hut : u = t
    · subst hut
      simp [hb]
    · rw [setAlarm_alarms, Function.update_of_ne hut, hat.timer u]
      simp [Ne.symm hut]

/-- A timer changes that was and is none of this fiber's. -/
theorem At.wake_other {g : φ} {w : Place} {t : ℕ} {b : Alarm φ} (hat : s.At g w)
    (hbefore : (s.alarms t).bind Alarm.sleeper ≠ some g) (hb : b.sleeper ≠ some g) :
    (s.setAlarm t b).At g w where
  slot := hat.slot
  queue := hat.queue
  timer u := by
    by_cases hut : u = t
    · subst hut
      rw [setAlarm_alarms, Function.update_self]
      exact iff_of_false hb fun hw => hbefore ((hat.timer u).mpr hw)
    · rw [setAlarm_alarms, Function.update_of_ne hut, hat.timer u]

/-- A fiber goes to sleep. -/
theorem At.sleep_self {f : φ} {t : ℕ} {b : Alarm φ} (hat : s.At f .nowhere)
    (hb : b.sleeper = some f) : (s.setAlarm t b).At f (.timer t) where
  slot fd ev := (hat.slot fd ev).trans (by simp)
  queue := hat.queue
  timer u := by
    by_cases hut : u = t
    · subst hut
      simp [hb]
    · rw [setAlarm_alarms, Function.update_of_ne hut, hat.timer u]
      simp [Ne.symm hut]

/-- Each fiber has its wake-up in the new state, the one that the turn is of a new one. -/
theorem Placed.turn (h : s.Placed) {f : φ} (hheld : s'.held = s.held)
    (hpc : ∀ g ≠ f, s'.pc g = s.pc g)
    (hself : ∀ w, s.At f w → (s.pc f).Parks w → ∃ w', s'.At f w' ∧ (s'.pc f).Parks w')
    (hother : ∀ g ≠ f, ∀ w, s.At g w → s'.At g w) : s'.Placed where
  slotted fd := hheld ▸ h.slotted fd
  place g := by
    obtain ⟨w, hat, hparks⟩ := h.place g
    by_cases hgf : g = f
    · subst hgf
      exact hself w hat hparks
    · exact ⟨w, hother g hgf w hat, hpc g hgf ▸ hparks⟩

theorem Placed.spawn (h : s.Placed) {f : φ} (hs : s.spawn f = some s') : s'.Placed := by
  obtain ⟨hf, rfl⟩ := spawn_cases hs
  refine h.turn (f := f) rfl (fun g hgf => Function.update_of_ne hgf ..) (fun w hat hparks => ?_)
    fun g hgf w hat => (hat.push_other hgf).congr rfl rfl fun _ => rfl
  rw [hf] at hparks
  obtain rfl : w = .nowhere := hparks
  exact ⟨.queue, hat.push_self.congr rfl rfl fun _ => rfl, by simp [schedule, FiberPc.Parks]⟩

theorem parks_resumed {p p' : FiberPc} (hp : p.resumed = some p') : p'.Parks .nowhere := by
  cases p with
  | io c script phase =>
      cases phase <;> cases hp
      rfl
  | spawned | asleep t =>
      cases hp
      rfl
  | _ => cases hp

theorem Placed.resume (h : s.Placed) {f : φ} (hs : s.resume f = some s') : s'.Placed := by
  obtain ⟨hmem, p, hp, rfl⟩ := resume_cases hs
  refine h.turn (f := f) rfl (fun g hgf => Function.update_of_ne hgf ..) (fun w hat _ => ?_)
    fun g hgf w hat => (hat.pop_other hgf).congr rfl rfl fun _ => rfl
  obtain rfl : w = .queue := by
    have hpos := List.count_pos_iff.mpr hmem
    by_contra hw
    rw [hat.queue, if_neg hw] at hpos
    exact absurd hpos (Nat.lt_irrefl 0)
  refine ⟨.nowhere, hat.pop_self.congr rfl rfl fun _ => rfl, ?_⟩
  rw [goOn_pc, Function.update_self]
  exact parks_resumed hp

theorem Placed.sleep (h : s.Placed) (hu : s.alarms s.numAlarms = none) {f : φ} {ms : ℕ}
    (hs : s.sleep f ms = some s') : s'.Placed := by
  obtain ⟨hf, rfl⟩ := sleep_cases hs
  refine h.turn (f := f) rfl (fun g hgf => Function.update_of_ne hgf ..) (fun w hat hparks => ?_)
    fun g hgf w hat => ?_
  · rw [hf] at hparks
    obtain rfl : w = .nowhere := hparks
    exact ⟨_, (hat.sleep_self (t := s.numAlarms) rfl).congr rfl rfl fun _ => rfl,
      by simp [FiberPc.Parks]⟩
  · refine (hat.wake_other (t := s.numAlarms) (b := ⟨.schedule f, s.now + ms, .armed⟩) ?_ ?_).congr
      rfl rfl fun _ => rfl
    · simp [hu]
    · simpa [Alarm.sleeper] using Ne.symm hgf

theorem Placed.arm (h : s.Placed) (hu : s.alarms s.numAlarms = none) {f : φ}
    (hs : s.arm f = some s') : s'.Placed := by
  obtain ⟨c, script, r, hf, ⟨-, rfl⟩ | ⟨-, rfl⟩⟩ := arm_cases hs
  · have h₁ : (s.setAlarm s.numAlarms
        ⟨.cancel c.info c.fd c.event, s.now + c.ms.toNat, .armed⟩).Placed :=
      h.setAlarm (by rw [hu, sleeper_cancel]; rfl)
    have h₂ := h₁.goOn (f := f) (p := .io c script (.timed r (some s.numAlarms)))
      fun w hw => by
        have hw : (s.pc f).Parks w := hw
        simpa [hf, FiberPc.Parks] using hw
    exact h₂.congr rfl rfl (fun _ => rfl) fun _ _ => id
  · exact h.goOn fun w hw => by simpa [hf, FiberPc.Parks] using hw

theorem Placed.lock (h : s.Placed) {t : ℕ} (hs : s.lock t = some s') : s'.Placed := by
  obtain ⟨cb, e, ha, ⟨f, rfl, rfl⟩ | ⟨k, fd, event, rfl, ⟨-, rfl⟩ | ⟨-, -, rfl⟩⟩⟩ := lock_cases hs
  · have hsleeper : (s.alarms t).bind Alarm.sleeper = some f := by rw [ha]; rfl
    refine h.turn (f := f) rfl (fun _ _ => rfl) (fun w hat hparks => ?_) fun g hgf w hat => ?_
    · obtain rfl := (hat.timer t).mp hsleeper
      refine ⟨.queue, (hat.wake_self rfl).push_self, ?_⟩
      show (s.pc f).Parks .queue
      cases hf : s.pc f with
      | sleeping u | asleep u => exact .inr rfl
      | io c script phase =>
          rw [hf] at hparks
          cases phase <;> simp [FiberPc.Parks] at hparks
      | _ =>
          rw [hf] at hparks
          cases hparks
    · refine (hat.wake_other (b := ⟨.schedule f, e, .over⟩) ?_ nofun).push_other hgf
      rw [hsleeper]
      exact fun heq => hgf (Option.some.inj heq).symm
  · exact h.setAlarm (by rw [ha, Option.bind_some, sleeper_cancel, sleeper_cancel])
  · exact Placed.setInfo (h.setAlarm (by rw [ha, Option.bind_some, sleeper_cancel, sleeper_cancel]))

/-! ### Turns -/

theorem Placed.step (h : s.Placed) (hsound : s.Sound) {l : Turn φ κ} (hproper : s.Proper l)
    (hs : s.step l = some s') : s'.Placed := by
  have hu := hsound.unset s.numAlarms le_rfl
  cases l with
  | tick ms =>
      obtain rfl := Option.some.inj hs
      exact h.congr rfl rfl (fun _ => rfl) fun _ _ => id
  | spawn f => exact h.spawn hs
  | resume f => exact h.resume hs
  | call f connect fd event ms =>
      have hcall : s.call f connect fd event ms = some s' := hs
      unfold IoWaits.call at hcall
      split at hcall
      · rename_i hf
        obtain rfl := Option.some.inj hcall
        have h₁ := h.goOn (f := f) (p := .io ⟨connect, fd, if connect then .write else event, ms,
          s.numInfos, s.now⟩ [] .retry) fun w hw => by simpa [hf, FiberPc.Parks] using hw
        exact h₁.congr rfl rfl (fun _ => rfl) fun _ _ => id
      · cases hcall
  | raw f r so =>
      obtain ⟨c, script, hf, hcases⟩ := raw_cases hs
      have hnowhere : ∀ w, (s.pc f).Parks w → w = .nowhere := fun w hw => by
        simpa [hf, FiberPc.Parks] using hw
      rcases hcases with ⟨o, rfl, -, -⟩ | ⟨rfl, -, -⟩ | ⟨rfl, -⟩
      · exact h.leave hnowhere
      · exact h.goOn hnowhere
      · exact h.goOn hnowhere
  | arm f => exact h.arm hu hs
  | addEvent f fails errno => exact h.addEvent hs
  | refuse f so =>
      obtain ⟨c, script, r, timer, errno, hf, rfl⟩ := refuse_cases hs
      refine Placed.leave (h.cancelTimer (hsound.call f c script _ hf).timer) fun w hw => ?_
      simpa [hf, FiberPc.Parks] using hw
  | suspend f =>
      obtain ⟨p, hp, rfl⟩ := suspend_cases hs
      refine h.goOn fun w hw => ?_
      cases hf : s.pc f with
      | io c script phase =>
          rw [hf] at hp hw
          cases phase <;> cases hp
          exact hw
      | sleeping t =>
          rw [hf] at hp hw
          cases hp
          exact hw
      | _ =>
          rw [hf] at hp
          cases hp
  | disarm f =>
      obtain ⟨c, script, r, timer, hf, rfl⟩ := disarm_cases hs
      refine (h.cancelTimer (hsound.call f c script _ hf).timer).goOn fun w hw => ?_
      simpa [hf, FiberPc.Parks] using hw
  | check f so =>
      obtain ⟨c, script, r, timer, hf, hcases⟩ := check_cases hs
      have hnowhere : ∀ w, (s.pc f).Parks w → w = .nowhere := fun w hw => by
        simpa [hf, FiberPc.Parks] using hw
      rcases hcases with ⟨-, rfl⟩ | ⟨-, rfl⟩
      · exact h.leave hnowhere
      · split
        · exact h.leave hnowhere
        · exact h.goOn hnowhere
  | sleep f ms => exact h.sleep hu hs
  | expire t =>
      obtain ⟨⟨cb, e, st⟩, ha, hst, -, rfl⟩ := expire_cases hs
      refine h.setAlarm ?_
      obtain rfl : st = .armed := hst
      rw [ha]
      cases cb <;> rfl
  | lock t => exact h.lock hs
  | store t =>
      obtain ⟨k, fd, event, e, ha, rfl⟩ := store_cases hs
      exact Placed.setInfo
        (h.setAlarm (by rw [ha, Option.bind_some, sleeper_cancel, sleeper_cancel]))
  | cancelEvent t fails => exact h.cancelEvent hs
  | critical fd op =>
      obtain ⟨⟨r, s₁⟩, hsec, rfl⟩ := Option.map_eq_some_iff.mp hs
      exact h.critical hproper hsec

theorem placed_start : (start : IoWaits φ κ).Placed where
  slotted _ := ⟨_, Channel.empty_eq_of⟩
  place f := by
    refine ⟨.nowhere, ⟨fun fd ev => ?_, rfl, fun t => by simp [start]⟩, rfl⟩
    refine iff_of_false ?_ nofun
    cases ev <;> exact nofun

/-- **Every wait is woken once.** In all interleavings of fibers, timers, `idle` and the calls
of others, the wake-up of a fiber that waits is in exactly one place: the slot of its event or
the timer of its sleep until that is emptied or fires, and the tasks from then on. A fiber
that does not wait has none. -/
theorem placed (h : (lts (φ := φ) (κ := κ)).Guarded Proper s) (f : φ) :
    ∃ w, s.At f w ∧ (s.pc f).Parks w := by
  have hs : s.Placed := h.invariant (fun _ hs => hs ▸ placed_start)
    fun _ _ _ hr hproper hstep hs => hs.step (sound hr) hproper hstep
  exact hs.place f

/-- A call that waits for the second time. -/
theorem placed_twice : ∃ s, lts.run start twice = some s ∧
    ∃ w, s.At () w ∧ (s.pc ()).Parks w := by
  obtain ⟨s, hs⟩ := Option.isSome_iff_exists.mp (show (lts.run start twice).isSome by decide)
  have hg : lts.Guarded Proper s :=
    @Lts.Guarded.of_run _ _ lts Proper start s twice (.init rfl) (by decide) hs
  exact ⟨s, hs, placed hg ()⟩

end IoWaits

end Easy.Base
