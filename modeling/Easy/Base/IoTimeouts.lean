import Mathlib.Data.Fintype.Basic
import Easy.Base.IoWaitOnce

/-!
Which waits with a timeout come to an end.

The callback of a condition timer looks at `cancelled`, stores in it and cancels the event in
three steps, and the call that it is for goes on meanwhile. If the store comes after the call
has looked for itself, or before the event is registered, the cancel may find nothing, and the
next callback takes the call for cancelled: then nothing ends the wait.
-/

namespace Easy.Base

open Lib

/-- The event of the wait is registered, and the timer set for it. -/
def Phase.Waiting : Phase → ℕ → Prop
  | .added _ timer, t | .suspended _ timer, t => timer = some t
  | _, _ => False

/-- From `addEvent` to the look at `cancelled`. -/
def Phase.Awaits : Phase → ℕ → Prop
  | .added _ timer, t | .suspended _ timer, t | .woken _ timer, t | .check _ timer, t =>
    timer = some t
  | _, _ => False

instance (phase : Phase) (t : ℕ) : Decidable (phase.Awaits t) := by
  unfold Phase.Awaits
  split <;> infer_instance

def FiberPc.Awaits : FiberPc → ℕ → Prop
  | .io _ _ phase, t => phase.Awaits t
  | _, _ => False

instance (p : FiberPc) (t : ℕ) : Decidable (p.Awaits t) := by
  unfold FiberPc.Awaits
  split <;> infer_instance

/-- The callback has stored in the `timer_info`. -/
def Stage.Past (st : Stage) : Prop := st = .stored ∨ st = .over

theorem Phase.Waiting.timer {phase : Phase} {t : ℕ} (h : phase.Waiting t) :
    phase.timer = some t := by
  cases phase <;> first | exact h | cases h

theorem Phase.Awaits.timer {phase : Phase} {t : ℕ} (h : phase.Awaits t) :
    phase.timer = some t := by
  cases phase <;> first | exact h | cases h

namespace IoWaits

variable {φ κ : Type*} [DecidableEq φ] {s s' : IoWaits φ κ}

/-- A callback stores while its own wait is not over, and `epoll_ctl` does not fail in it. -/
def Timely (s : IoWaits φ κ) : Turn φ κ → Prop
  | .store t => ∃ f, (s.pc f).Awaits t
  | .cancelEvent _ fails => fails = false
  | _ => True

instance [Fintype φ] : (l : Turn φ κ) → Decidable (s.Timely l)
  | .store _ => Fintype.decidableExistsFintype
  | .cancelEvent _ fails => instDecidableEqBool fails false
  | .tick _ | .spawn _ | .resume _ | .call .. | .raw .. | .arm _ | .addEvent .. | .refuse ..
  | .suspend _ | .disarm _ | .check .. | .sleep .. | .expire _ | .lock _ | .critical .. =>
      isTrue trivial

/-- A wait with a timer has its timer, or has been woken. -/
structure Attended (s : IoWaits φ κ) : Prop where
  timed : ∀ f c script r t, s.pc f = .io c script (.timed r (some t)) →
    ∃ a, s.alarms t = some a ∧ ¬ a.stage.Past
  waits : ∀ f c script phase t, s.pc f = .io c script phase → phase.Waiting t →
    f ∈ s.tasks ∨ ∃ a, s.alarms t = some a ∧ a.stage ≠ .over
  cancelled : ∀ f c script phase, s.pc f = .io c script phase →
    (s.infos c.info).info.cancelled = true →
      ∃ t, phase.Awaits t ∧ ∃ a, s.alarms t = some a ∧ a.stage.Past

/-- A fiber goes on, with what is asked of it. -/
theorem Attended.goOn (h : s.Attended) {f : φ} {p : FiberPc}
    (htimed : ∀ c script r t, p = .io c script (.timed r (some t)) →
      ∃ a, s.alarms t = some a ∧ ¬ a.stage.Past)
    (hwaits : ∀ c script phase t, p = .io c script phase → phase.Waiting t →
      f ∈ s.tasks ∨ ∃ a, s.alarms t = some a ∧ a.stage ≠ .over)
    (hcancelled : ∀ c script phase, p = .io c script phase →
      (s.infos c.info).info.cancelled = true →
        ∃ t, phase.Awaits t ∧ ∃ a, s.alarms t = some a ∧ a.stage.Past) :
    (s.goOn f p).Attended := by
  have hpc : ∀ {g : φ} {q : FiberPc}, (s.goOn f p).pc g = q → g = f ∧ q = p ∨ s.pc g = q := by
    intro g q hg
    by_cases hgf : g = f
    · subst hgf
      rw [goOn_pc, Function.update_self] at hg
      exact .inl ⟨rfl, hg.symm⟩
    · rw [goOn_pc, Function.update_of_ne hgf] at hg
      exact .inr hg
  constructor
  case timed =>
    intro g c script r t hg
    rcases hpc hg with ⟨-, hp⟩ | hg
    · exact htimed c script r t hp.symm
    · exact h.timed g c script r t hg
  case waits =>
    intro g c script phase t hg hw
    rcases hpc hg with ⟨rfl, hp⟩ | hg
    · exact hwaits c script phase t hp.symm hw
    · exact h.waits g c script phase t hg hw
  case cancelled =>
    intro g c script phase hg hc
    rcases hpc hg with ⟨-, hp⟩ | hg
    · exact hcancelled c script phase hp.symm hc
    · exact h.cancelled g c script phase hg hc

/-- A fiber goes on that nothing is asked of. -/
theorem Attended.other (h : s.Attended) {f : φ} {p : FiberPc}
    (hp : ∀ c script phase, p ≠ .io c script phase) : (s.goOn f p).Attended :=
  h.goOn (fun c script _ _ heq => absurd heq (hp c script _))
    (fun c script phase _ heq => absurd heq (hp c script phase))
    fun c script phase heq => absurd heq (hp c script phase)

/-- A call goes on from a phase that awaits no more than the next. -/
theorem Attended.io (h : s.Attended) {f : φ} {c : IoCall} {script script' : List Attempt}
    {phase phase' : Phase} (hf : s.pc f = .io c script phase)
    (htimed : ∀ r t, phase' ≠ .timed r (some t))
    (hwaits : ∀ t, phase'.Waiting t → phase.Waiting t)
    (hawaits : ∀ t, phase.Awaits t → phase'.Awaits t) :
    (s.goOn f (.io c script' phase')).Attended := by
  refine h.goOn (fun c' script₁ r t heq => ?_) (fun c' script₁ phase₁ t heq hw => ?_)
    fun c' script₁ phase₁ heq hc => ?_
  · obtain ⟨-, -, hphase⟩ := FiberPc.io.inj heq
    exact absurd hphase (htimed r t)
  · obtain ⟨-, -, rfl⟩ := FiberPc.io.inj heq
    exact h.waits f c script phase t hf (hwaits t hw)
  · obtain ⟨rfl, -, rfl⟩ := FiberPc.io.inj heq
    obtain ⟨t, ht, ha⟩ := h.cancelled f c script phase hf hc
    exact ⟨t, hawaits t ht, ha⟩

omit [DecidableEq φ] in
/-- What fibers share changes, but for what is stored. -/
theorem Attended.congr (h : s.Attended) (hpc : s'.pc = s.pc) (htasks : ∀ f ∈ s.tasks, f ∈ s'.tasks)
    (halarms : ∀ t a, s.alarms t = some a → s'.alarms t = some a)
    (hinfos : ∀ k, (s'.infos k).info = (s.infos k).info) : s'.Attended := by
  constructor
  case timed =>
    intro f c script r t hf
    obtain ⟨a, ha, hst⟩ := h.timed f c script r t (hpc ▸ hf)
    exact ⟨a, halarms t a ha, hst⟩
  case waits =>
    intro f c script phase t hf hw
    rcases h.waits f c script phase t (hpc ▸ hf) hw with hmem | ⟨a, ha, hst⟩
    · exact .inl (htasks f hmem)
    · exact .inr ⟨a, halarms t a ha, hst⟩
  case cancelled =>
    intro f c script phase hf hc
    obtain ⟨t, ht, a, ha, hst⟩ := h.cancelled f c script phase (hpc ▸ hf) (hinfos c.info ▸ hc)
    exact ⟨t, ht, a, halarms t a ha, hst⟩

omit [DecidableEq φ] in
/-- A timer changes, with what is asked of it. -/
theorem Attended.setAlarm (h : s.Attended) {t : ℕ} {a b : Alarm φ} (ha : s.alarms t = some a)
    (htimed : ∀ f c script r, s.pc f = .io c script (.timed r (some t)) → ¬ b.stage.Past)
    (hwaits : ∀ f c script phase, s.pc f = .io c script phase → phase.Waiting t →
      f ∈ s.tasks ∨ b.stage ≠ .over)
    (hpast : a.stage.Past → b.stage.Past) : (s.setAlarm t b).Attended := by
  have hne : ∀ {u : ℕ} {x : Alarm φ}, u ≠ t → s.alarms u = some x →
      (s.setAlarm t b).alarms u = some x := by
    intro u x hut hx
    rwa [setAlarm_alarms, Function.update_of_ne hut]
  have hself : (s.setAlarm t b).alarms t = some b := Function.update_self ..
  constructor
  case timed =>
    intro f c script r u hf
    obtain ⟨x, hx, hst⟩ := h.timed f c script r u hf
    by_cases hut : u = t
    · subst hut
      exact ⟨b, hself, htimed f c script r hf⟩
    · exact ⟨x, hne hut hx, hst⟩
  case waits =>
    intro f c script phase u hf hw
    by_cases hut : u = t
    · subst hut
      rcases hwaits f c script phase hf hw with hmem | hst
      · exact .inl hmem
      · exact .inr ⟨b, hself, hst⟩
    · rcases h.waits f c script phase u hf hw with hmem | ⟨x, hx, hst⟩
      · exact .inl hmem
      · exact .inr ⟨x, hne hut hx, hst⟩
  case cancelled =>
    intro f c script phase hf hc
    obtain ⟨u, hu, x, hx, hst⟩ := h.cancelled f c script phase hf hc
    by_cases hut : u = t
    · subst hut
      obtain rfl := Option.some.inj (ha.symm.trans hx)
      exact ⟨u, hu, b, hself, hpast hst⟩
    · exact ⟨u, hu, x, hne hut hx, hst⟩

omit [DecidableEq φ] in
/-- Only one fiber has set a timer. -/
theorem Sound.owner (h : s.Sound) {f g : φ} {c c' : IoCall} {script script' : List Attempt}
    {phase phase' : Phase} {t : ℕ} (hf : s.pc f = .io c script phase)
    (hg : s.pc g = .io c' script' phase') (ht : phase.timer = some t)
    (ht' : phase'.timer = some t) : f = g := by
  obtain ⟨a, ha, hcb⟩ := (h.call f c script phase hf).timer t ht
  obtain ⟨a', ha', hcb'⟩ := (h.call g c' script' phase' hg).timer t ht'
  obtain rfl := Option.some.inj (ha.symm.trans ha')
  exact h.uniq f g c c' script script' phase phase' hf hg
    (OnTimer.cancel.inj (hcb.symm.trans hcb')).1

/-- A fiber that does not wait is no task any more. -/
theorem Attended.pop (h : s.Attended) {f : φ}
    (hf : ∀ c script phase t, s.pc f = .io c script phase → ¬ phase.Waiting t) :
    { s with tasks := s.tasks.erase f }.Attended where
  timed := h.timed
  waits g c script phase t hg hw := by
    rcases h.waits g c script phase t hg hw with hmem | ha
    · have hgf : g ≠ f := by
        rintro rfl
        exact hf c script phase t hg hw
      exact .inl ((List.mem_erase_of_ne hgf).mpr hmem)
    · exact .inr ha
  cancelled := h.cancelled

/-- A call returns. -/
theorem Attended.leave (h : s.Attended) {f : φ} {o : Outcome} : (s.leave f o).Attended := by
  refine (h.other (f := f) (p := .user) nofun).congr rfl (fun _ => id) (fun _ _ => id) fun k => ?_
  by_cases hk : k = o.call.info
  · subst hk
    simp [IoWaits.leave]
  · simp [IoWaits.leave, hk]

section Shared

omit [DecidableEq φ]

theorem Attended.schedule (h : s.Attended) {fs : List φ} : (s.schedule fs).Attended :=
  h.congr rfl (fun _ hf => List.mem_append_left _ hf) (fun _ _ => id) fun _ => rfl

theorem Attended.section_ (h : s.Attended) {fd : ℕ} {op : Held.Op Unit φ κ} {r : Bool}
    (hsec : s.section_ fd op = some (r, s')) : s'.Attended := by
  obtain ⟨_, -, rfl⟩ := section_cases hsec
  exact h.congr rfl (fun _ hf => List.mem_append_left _ hf) (fun _ _ => id) fun _ => rfl

/-- A call cancels its timer behind its wait. -/
theorem Attended.cancelTimer (h : s.Attended) (hsound : s.Sound) {f : φ} {c : IoCall}
    {script : List Attempt} {phase : Phase} (hf : s.pc f = .io c script phase)
    (htimed : ∀ r timer, phase ≠ .timed r timer) (hwaits : ∀ t, ¬ phase.Waiting t) :
    (s.cancelTimer phase.timer).Attended := by
  unfold IoWaits.cancelTimer
  split
  · exact h
  · rename_i t ht
    split
    · rename_i a ha
      split
      · rename_i hst
        refine h.setAlarm ha (fun g c' script' r hg => ?_) (fun g c' script' phase' hg hw => ?_) ?_
        · obtain rfl := hsound.owner hf hg ht rfl
          obtain ⟨-, -, hphase⟩ := FiberPc.io.inj (hf.symm.trans hg)
          exact absurd hphase (htimed r _)
        · obtain rfl := hsound.owner hf hg ht hw.timer
          obtain ⟨-, -, rfl⟩ := FiberPc.io.inj (hf.symm.trans hg)
          exact absurd hw (hwaits t)
        · rintro (hpast | hpast) <;> rw [hst] at hpast <;> cases hpast
      · exact h
    · exact h

/-- A timer is set. -/
theorem Attended.addTimer (h : s.Attended) (hu : s.alarms s.numAlarms = none) (ms : ℕ)
    (cb : OnTimer φ) : (s.addTimer ms cb).Attended := by
  refine h.congr rfl (fun _ => id) (fun t a ha => ?_) fun _ => rfl
  have hne : t ≠ s.numAlarms := by
    rintro rfl
    rw [hu] at ha
    cases ha
  exact (Function.update_of_ne hne ..).trans ha

end Shared

omit [DecidableEq φ] in
/-- The callback of a wait that is not over finds the call alive and not cancelled. -/
theorem Attended.lock (h : s.Attended) (hsound : s.Sound) {t : ℕ} (hs : s.lock t = some s') :
    s'.Attended := by
  obtain ⟨cb, e, ha, hcases⟩ := lock_cases hs
  have hpast : ∀ {st : Stage}, (⟨cb, e, .queued⟩ : Alarm φ).stage.Past → st.Past := by
    rintro st (hst | hst) <;> cases hst
  -- no call that has this timer in its wait finds itself cancelled
  have hgo : ∀ f c script phase, s.pc f = .io c script phase → phase.timer = some t →
      cb = .cancel c.info c.fd c.event ∧ (s.infos c.info).alive = true ∧
        (s.infos c.info).info.cancelled ≠ true := by
    intro f c script phase hf ht
    have hc := hsound.call f c script phase hf
    obtain ⟨a, ha', hcb⟩ := hc.timer t ht
    obtain rfl := Option.some.inj (ha.symm.trans ha')
    refine ⟨hcb, by simp [InfoPtr.alive, hc.frame], fun hcancelled => ?_⟩
    obtain ⟨u, hu, x, hx, hst⟩ := h.cancelled f c script phase hf hcancelled
    obtain rfl : u = t := Option.some.inj (hu.timer.symm.trans ht)
    obtain rfl := Option.some.inj (ha.symm.trans hx)
    rcases hst with hst | hst <;> cases hst
  rcases hcases with ⟨f, rfl, rfl⟩ | ⟨k, fd, event, rfl, ⟨hstop, rfl⟩ | ⟨-, -, rfl⟩⟩
  · refine Attended.schedule (h.setAlarm ha (fun g c script r hg => ?_)
      (fun g c script phase hg hw => ?_) hpast)
    · cases (hgo g c script _ hg rfl).1
    · cases (hgo g c script phase hg hw.timer).1
  · have hnone : ∀ f c script phase, s.pc f = .io c script phase → phase.timer = some t →
        False := by
      intro f c script phase hf ht
      obtain ⟨hcb, halive, hcancelled⟩ := hgo f c script phase hf ht
      obtain ⟨rfl, -, -⟩ := OnTimer.cancel.inj hcb
      rcases hstop with hstop | hstop
      · rw [halive] at hstop
        cases hstop
      · exact hcancelled hstop
    exact h.setAlarm ha (fun g c script r hg => (hnone g c script _ hg rfl).elim)
      (fun g c script phase hg hw => (hnone g c script phase hg hw.timer).elim) hpast
  · have h₁ : (s.setAlarm t ⟨.cancel k fd event, e, .locked⟩).Attended :=
      h.setAlarm ha (fun _ _ _ _ _ => by rintro (hst | hst) <;> cases hst)
        (fun _ _ _ _ _ _ => .inr nofun) hpast
    refine h₁.congr rfl (fun _ => id) (fun _ _ => id) fun j => ?_
    by_cases hj : j = k
    · subst hj
      rw [setInfo_infos, Function.update_self]
      rfl
    · rw [setInfo_infos, Function.update_of_ne hj]

omit [DecidableEq φ] in
/-- A store in time is for the wait that the call is in. -/
theorem Attended.store (h : s.Attended) (hsound : s.Sound) {t : ℕ} (htimely : s.Timely (.store t))
    (hs : s.store t = some s') : s'.Attended := by
  obtain ⟨k, fd, event, e, ha, rfl⟩ := store_cases hs
  obtain ⟨f, hf⟩ := htimely
  obtain ⟨c, script, phase, hpc, hawaits⟩ : ∃ c script phase, s.pc f = .io c script phase ∧
      phase.Awaits t := by
    cases hpc : s.pc f with
    | io c script phase => exact ⟨c, script, phase, rfl, by simpa [FiberPc.Awaits, hpc] using hf⟩
    | _ => simp [FiberPc.Awaits, hpc] at hf
  have hinfo : c.info = k := by
    obtain ⟨a, ha', hcb⟩ := (hsound.call f c script phase hpc).timer t hawaits.timer
    obtain rfl := Option.some.inj (ha.symm.trans ha')
    exact (OnTimer.cancel.inj hcb).1.symm
  have h₁ : (s.setAlarm t ⟨.cancel k fd event, e, .stored⟩).Attended := by
    refine h.setAlarm ha (fun g c' script' r hg => ?_) (fun _ _ _ _ _ _ => .inr nofun) ?_
    · obtain rfl := hsound.owner hpc hg hawaits.timer rfl
      obtain ⟨-, -, rfl⟩ := FiberPc.io.inj (hpc.symm.trans hg)
      cases hawaits
    · rintro (hst | hst) <;> cases hst
  refine ⟨h₁.timed, h₁.waits, fun g c' script' phase' hg hc => ?_⟩
  by_cases hk : c'.info = k
  · obtain rfl := hsound.uniq g f c' c script' script phase' phase hg hpc (hk.trans hinfo.symm)
    obtain ⟨-, -, rfl⟩ := FiberPc.io.inj (hpc.symm.trans hg)
    exact ⟨t, hawaits, _, Function.update_self .., .inl rfl⟩
  · rw [setInfo_infos, Function.update_of_ne hk] at hc
    exact h₁.cancelled g c' script' phase' hg hc

/-- A fiber whose event is cancelled is scheduled. -/
theorem At.cancelEvent {fd : ℕ} {ev : Event} {f : φ} {w : Place} {r : Bool} (hplaced : s.Placed)
    (hat : s.At f w) (hw : w = .slot fd ev ∨ w = .queue)
    (hsec : s.section_ fd (.cancelEvent ev false) = some (r, s')) : f ∈ s'.tasks := by
  obtain ⟨slots, hc⟩ := hplaced.slotted fd
  obtain ⟨h, hexec, rfl⟩ := section_cases hsec
  rcases hw with rfl | rfl
  · have hin : fiberIn slots ev = some f := (holds_iff hc ev f).mp ((hat.slot fd ev).mpr rfl)
    have hsome : (slots ev).isNone = false := by
      rw [fiberIn_eq_some.mp hin]
      rfl
    rw [Held.Op.exec, Held.cancelEvent_of (h := { s.held fd with scheduled := [] }) hc,
      if_neg (by simp [hsome])] at hexec
    obtain ⟨-, rfl⟩ := Prod.mk.inj (Except.ok.inj hexec)
    refine List.mem_append_right _ ?_
    cases ev <;>
      simp [Held.sweep, Held.tasksOf, fibersOf, Events.none, Events.add, fiberIn_eq_some.mp hin]
  · refine List.mem_append_left _ (List.count_pos_iff.mp ?_)
    rw [hat.queue]
    exact Nat.one_pos

/-- A cancel behind a store finds the wait, or finds it woken. -/
theorem Attended.cancelEvent (h : s.Attended) (hsound : s.Sound) (hplaced : s.Placed) {t : ℕ}
    {fails : Bool} (htimely : s.Timely (.cancelEvent t fails))
    (hs : s.cancelEvent t fails = some s') : s'.Attended := by
  obtain ⟨k, fd, event, e, r, s₁, ha, hsec, rfl⟩ := cancelEvent_cases hs
  obtain rfl : fails = false := htimely
  have h₁ := h.section_ hsec
  have hsame : s₁.pc = s.pc ∧ s₁.alarms = s.alarms ∧ s₁.infos = s.infos := by
    obtain ⟨_, -, rfl⟩ := section_cases hsec
    exact ⟨rfl, rfl, rfl⟩
  obtain ⟨hpc, halarms, hinfos⟩ := hsame
  have h₂ : (s₁.setAlarm t ⟨.cancel k fd event, e, .over⟩).Attended := by
    refine h₁.setAlarm (halarms ▸ ha) (fun f c script r hf => ?_)
      (fun f c script phase hf hw => .inl ?_) fun _ => .inr rfl
    · obtain ⟨a, ha', hst⟩ := h.timed f c script r t (hpc ▸ hf)
      obtain rfl := Option.some.inj (ha.symm.trans ha')
      exact absurd (.inl rfl) hst
    · rw [hpc] at hf
      obtain ⟨a, ha', hcb⟩ := (hsound.call f c script phase hf).timer t hw.timer
      obtain rfl := Option.some.inj (ha.symm.trans ha')
      obtain ⟨-, rfl, rfl⟩ := OnTimer.cancel.inj hcb
      obtain ⟨w, hat, hparks⟩ := hplaced.place f
      rw [hf] at hparks
      refine hat.cancelEvent hplaced ?_ hsec
      cases phase <;> first | exact hparks | cases hw
  refine h₂.congr rfl (fun _ => id) (fun _ _ => id) fun j => ?_
  by_cases hj : j = k
  · subst hj
    rw [setInfo_infos, Function.update_self]
    exact congrArg (fun i => (i j).info) hinfos.symm
  · rw [setInfo_infos, Function.update_of_ne hj]

/-- A call registers its event, and its timer is not past its store. -/
theorem Attended.addEvent (h : s.Attended) {f : φ} {fails : Bool} {errno : ℤ}
    (hs : s.addEvent f fails errno = some s') : s'.Attended := by
  obtain ⟨c, script, r, timer, added, s₁, hf, hsec, rfl⟩ := addEvent_cases hs
  have h₁ := h.section_ hsec
  have hf₁ : s₁.pc f = .io c script (.timed r timer) := by
    obtain ⟨_, -, rfl⟩ := section_cases hsec
    exact hf
  refine h₁.goOn (fun c' script' r' t heq => ?_) (fun c' script' phase t heq hw => ?_)
    fun c' script' phase heq hc => ?_
  · obtain ⟨-, -, hphase⟩ := FiberPc.io.inj heq
    cases added <;> cases hphase
  · obtain ⟨-, -, rfl⟩ := FiberPc.io.inj heq
    cases added with
    | true =>
        have ht : timer = some t := hw
        obtain ⟨a, ha, hst⟩ := h₁.timed f c script r t (by rw [hf₁, ht])
        exact .inr ⟨a, ha, fun hover => hst (.inr hover)⟩
    | false => cases hw
  · obtain ⟨rfl, -, -⟩ := FiberPc.io.inj heq
    obtain ⟨t, ht, -⟩ := h₁.cancelled f c script _ hf₁ hc
    cases ht

/-- A call begins that is not cancelled. -/
theorem Attended.call (h : s.Attended) (hsound : s.Sound) {f : φ} {connect : Bool} {fd : ℕ}
    {event : Event} {ms : BitVec 64} (hs : s.call f connect fd event ms = some s') :
    s'.Attended := by
  unfold IoWaits.call at hs
  split at hs
  · obtain rfl := Option.some.inj hs
    have h₁ : (s.setInfo s.numInfos ⟨⟨false⟩, true, 0⟩).Attended := by
      refine ⟨h.timed, h.waits, fun g c script phase hg hc => ?_⟩
      have hne : c.info ≠ s.numInfos := Nat.ne_of_lt (hsound.call g c script phase hg).info_lt
      rw [setInfo_infos, Function.update_of_ne hne] at hc
      exact h.cancelled g c script phase hg hc
    have h₂ : ((s.setInfo s.numInfos ⟨⟨false⟩, true, 0⟩).goOn f (.io ⟨connect, fd,
        if connect then .write else event, ms, s.numInfos, s.now⟩ [] .retry)).Attended := by
      refine h₁.goOn nofun (fun c script phase t heq hw => ?_) fun c script phase heq hc => ?_
      · obtain ⟨-, -, rfl⟩ := FiberPc.io.inj heq
        cases hw
      · obtain ⟨rfl, -, -⟩ := FiberPc.io.inj heq
        simp at hc
    exact h₂.congr rfl (fun _ => id) (fun _ _ => id) fun _ => rfl
  · cases hs

theorem not_waiting_resumed {p : FiberPc} {c : IoCall} {script : List Attempt} {phase : Phase}
    (hp : p.resumed = some (.io c script phase)) (t : ℕ) : ¬ phase.Waiting t := by
  cases p with
  | io c' script' phase' =>
      cases phase' <;> cases hp
      exact id
  | _ => cases hp

theorem Attended.step (h : s.Attended) (hsound : s.Sound) (hplaced : s.Placed) {l : Turn φ κ}
    (htimely : s.Timely l) (hs : s.step l = some s') : s'.Attended := by
  have hu := hsound.unset s.numAlarms le_rfl
  cases l with
  | tick ms =>
      obtain rfl := Option.some.inj hs
      exact h.congr rfl (fun _ => id) (fun _ _ => id) fun _ => rfl
  | spawn f =>
      obtain ⟨-, rfl⟩ := spawn_cases hs
      exact (h.other (f := f) (p := .spawned) nofun).schedule
  | resume f =>
      obtain ⟨-, p, hp, rfl⟩ := resume_cases hs
      have h₁ : (s.goOn f p).Attended := by
        cases hf : s.pc f with
        | io c script phase =>
            rw [hf] at hp
            cases phase <;> cases hp
            exact h.io hf nofun nofun fun _ ht => ht
        | spawned | asleep t =>
            rw [hf] at hp
            cases hp
            exact h.other nofun
        | _ =>
            rw [hf] at hp
            cases hp
      refine h₁.pop fun c script phase t hpc => ?_
      rw [goOn_pc, Function.update_self] at hpc
      exact not_waiting_resumed (hpc ▸ hp) t
  | call f connect fd event ms => exact h.call hsound hs
  | raw f r so =>
      obtain ⟨c, script, hf, ⟨o, rfl, -, -⟩ | ⟨rfl, -, -⟩ | ⟨rfl, -⟩⟩ := raw_cases hs
      · exact h.leave
      · exact h.io hf nofun nofun nofun
      · exact h.io hf nofun nofun nofun
  | arm f =>
      obtain ⟨c, script, r, hf, ⟨-, rfl⟩ | ⟨-, rfl⟩⟩ := arm_cases hs
      · have h₁ := h.addTimer hu c.ms.toNat (.cancel c.info c.fd c.event)
        refine h₁.goOn (fun c' script' r' t heq => ?_) (fun c' script' phase t heq hw => ?_)
          fun c' script' phase heq hc => ?_
        · obtain ⟨-, -, hphase⟩ := FiberPc.io.inj heq
          obtain ⟨-, ht⟩ := Phase.timed.inj hphase
          obtain rfl := Option.some.inj ht
          exact ⟨_, Function.update_self .., by rintro (hst | hst) <;> cases hst⟩
        · obtain ⟨-, -, rfl⟩ := FiberPc.io.inj heq
          cases hw
        · obtain ⟨rfl, -, -⟩ := FiberPc.io.inj heq
          obtain ⟨t, ht, -⟩ := h₁.cancelled f c script _ hf hc
          cases ht
      · exact h.io hf nofun nofun nofun
  | addEvent f fails errno => exact h.addEvent hs
  | refuse f so =>
      obtain ⟨c, script, r, timer, errno, hf, rfl⟩ := refuse_cases hs
      exact (h.cancelTimer hsound hf nofun fun _ => id).leave
  | suspend f =>
      obtain ⟨p, hp, rfl⟩ := suspend_cases hs
      cases hf : s.pc f with
      | io c script phase =>
          rw [hf] at hp
          cases phase <;> cases hp
          exact h.io hf nofun (fun _ ht => ht) fun _ ht => ht
      | sleeping t =>
          rw [hf] at hp
          cases hp
          exact h.other nofun
      | _ =>
          rw [hf] at hp
          cases hp
  | disarm f =>
      obtain ⟨c, script, r, timer, hf, rfl⟩ := disarm_cases hs
      have h₁ := h.cancelTimer hsound hf nofun fun _ => id
      have hf₁ := (congrFun (cancelTimer_pc s timer) f).trans hf
      exact h₁.io hf₁ nofun nofun fun _ ht => ht
  | check f so =>
      obtain ⟨c, script, r, timer, hf, ⟨-, rfl⟩ | ⟨hc, rfl⟩⟩ := check_cases hs
      · exact h.leave
      · split
        · exact h.leave
        · refine h.goOn nofun (fun c' script' phase t heq hw => ?_)
            fun c' script' phase heq hc' => ?_
          · obtain ⟨-, -, rfl⟩ := FiberPc.io.inj heq
            cases hw
          · obtain ⟨rfl, -, -⟩ := FiberPc.io.inj heq
            rw [hc] at hc'
            cases hc'
  | sleep f ms =>
      obtain ⟨-, rfl⟩ := sleep_cases hs
      exact (h.addTimer hu _ _).other nofun
  | expire t =>
      obtain ⟨a, ha, hst, -, rfl⟩ := expire_cases hs
      refine h.setAlarm ha (fun _ _ _ _ _ => ?_) (fun _ _ _ _ _ _ => .inr nofun) fun hpast => ?_
      · rintro (hpast | hpast) <;> cases hpast
      · rw [hst] at hpast
        rcases hpast with hpast | hpast <;> cases hpast
  | lock t => exact h.lock hsound hs
  | store t => exact h.store hsound htimely hs
  | cancelEvent t fails => exact h.cancelEvent hsound hplaced htimely hs
  | critical fd op =>
      obtain ⟨⟨r, s₁⟩, hsec, rfl⟩ := Option.map_eq_some_iff.mp hs
      exact h.section_ hsec

omit [DecidableEq φ] in
theorem attended_start : (start : IoWaits φ κ).Attended :=
  ⟨nofun, nofun, nofun⟩

/-- **A wait with a timeout ends** if every callback stores during its own wait: the fiber is a
task already, or the timer of the wait or its callback is still to cancel the event. -/
theorem attended (h : (lts (φ := φ) (κ := κ)).Guarded (fun s l => s.Proper l ∧ s.Timely l) s)
    {f : φ} {c : IoCall} {script : List Attempt} {r : Ret} {timer : Option ℕ}
    (hf : s.pc f = .io c script (.suspended r timer)) (hms : c.ms ≠ -1) :
    f ∈ s.tasks ∨ ∃ t a, timer = some t ∧ s.alarms t = some a ∧
      a.cb = .cancel c.info c.fd c.event ∧ a.stage ≠ .over := by
  obtain ⟨-, hs⟩ := h.invariant (I := fun s => s.Placed ∧ s.Attended)
    (fun _ hs => hs ▸ ⟨placed_start, attended_start⟩)
    fun _ _ _ hr hg hstep hs => ⟨hs.1.step (sound hr) hg.1 hstep,
      hs.2.step (sound hr) hs.1 hg.2 hstep⟩
  have hc := (sound h.reachable).call f c script _ hf
  obtain ⟨t, rfl⟩ := Option.ne_none_iff_exists'.mp (hc.timed trivial hms)
  rcases hs.waits f c script _ t hf rfl with hmem | ⟨a, ha, hst⟩
  · exact .inl hmem
  · obtain ⟨a', ha', hcb⟩ := hc.timer t rfl
    obtain rfl := Option.some.inj (ha.symm.trans ha')
    exact .inr ⟨t, a, rfl, ha, hcb, hst⟩

/-- The second wait of a call, with the callback of its timer between the store and the
cancel. -/
theorem attended_twice : ∃ s, lts.run start (twice ++ [.tick 100, .expire 1, .lock 1, .store 1]) =
    some s ∧ (() ∈ s.tasks ∨ ∃ t a, some 1 = some t ∧ s.alarms t = some a ∧
      a.cb = .cancel 0 5 .read ∧ a.stage ≠ .over) := by
  have hrun : (lts.run start (twice ++ [.tick 100, .expire 1, .lock 1, .store 1])).map
      (fun s => s.pc ()) = some (.io ⟨false, 5, .read, 100, 0, 0⟩
        [⟨⟨-1, EAGAIN⟩, .ready false⟩] (.suspended ⟨-1, EAGAIN⟩ (some 1))) := by decide
  obtain ⟨s, hs, hpc⟩ := Option.map_eq_some_iff.mp hrun
  have hg : lts.Guarded (fun s l => s.Proper l ∧ s.Timely l) s :=
    @Lts.Guarded.of_run _ _ lts (fun s l => s.Proper l ∧ s.Timely l) start s _ (.init rfl)
      (by decide) hs
  exact ⟨s, hs, attended hg hpc (by decide)⟩

/-- The callback of the first wait locks in time, and stores when the call has gone on. -/
def stale : List (Turn Unit ℕ) :=
  [.spawn (), .resume (), .call () false 5 .read 100, .raw () ⟨-1, EAGAIN⟩ ⟨⟨0, 0⟩, 0⟩, .arm (),
    .addEvent () false 0, .suspend (), .tick 100, .expire 0, .lock 0,
    .critical 5 (.dispatch ⟨true, false, false, false⟩ false), .resume (), .disarm (),
    .check () ⟨⟨0, 0⟩, 0⟩, .store 0, .cancelEvent 0 false, .raw () ⟨-1, EAGAIN⟩ ⟨⟨0, 0⟩, 0⟩,
    .arm (), .addEvent () false 0, .suspend (), .tick 100, .expire 1, .lock 1]

/-- Then nothing ends the second wait. -/
theorem attended_false : ∃ s : IoWaits Unit ℕ, lts.Reachable s ∧ s.pc () =
    .io ⟨false, 5, .read, 100, 0, 0⟩ [⟨⟨-1, EAGAIN⟩, .ready false⟩]
      (.suspended ⟨-1, EAGAIN⟩ (some 1)) ∧
    s.tasks = [] ∧ (s.alarms 0).map Alarm.stage = some .over ∧
      (s.alarms 1).map Alarm.stage = some .over ∧ s.numAlarms = 2 := by
  have hrun : (lts.run start stale).map (fun s => (s.pc (), s.tasks,
      (s.alarms 0).map Alarm.stage, (s.alarms 1).map Alarm.stage, s.numAlarms)) =
      some (.io ⟨false, 5, .read, 100, 0, 0⟩ [⟨⟨-1, EAGAIN⟩, .ready false⟩]
        (.suspended ⟨-1, EAGAIN⟩ (some 1)), [], some .over, some .over, 2) := by decide
  obtain ⟨s, hs, hstate⟩ := Lts.Reachable.of_map_run hrun (.init rfl)
  simp only [Prod.mk.injEq] at hstate
  exact ⟨s, hs, hstate⟩

end IoWaits

end Easy.Base
