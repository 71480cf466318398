import Easy.Base.IoWait

/-!
What a call comes to, whatever fibers and timers do meanwhile: the result that the function
has on the attempts it made, each waited for until readiness unless the `timer_info` was
cancelled; and a timeout only after its time.
-/

namespace Easy.Base

open Lib

/-! ### One call alone -/

/-- `retry` comes to the end of these attempts, and goes on. -/
def Passed (ms : BitVec 64) (script : List Attempt) : Prop :=
  ∀ rest, (retry ms ⟨false⟩ (script ++ rest)).returned = (retry ms ⟨false⟩ rest).returned

theorem passed_nil (ms : BitVec 64) : Passed ms [] := fun _ => rfl

/-- An interrupted call, or one that was waited for. -/
def Attempt.Over (a : Attempt) : Prop := a.Interrupted ∨ a.WouldBlock ∧ a.wait = .ready false

theorem Passed.snoc {ms : BitVec 64} {script : List Attempt} {a : Attempt} (h : Passed ms script)
    (ha : a.Over) : Passed ms (script ++ [a]) := by
  intro rest
  rw [List.append_assoc, h, List.singleton_append, retry]
  by_cases hint : a.Interrupted
  · rw [if_pos hint]
  · obtain ⟨hblock, hwait⟩ := ha.resolve_left hint
    rw [if_neg hint, if_pos hblock, hwait]
    simp [await_quiet (w := .ready false) rfl]

/-- What a function makes of its attempts. -/
def Outcome.Answers (o : Outcome) : Prop :=
  ∀ ctx : FdCtx, ctx.Blocking →
    if o.call.connect then
      (connectWithTimeout true (some ctx) o.call.ms o.script o.so).returned = some o.ret
    else ∀ timeout_so, ctx.getTimeout timeout_so = o.call.ms →
      (doIo true (some ctx) timeout_so o.script).returned = some o.ret

variable {ctx : FdCtx}

theorem doIo_of_blocking (h : ctx.Blocking) (timeout_so : ℤ) (script : List Attempt) :
    doIo true (some ctx) timeout_so script = retry (ctx.getTimeout timeout_so) ⟨false⟩ script := by
  obtain ⟨hclosed, hsocket, hnonblock⟩ := h
  simp [doIo, hclosed, hsocket, hnonblock]

/-- `do_io` answers what `retry` does with its last attempt. -/
theorem Passed.answers {c : IoCall} {script : List Attempt} {so : SoError} {r : Ret} {a : Attempt}
    (h : Passed c.ms script) (hc : c.connect = false)
    (ha : (retry c.ms ⟨false⟩ [a]).returned = some r) :
    Outcome.Answers ⟨c, script ++ [a], so, r⟩ := by
  intro ctx hctx
  simp only [hc, Bool.false_eq_true, if_false]
  intro timeout_so hms
  rw [doIo_of_blocking hctx, hms, h, ha]

/-- What `connect_with_timeout` returns that has waited. -/
def waited (ms : BitVec 64) (so : SoError) : Wait → Ret
  | .addEventFailed _ => so.status
  | w => if (TimerInfo.await ⟨false⟩ ms w).cancelled then ⟨-1, 1⟩ else so.status

theorem connect_of_blocking (h : ctx.Blocking) (ms : BitVec 64) (a : Attempt) (so : SoError) :
    (connectWithTimeout true (some ctx) ms [a] so).returned =
      some (if a.call.n = 0 then ⟨0, a.call.errno⟩
        else if a.call.n ≠ -1 ∨ a.call.errno ≠ EINPROGRESS then a.call
        else waited ms so a.wait) := by
  obtain ⟨hclosed, hsocket, hnonblock⟩ := h
  obtain ⟨r, w⟩ := a
  by_cases hn : r.n = 0
  · simp [connectWithTimeout, hclosed, hsocket, hnonblock, hn]
  by_cases hfail : r.n ≠ -1 ∨ r.errno ≠ EINPROGRESS
  · simp only [connectWithTimeout, hclosed, hsocket, hnonblock, hn, hfail, Bool.not_true,
      Bool.false_eq_true, if_false, if_true]
  · have hcancelled : ∀ t : TimerInfo, (if t.cancelled then (⟨-1, t.cancelled.toInt⟩ : Ret)
        else so.status) = if t.cancelled then ⟨-1, 1⟩ else so.status := by
      rintro ⟨_ | _⟩ <;> rfl
    cases w <;> simp only [connectWithTimeout, hclosed, hsocket, hnonblock, hn, hfail,
      Bool.not_true, Bool.false_eq_true, if_false, waited, ← hcancelled] <;> split <;> rfl

/-! ### All calls -/

/-- The call has lasted for its timeout. -/
def IoCall.Late (c : IoCall) (now : ℕ) : Prop := c.ms ≠ -1 ∧ c.began + c.ms.toNat ≤ now

theorem IoCall.Late.mono {c : IoCall} {now now' : ℕ} (h : c.Late now) (hle : now ≤ now') :
    c.Late now' := ⟨h.1, Nat.le_trans h.2 hle⟩

/-- The callback of a timer is scheduled, or has begun. -/
def Stage.Fired (st : Stage) : Prop := st = .queued ∨ st = .locked ∨ st = .stored

/-- What the raw call has returned. -/
def Phase.ret : Phase → Option Ret
  | .retry => none
  | .blocked r | .timed r _ | .refused r _ _ | .added r _ | .suspended r _ | .woken r _
  | .check r _ => some r

/-- The timer of the wait is set, if there is a timeout. -/
def Phase.Timed : Phase → Prop
  | .retry | .blocked _ => False
  | _ => True

/-- `r` is a result to wait after. -/
def IoCall.Waits (c : IoCall) (r : Ret) : Prop :=
  if c.connect then r.n = -1 ∧ r.errno = EINPROGRESS else r.n = -1 ∧ r.errno = EAGAIN

namespace IoWaits

variable {φ κ : Type*} [DecidableEq φ] {s s' : IoWaits φ κ}

/-- A call that has come this far. -/
structure CallOk (s : IoWaits φ κ) (c : IoCall) (script : List Attempt) (phase : Phase) :
    Prop where
  info_lt : c.info < s.numInfos
  frame : (s.infos c.info).frame = true
  began : c.began ≤ s.now
  late : (s.infos c.info).info.cancelled = true → c.Late s.now
  timer : ∀ t ∈ phase.timer, ∃ a, s.alarms t = some a ∧ a.cb = .cancel c.info c.fd c.event
  timed : phase.Timed → c.ms ≠ -1 → phase.timer ≠ none
  ret : ∀ r ∈ phase.ret, c.Waits r
  passed : if c.connect then script = [] else Passed c.ms script
  quiet : ∀ a ∈ script, a.wait ≠ .timer

/-- The calls that are made and the timers that are set. -/
structure Sound (s : IoWaits φ κ) : Prop where
  unset : ∀ t, s.numAlarms ≤ t → s.alarms t = none
  call : ∀ f c script phase, s.pc f = .io c script phase → s.CallOk c script phase
  uniq : ∀ f g c c' script script' phase phase', s.pc f = .io c script phase →
    s.pc g = .io c' script' phase' → c.info = c'.info → f = g
  alarm : ∀ t a info fd event, s.alarms t = some a → a.cb = .cancel info fd event →
    info < s.numInfos ∧ (∀ f c script phase, s.pc f = .io c script phase → c.info = info →
      c.Late a.expiration)
  fired : ∀ t a, s.alarms t = some a → a.stage.Fired → a.expiration ≤ s.now
  returned : ∀ f o, s.returned f = some o →
    o.Answers ∧ ((∃ a ∈ o.script, a.wait = .timer) → o.call.Late s.now)

/-- What fibers share changes, and they stay where they are. -/
structure Shares (s s' : IoWaits φ κ) : Prop where
  pc : s'.pc = s.pc
  returned : s'.returned = s.returned
  numInfos : s'.numInfos = s.numInfos
  numAlarms : s'.numAlarms = s.numAlarms
  now : s.now ≤ s'.now
  frame : ∀ k, (s'.infos k).frame = (s.infos k).frame
  cancelled : ∀ k, (s'.infos k).info.cancelled = true → (s.infos k).info.cancelled = true ∨
    ∃ t a fd event, s.alarms t = some a ∧ a.cb = .cancel k fd event ∧ a.stage.Fired
  alarm : ∀ t, (s'.alarms t).map (fun a => (a.cb, a.expiration)) =
    (s.alarms t).map fun a => (a.cb, a.expiration)
  fired : ∀ t a a', s.alarms t = some a → s'.alarms t = some a' → a'.stage.Fired →
    a.stage.Fired ∨ a.expiration ≤ s'.now

omit [DecidableEq φ] in
theorem Shares.alarm_iff (h : Shares s s') {t : ℕ} {cb : OnTimer φ} {e : ℕ} :
    (∃ a, s'.alarms t = some a ∧ a.cb = cb ∧ a.expiration = e) ↔
      ∃ a, s.alarms t = some a ∧ a.cb = cb ∧ a.expiration = e := by
  have hmap : ∀ x : Option (Alarm φ), (∃ a, x = some a ∧ a.cb = cb ∧ a.expiration = e) ↔
      x.map (fun a => (a.cb, a.expiration)) = some (cb, e) := by
    intro x
    simp [Option.map_eq_some_iff]
  rw [hmap, hmap, h.alarm]

omit [DecidableEq φ] in
theorem Sound.shares (h : s.Sound) (hs : Shares s s') : s'.Sound := by
  have hcall : ∀ f c script phase, s'.pc f = .io c script phase →
      s.pc f = .io c script phase := fun f c script phase hf => hs.pc ▸ hf
  have hback : ∀ t a', s'.alarms t = some a' → ∃ a, s.alarms t = some a ∧ a.cb = a'.cb ∧
      a.expiration = a'.expiration := fun t a' ha' => hs.alarm_iff.mp ⟨a', ha', rfl, rfl⟩
  constructor
  case unset =>
    intro t ht
    have hmap := hs.alarm t
    rw [h.unset t (hs.numAlarms ▸ ht), Option.map_none, Option.map_eq_none_iff] at hmap
    exact hmap
  case call =>
    intro f c script phase hf
    have hc := h.call f c script phase (hcall f c script phase hf)
    refine { hc with
      info_lt := hs.numInfos ▸ hc.info_lt
      frame := (hs.frame c.info).trans hc.frame
      began := Nat.le_trans hc.began hs.now
      late := fun hcancelled => ?_
      timer := fun t ht => ?_ }
    · rcases hs.cancelled c.info hcancelled with hcancelled | ⟨t, a, fd, event, ha, hcb, hfired⟩
      · exact (hc.late hcancelled).mono hs.now
      · have hlate := (h.alarm t a c.info fd event ha hcb).2 f c script phase
          (hcall f c script phase hf) rfl
        exact hlate.mono (Nat.le_trans (h.fired t a ha hfired) hs.now)
    · obtain ⟨a, ha, hcb⟩ := hc.timer t ht
      obtain ⟨a', ha', hcb', -⟩ := hs.alarm_iff.mpr ⟨a, ha, rfl, rfl⟩
      exact ⟨a', ha', hcb'.trans hcb⟩
  case uniq =>
    intro f g c c' script script' phase phase' hf hg
    exact h.uniq f g c c' script script' phase phase' (hcall _ _ _ _ hf) (hcall _ _ _ _ hg)
  case alarm =>
    intro t a' info fd event ha' hcb'
    obtain ⟨a, ha, hcb, hexp⟩ := hback t a' ha'
    obtain ⟨hlt, hlate⟩ := h.alarm t a info fd event ha (hcb.trans hcb')
    refine ⟨hs.numInfos ▸ hlt, fun f c script phase hf hinfo => ?_⟩
    exact hexp ▸ hlate f c script phase (hcall f c script phase hf) hinfo
  case fired =>
    intro t a' ha' hfired
    obtain ⟨a, ha, -, hexp⟩ := hback t a' ha'
    rw [← hexp]
    rcases hs.fired t a a' ha ha' hfired with hfired | hle
    · exact Nat.le_trans (h.fired t a ha hfired) hs.now
    · exact hle
  case returned =>
    intro f o ho
    obtain ⟨hanswers, hlate⟩ := h.returned f o (hs.returned ▸ ho)
    exact ⟨hanswers, fun htimer => (hlate htimer).mono hs.now⟩

/-- A call goes on. -/
theorem Sound.io (h : s.Sound) {f : φ} {c : IoCall} {script script' : List Attempt}
    {phase phase' : Phase} (hf : s.pc f = .io c script phase) (hc : s.CallOk c script' phase') :
    (s.goOn f (.io c script' phase')).Sound := by
  have hpc : ∀ g c' script₁ phase₁, (s.goOn f (.io c script' phase')).pc g = .io c' script₁ phase₁ →
      ∃ script₂ phase₂, s.pc g = .io c' script₂ phase₂ ∧
        (g = f ∧ c' = c ∧ script₁ = script' ∧ phase₁ = phase' ∨
          g ≠ f ∧ script₁ = script₂ ∧ phase₁ = phase₂) := by
    intro g c' script₁ phase₁ hg
    by_cases hgf : g = f
    · subst hgf
      obtain ⟨rfl, rfl, rfl⟩ := FiberPc.io.inj ((Function.update_self g _ s.pc).symm.trans hg)
      exact ⟨script, phase, hf, .inl ⟨rfl, rfl, rfl, rfl⟩⟩
    · rw [goOn_pc, Function.update_of_ne hgf] at hg
      exact ⟨script₁, phase₁, hg, .inr ⟨hgf, rfl, rfl⟩⟩
  constructor
  case unset => exact h.unset
  case call =>
    intro g c' script₁ phase₁ hg
    obtain ⟨script₂, phase₂, hg', ⟨rfl, rfl, rfl, rfl⟩ | ⟨-, rfl, rfl⟩⟩ :=
      hpc g c' script₁ phase₁ hg
    · exact { hc with }
    · exact { h.call g c' script₁ phase₁ hg' with }
  case uniq =>
    intro g g' c₁ c₂ script₁ script₂ phase₁ phase₂ hg hg'
    obtain ⟨_, _, hg, -⟩ := hpc g c₁ script₁ phase₁ hg
    obtain ⟨_, _, hg', -⟩ := hpc g' c₂ script₂ phase₂ hg'
    exact h.uniq g g' c₁ c₂ _ _ _ _ hg hg'
  case alarm =>
    intro t a info fd event ha hcb
    obtain ⟨hlt, hlate⟩ := h.alarm t a info fd event ha hcb
    refine ⟨hlt, fun g c' script₁ phase₁ hg hinfo => ?_⟩
    obtain ⟨_, _, hg, -⟩ := hpc g c' script₁ phase₁ hg
    exact hlate g c' _ _ hg hinfo
  case fired => exact h.fired
  case returned => exact h.returned

/-- A fiber goes on that leaves no call and comes to none. -/
theorem Sound.other (h : s.Sound) {f : φ} {p : FiberPc}
    (hp : ∀ c script phase, p ≠ .io c script phase) : (s.goOn f p).Sound := by
  have hpc : ∀ g c script phase, (s.goOn f p).pc g = .io c script phase →
      s.pc g = .io c script phase := by
    intro g c script phase hg
    by_cases hgf : g = f
    · subst hgf
      rw [goOn_pc, Function.update_self] at hg
      exact absurd hg (hp c script phase)
    · rwa [goOn_pc, Function.update_of_ne hgf] at hg
  constructor
  case unset => exact h.unset
  case call =>
    intro g c script phase hg
    exact { h.call g c script phase (hpc g c script phase hg) with }
  case uniq =>
    intro g g' c₁ c₂ script₁ script₂ phase₁ phase₂ hg hg'
    exact h.uniq g g' c₁ c₂ _ _ _ _ (hpc _ _ _ _ hg) (hpc _ _ _ _ hg')
  case alarm =>
    intro t a info fd event ha hcb
    obtain ⟨hlt, hlate⟩ := h.alarm t a info fd event ha hcb
    exact ⟨hlt, fun g c script phase hg => hlate g c script phase (hpc _ _ _ _ hg)⟩
  case fired => exact h.fired
  case returned => exact h.returned

/-- A call begins. -/
theorem Sound.begin (h : s.Sound) {f : φ} (hf : s.pc f = .user) {connect : Bool} {fd : ℕ}
    {event : Event} {ms : BitVec 64} (hcall : s.call f connect fd event ms = some s') :
    s'.Sound := by
  simp only [IoWaits.call, hf, Option.some.injEq] at hcall
  generalize hc : (⟨connect, fd, if connect then .write else event, ms, s.numInfos, s.now⟩ :
    IoCall) = c at hcall
  have hinfo : c.info = s.numInfos := by rw [← hc]
  have hbegan : c.began = s.now := by rw [← hc]
  subst hcall
  have hpc : ∀ {g : φ} {c' script phase}, Function.update s.pc f (.io c [] .retry) g =
      .io c' script phase → g = f ∧ c' = c ∧ script = [] ∧ phase = .retry ∨
        g ≠ f ∧ s.pc g = .io c' script phase := by
    intro g c' script phase hg
    by_cases hgf : g = f
    · subst hgf
      rw [Function.update_self] at hg
      obtain ⟨rfl, rfl, rfl⟩ := FiberPc.io.inj hg
      exact .inl ⟨rfl, rfl, rfl, rfl⟩
    · rw [Function.update_of_ne hgf] at hg
      exact .inr ⟨hgf, hg⟩
  have hne : ∀ {g : φ} {c' script phase}, s.pc g = .io c' script phase → c'.info ≠ c.info := by
    intro g c' script phase hg
    have hlt := (h.call g c' script phase hg).info_lt
    omega
  constructor
  case unset => exact h.unset
  case call =>
    intro g c' script phase hg
    rcases hpc hg with ⟨rfl, rfl, rfl, rfl⟩ | ⟨hgf, hg⟩
    · constructor
      case info_lt => simp [hinfo]
      case frame => simp [hinfo]
      case began => exact Nat.le_of_eq hbegan
      case late => simp [hinfo]
      case timer => nofun
      case timed => nofun
      case ret => nofun
      case quiet => nofun
      case passed =>
        split
        · rfl
        · exact passed_nil _
    · have hold := h.call g c' script phase hg
      have hinfos : Function.update s.infos s.numInfos ⟨⟨false⟩, true, 0⟩ c'.info =
          s.infos c'.info := Function.update_of_ne (hinfo ▸ hne hg) ..
      exact { hold with
        info_lt := Nat.lt_succ_of_lt hold.info_lt
        frame := (congrArg InfoPtr.frame hinfos).trans hold.frame
        late := fun hcancelled =>
          hold.late ((congrArg (·.info.cancelled) hinfos).symm.trans hcancelled) }
  case uniq =>
    intro g g' c₁ c₂ script₁ script₂ phase₁ phase₂ hg hg' hsame
    rcases hpc hg with ⟨hgf, hc₁, -, -⟩ | ⟨-, hold⟩ <;>
      rcases hpc hg' with ⟨hgf', hc₂, -, -⟩ | ⟨-, hold'⟩
    · rw [hgf, hgf']
    · exact absurd (hsame.symm.trans (by rw [hc₁])) (hne hold')
    · exact absurd (hsame.trans (by rw [hc₂])) (hne hold)
    · exact h.uniq g g' c₁ c₂ _ _ _ _ hold hold' hsame
  case alarm =>
    intro t a info fd event ha hcb
    obtain ⟨hlt, hlate⟩ := h.alarm t a info fd event ha hcb
    refine ⟨Nat.lt_succ_of_lt hlt, fun g c' script phase hg hsame => ?_⟩
    rcases hpc hg with ⟨rfl, rfl, -, -⟩ | ⟨hgf, hg⟩
    · omega
    · exact hlate g c' script phase hg hsame
  case fired => exact h.fired
  case returned => exact h.returned

/-- A call returns. -/
theorem Sound.leave (h : s.Sound) {f : φ} {o : Outcome} {script : List Attempt} {phase : Phase}
    (hf : s.pc f = .io o.call script phase) (ho : o.Answers)
    (hlate : (∃ a ∈ o.script, a.wait = .timer) → o.call.Late s.now) : (s.leave f o).Sound := by
  have hpc : ∀ {g : φ} {c script phase}, Function.update s.pc f .user g = .io c script phase →
      g ≠ f ∧ s.pc g = .io c script phase := by
    intro g c script phase hg
    by_cases hgf : g = f
    · subst hgf
      rw [Function.update_self] at hg
      cases hg
    · rw [Function.update_of_ne hgf] at hg
      exact ⟨hgf, hg⟩
  constructor
  case unset => exact h.unset
  case call =>
    intro g c script' phase' hg
    obtain ⟨hgf, hg⟩ := hpc hg
    have hold := h.call g c script' phase' hg
    have hne : c.info ≠ o.call.info := fun hsame =>
      hgf (h.uniq g f c o.call script' script phase' phase hg hf hsame)
    have hinfos : (s.leave f o).infos c.info = s.infos c.info := Function.update_of_ne hne ..
    exact { hold with
      frame := (congrArg InfoPtr.frame hinfos).trans hold.frame
      late := fun hcancelled =>
        hold.late ((congrArg (·.info.cancelled) hinfos).symm.trans hcancelled) }
  case uniq =>
    intro g g' c₁ c₂ script₁ script₂ phase₁ phase₂ hg hg'
    exact h.uniq g g' c₁ c₂ _ _ _ _ (hpc hg).2 (hpc hg').2
  case alarm =>
    intro t a info fd event ha hcb
    obtain ⟨hlt, hlate⟩ := h.alarm t a info fd event ha hcb
    exact ⟨hlt, fun g c script phase hg => hlate g c script phase (hpc hg).2⟩
  case fired => exact h.fired
  case returned =>
    intro g o' ho'
    by_cases hgf : g = f
    · subst hgf
      obtain rfl := Option.some.inj ((Function.update_self g _ s.returned).symm.trans ho')
      exact ⟨ho, hlate⟩
    · exact h.returned g o' ((Function.update_of_ne hgf ..).symm.trans ho')

omit [DecidableEq φ] in
/-- A timer is set, for a call that has it to itself or for a sleeper. -/
theorem Sound.addTimer (h : s.Sound) {ms : ℕ} {cb : OnTimer φ}
    (hcb : ∀ info fd event, cb = .cancel info fd event → info < s.numInfos ∧
      ∀ f c script phase, s.pc f = .io c script phase → c.info = info → c.Late (s.now + ms)) :
    (s.addTimer ms cb).Sound := by
  have halarm : ∀ {t a}, (s.addTimer ms cb).alarms t = some a →
      t = s.numAlarms ∧ a = ⟨cb, s.now + ms, .armed⟩ ∨ s.alarms t = some a := by
    intro t a ha
    by_cases ht : t = s.numAlarms
    · subst ht
      exact .inl ⟨rfl, Option.some.inj (ha.symm.trans (Function.update_self ..))⟩
    · exact .inr ((Function.update_of_ne ht ..).symm.trans ha)
  constructor
  case unset =>
    intro t ht
    have hlt : s.numAlarms < t := ht
    exact (Function.update_of_ne (Nat.ne_of_gt hlt) ..).trans (h.unset t (Nat.le_of_lt hlt))
  case call =>
    intro f c script phase hf
    have hc := h.call f c script phase hf
    refine { hc with timer := fun t ht => ?_ }
    obtain ⟨a, ha, hcb⟩ := hc.timer t ht
    have hne : t ≠ s.numAlarms := by
      rintro rfl
      simp [h.unset] at ha
    exact ⟨a, (Function.update_of_ne hne ..).trans ha, hcb⟩
  case uniq => exact h.uniq
  case alarm =>
    intro t a info fd event ha hacb
    rcases halarm ha with ⟨-, rfl⟩ | ha
    · exact hcb info fd event hacb
    · exact h.alarm t a info fd event ha hacb
  case fired =>
    intro t a ha hfired
    rcases halarm ha with ⟨-, rfl⟩ | ha
    · rcases hfired with hq | hq | hq <;> cases hq
    · exact h.fired t a ha hfired
  case returned => exact h.returned

/-! ### What fibers share -/

section Shared

omit [DecidableEq φ]

/-- Neither the channels nor the tasks are of interest here. -/
theorem Sound.tasks (h : s.Sound) (held : ℕ → Held Unit φ κ) (tasks : List φ) :
    { s with held := held, tasks := tasks }.Sound :=
  h.shares ⟨rfl, rfl, rfl, rfl, le_rfl, fun _ => rfl, fun _ => .inl, fun _ => rfl,
    fun _ _ _ ha ha' hfired => .inl (Option.some.inj (ha.symm.trans ha') ▸ hfired)⟩

theorem Sound.section_ (h : s.Sound) {fd : ℕ} {op : Held.Op Unit φ κ} {r : Bool}
    (hs : s.section_ fd op = some (r, s')) : s'.Sound := by
  obtain ⟨_, -, rfl⟩ := section_cases hs
  exact h.tasks _ _

theorem Sound.setAlarm (h : s.Sound) {t : ℕ} {a b : Alarm φ} (ha : s.alarms t = some a)
    (hcb : b.cb = a.cb) (hexp : b.expiration = a.expiration)
    (hfired : b.stage.Fired → a.stage.Fired ∨ a.expiration ≤ s.now) : (s.setAlarm t b).Sound := by
  refine h.shares ⟨rfl, rfl, rfl, rfl, le_rfl, fun _ => rfl, fun _ => .inl, fun u => ?_,
    fun u x x' hx hx' hfired' => ?_⟩
  · by_cases hut : u = t
    · subst hut
      simp [ha, hcb, hexp]
    · simp [hut]
  · by_cases hut : u = t
    · subst hut
      rw [setAlarm_alarms, Function.update_self] at hx'
      obtain rfl := Option.some.inj hx'
      obtain rfl := Option.some.inj (ha.symm.trans hx)
      exact hfired hfired'
    · rw [setAlarm_alarms, Function.update_of_ne hut] at hx'
      exact .inl (Option.some.inj (hx.symm.trans hx') ▸ hfired')

theorem Sound.setInfo (h : s.Sound) {k : ℕ} {p : InfoPtr} (hframe : p.frame = (s.infos k).frame)
    (hcancelled : p.info.cancelled = true → (s.infos k).info.cancelled = true ∨
      ∃ t a fd event, s.alarms t = some a ∧ a.cb = .cancel k fd event ∧ a.stage.Fired) :
    (s.setInfo k p).Sound := by
  refine h.shares ⟨rfl, rfl, rfl, rfl, le_rfl, fun j => ?_, fun j hj => ?_, fun _ => rfl,
    fun t a a' ha ha' hfired => .inl (Option.some.inj (ha.symm.trans ha') ▸ hfired)⟩
  · by_cases hjk : j = k
    · subst hjk
      simp [hframe]
    · simp [hjk]
  · by_cases hjk : j = k
    · subst hjk
      exact hcancelled (by simpa using hj)
    · exact .inl (by simpa [hjk] using hj)

theorem Sound.cancelTimer (h : s.Sound) {timer : Option ℕ} : (s.cancelTimer timer).Sound := by
  unfold IoWaits.cancelTimer
  split
  · exact h
  · split
    · rename_i a ha
      split
      · refine h.setAlarm ha rfl rfl fun hfired => ?_
        rcases hfired with hq | hq | hq <;> cases hq
      · exact h
    · exact h

theorem not_fired_over : ¬ Stage.over.Fired := by
  rintro (h | h | h) <;> cases h

theorem Sound.expire (h : s.Sound) {t : ℕ} (hs : s.expire t = some s') : s'.Sound := by
  obtain ⟨a, ha, -, hdue, rfl⟩ := expire_cases hs
  exact h.setAlarm ha rfl rfl fun _ => .inr hdue

theorem Sound.lock (h : s.Sound) {t : ℕ} (hs : s.lock t = some s') : s'.Sound := by
  obtain ⟨cb, e, ha, hcases⟩ := lock_cases hs
  have hover : (s.setAlarm t ⟨cb, e, .over⟩).Sound :=
    h.setAlarm ha rfl rfl fun hfired => absurd hfired not_fired_over
  have hlocked : (s.setAlarm t ⟨cb, e, .locked⟩).Sound :=
    h.setAlarm ha rfl rfl fun _ => .inl (.inl rfl)
  rcases hcases with ⟨f, -, rfl⟩ | ⟨k, fd, event, -, ⟨-, rfl⟩ | ⟨-, -, rfl⟩⟩
  · exact hover.tasks _ _
  · exact hover
  · exact hlocked.setInfo rfl .inl

theorem Sound.store (h : s.Sound) {t : ℕ} (hs : s.store t = some s') : s'.Sound := by
  obtain ⟨k, fd, event, e, ha, rfl⟩ := store_cases hs
  have hstored : (s.setAlarm t ⟨.cancel k fd event, e, .stored⟩).Sound :=
    h.setAlarm ha rfl rfl fun _ => .inl (.inr (.inl rfl))
  refine hstored.setInfo rfl fun _ => ?_
  exact .inr ⟨t, _, fd, event, Function.update_self .., rfl, .inr (.inr rfl)⟩

theorem Sound.cancelEvent (h : s.Sound) {t : ℕ} {fails : Bool}
    (hs : s.cancelEvent t fails = some s') : s'.Sound := by
  obtain ⟨k, fd, event, e, r, s₁, ha, hsec, rfl⟩ := cancelEvent_cases hs
  have h₁ := h.section_ hsec
  obtain ⟨_, -, rfl⟩ := section_cases hsec
  have hover := h₁.setAlarm (b := ⟨.cancel k fd event, e, .over⟩) ha rfl rfl
    fun hfired => absurd hfired not_fired_over
  exact hover.setInfo rfl .inl

end Shared

/-! ### Turns -/

namespace CallOk

variable {c : IoCall} {script : List Attempt} {phase phase' : Phase} {a : Attempt} {so : SoError}
  {r : Ret}

section Calls

omit [DecidableEq φ]

/-- A call in another phase, of which the same is true. -/
theorem at_phase (h : s.CallOk c script phase) (htimer : phase'.timer = phase.timer)
    (htimed : phase'.Timed → phase.Timed) (hret : phase'.ret = phase.ret) :
    s.CallOk c script phase' :=
  { h with
    timer := htimer ▸ h.timer
    timed := fun ht => htimer ▸ h.timed (htimed ht)
    ret := hret ▸ h.ret }

/-- The result that it waits after. -/
theorem blocked (h : s.CallOk c script phase) (hr : c.Waits r) :
    s.CallOk c script (.blocked r) := by
  refine { h with timer := nofun, timed := nofun, ret := ?_ }
  rintro r' ⟨⟩
  exact hr

/-- The attempt that a call comes back from to `retry`. -/
theorem again (h : s.CallOk c script phase) (hc : c.connect = false) (ha : a.Over)
    (hwait : a.wait ≠ .timer) : s.CallOk c (script ++ [a]) .retry := by
  have hpassed := h.passed
  simp only [hc, Bool.false_eq_true, if_false] at hpassed
  refine { h with timer := nofun, timed := nofun, ret := nofun, passed := ?_, quiet := ?_ }
  · simp only [hc, Bool.false_eq_true, if_false]
    exact hpassed.snoc ha
  · intro b hb
    rcases List.mem_append.mp hb with hb | hb
    · exact h.quiet b hb
    · obtain rfl := List.mem_singleton.mp hb
      exact hwait

/-- No wait of a call that has come this far was ended by a timer. -/
theorem not_timer (h : s.CallOk c script phase) (ha : a.wait ≠ .timer) :
    ¬ ∃ b ∈ script ++ [a], b.wait = .timer := by
  rintro ⟨b, hb, hwait⟩
  rcases List.mem_append.mp hb with hb | hb
  · exact h.quiet b hb hwait
  · obtain rfl := List.mem_singleton.mp hb
    exact ha hwait

/-- What a call answers that has waited, by what each function makes of the last attempt. -/
theorem answers {w : Wait} {ret : Ret} (h : s.CallOk c script phase)
    (hconnect : c.connect = true → ∀ ctx : FdCtx, ctx.Blocking →
      (connectWithTimeout true (some ctx) c.ms [⟨r, w⟩] so).returned = some ret)
    (hretry : c.connect = false → (retry c.ms ⟨false⟩ [⟨r, w⟩]).returned = some ret) :
    Outcome.Answers ⟨c, script ++ [⟨r, w⟩], so, ret⟩ := by
  have hpassed := h.passed
  cases hc : c.connect with
  | true =>
      simp only [hc, if_true] at hpassed
      subst hpassed
      intro ctx hctx
      simpa [hc] using hconnect hc ctx hctx
  | false =>
      simp only [hc, Bool.false_eq_true, if_false] at hpassed
      exact hpassed.answers hc (hretry hc)

end Calls

end CallOk

/-- The results that are waited after. -/
theorem waits_connect {c : IoCall} {r : Ret} (hr : c.Waits r) (hc : c.connect = true) :
    r.n = -1 ∧ r.errno = EINPROGRESS := by simpa [IoCall.Waits, hc] using hr

theorem waits_retry {c : IoCall} {r : Ret} (hr : c.Waits r) (hc : c.connect = false) (w : Wait) :
    (⟨r, w⟩ : Attempt).WouldBlock ∧ ¬ (⟨r, w⟩ : Attempt).Interrupted := by
  have hblock : r.n = -1 ∧ r.errno = EAGAIN := by simpa [IoCall.Waits, hc] using hr
  refine ⟨hblock, ?_⟩
  rintro ⟨-, herrno⟩
  exact absurd (hblock.2.symm.trans herrno) (by decide)

section Answers

variable {c : IoCall} {script : List Attempt} {phase : Phase} {so : SoError} {r : Ret}

omit [DecidableEq φ]

theorem CallOk.answers_refused (h : s.CallOk c script phase) (hr : c.Waits r) (errno : ℤ) :
    Outcome.Answers ⟨c, script ++ [⟨r, .addEventFailed errno⟩], so,
      if c.connect then so.status else ⟨-1, errno⟩⟩ := by
  refine h.answers (fun hc ctx hctx => ?_) fun hc => ?_
  · obtain ⟨hn, herrno⟩ := waits_connect hr hc
    rw [connect_of_blocking hctx, if_neg (by simp [hn]), if_neg (by simp [hn, herrno]), hc]
    rfl
  · obtain ⟨hblock, hint⟩ := waits_retry hr hc (.addEventFailed errno)
    rw [retry, if_neg hint, if_pos hblock, hc]
    rfl

theorem CallOk.answers_timer (h : s.CallOk c script phase) (hr : c.Waits r) (hms : c.ms ≠ -1) :
    Outcome.Answers ⟨c, script ++ [⟨r, .timer⟩], so, ⟨-1, 1⟩⟩ := by
  have hawait : TimerInfo.await ⟨false⟩ c.ms .timer = ⟨true⟩ := await_fires hms rfl
  refine h.answers (fun hc ctx hctx => ?_) fun hc => ?_
  · obtain ⟨hn, herrno⟩ := waits_connect hr hc
    rw [connect_of_blocking hctx, if_neg (by simp [hn]), if_neg (by simp [hn, herrno])]
    simp [waited, hawait]
  · obtain ⟨hblock, hint⟩ := waits_retry hr hc .timer
    rw [retry, if_neg hint, if_pos hblock]
    simp [hawait]

theorem CallOk.answers_status (h : s.CallOk c script phase) (hr : c.Waits r)
    (hc : c.connect = true) :
    Outcome.Answers ⟨c, script ++ [⟨r, .ready false⟩], so, so.status⟩ := by
  refine h.answers (fun _ ctx hctx => ?_) fun hc' => ?_
  · obtain ⟨hn, herrno⟩ := waits_connect hr hc
    rw [connect_of_blocking hctx, if_neg (by simp [hn]), if_neg (by simp [hn, herrno])]
    simp [waited, await_quiet (w := .ready false) rfl]
  · rw [hc] at hc'
    cases hc'

end Answers

theorem Sound.raw (h : s.Sound) {f : φ} {r : Ret} {so : SoError} (hs : s.raw f r so = some s') :
    s'.Sound := by
  obtain ⟨c, script, hf, hcases⟩ := raw_cases hs
  have hc := h.call f c script .retry hf
  rcases hcases with ⟨o, rfl, rfl, ho⟩ | ⟨rfl, hconnect, hint⟩ | ⟨rfl, hr⟩
  · have hpassed := hc.passed
    have hnone : ¬ ∃ b ∈ script ++ [⟨r, .ready false⟩], b.wait = Wait.timer :=
      hc.not_timer (by simp)
    obtain ⟨c, script', so, ret⟩ := o
    cases hconnect : c.connect with
    | true =>
        simp only [hconnect, if_true] at ho hpassed
        obtain ⟨rfl, hret⟩ := ho
        subst hpassed
        refine h.leave hf (fun ctx hctx => ?_) fun hlate => absurd hlate hnone
        simp only [hconnect, if_true]
        rw [connect_of_blocking hctx]
        rcases hret with ⟨hn, rfl⟩ | ⟨hn, herr, rfl⟩
        · rw [if_pos hn]
        · rw [if_neg hn, if_pos herr]
    | false =>
        simp only [hconnect, Bool.false_eq_true, if_false] at ho hpassed
        obtain ⟨rfl, hint, hblock, rfl⟩ := ho
        refine h.leave hf (hpassed.answers hconnect ?_) fun hlate => absurd hlate hnone
        rw [retry, if_neg hint, if_neg hblock]
  · exact h.io hf (hc.again hconnect (.inl hint) (by simp))
  · exact h.io hf (hc.blocked hr)

theorem Sound.arm (h : s.Sound) {f : φ} (hs : s.arm f = some s') : s'.Sound := by
  obtain ⟨c, script, r, hf, ⟨hms, rfl⟩ | ⟨hms, rfl⟩⟩ := arm_cases hs
  · have hc := h.call f c script _ hf
    have hlate : ∀ info fd event, OnTimer.cancel c.info c.fd c.event = (.cancel info fd event :
        OnTimer φ) → info < s.numInfos ∧ ∀ g c' script' phase', s.pc g = .io c' script' phase' →
          c'.info = info → c'.Late (s.now + c.ms.toNat) := by
      intro info fd event heq
      obtain ⟨rfl, -, -⟩ := OnTimer.cancel.inj heq
      refine ⟨hc.info_lt, fun g c' script' phase' hg hinfo => ?_⟩
      obtain rfl := h.uniq g f c' c script' script phase' _ hg hf hinfo
      obtain ⟨rfl, -, -⟩ := FiberPc.io.inj (hg.symm.trans hf)
      exact ⟨hms, Nat.add_le_add_right hc.began _⟩
    have h₁ := h.addTimer hlate
    have hc₁ := h₁.call f c script _ hf
    refine h₁.io hf { hc₁ with timer := ?_, timed := nofun, ret := hc.ret }
    rintro t ⟨⟩
    exact ⟨_, Function.update_self .., rfl⟩
  · have hc := h.call f c script _ hf
    exact h.io hf { hc with timer := nofun, timed := fun _ hne => absurd hms hne, ret := hc.ret }

theorem Sound.addEvent (h : s.Sound) {f : φ} {fails : Bool} {errno : ℤ}
    (hs : s.addEvent f fails errno = some s') : s'.Sound := by
  obtain ⟨c, script, r, timer, added, s₁, hf, hsec, rfl⟩ := addEvent_cases hs
  have h₁ := h.section_ hsec
  obtain ⟨_, -, rfl⟩ := section_cases hsec
  have hc := h₁.call f c script _ hf
  refine h₁.io hf ?_
  cases added
  · exact hc.at_phase rfl (fun _ => trivial) rfl
  · exact hc.at_phase rfl (fun _ => trivial) rfl

theorem Sound.refuse (h : s.Sound) {f : φ} {so : SoError} (hs : s.refuse f so = some s') :
    s'.Sound := by
  obtain ⟨c, script, r, timer, errno, hf, rfl⟩ := refuse_cases hs
  have hc := h.call f c script _ hf
  have hf₁ : (s.cancelTimer timer).pc f = .io c script (.refused r timer errno) :=
    (congrFun (cancelTimer_pc s timer) f).trans hf
  exact h.cancelTimer.leave hf₁ (hc.answers_refused (hc.ret r rfl) errno)
    fun hlate => absurd hlate (hc.not_timer nofun)

theorem Sound.disarm (h : s.Sound) {f : φ} (hs : s.disarm f = some s') : s'.Sound := by
  obtain ⟨c, script, r, timer, hf, rfl⟩ := disarm_cases hs
  have hf₁ : (s.cancelTimer timer).pc f = .io c script (.woken r timer) :=
    (congrFun (cancelTimer_pc s timer) f).trans hf
  have h₁ : (s.cancelTimer timer).Sound := h.cancelTimer
  exact h₁.io hf₁ ((h₁.call f c script _ hf₁).at_phase rfl (fun _ => trivial) rfl)

theorem Sound.check (h : s.Sound) {f : φ} {so : SoError} (hs : s.check f so = some s') :
    s'.Sound := by
  obtain ⟨c, script, r, timer, hf, ⟨hcancelled, rfl⟩ | ⟨-, rfl⟩⟩ := check_cases hs
  · have hc := h.call f c script _ hf
    have hlate := hc.late hcancelled
    exact h.leave hf (hc.answers_timer (hc.ret r rfl) hlate.1) fun _ => hlate
  · have hc := h.call f c script _ hf
    cases hconnect : c.connect with
    | true =>
        exact h.leave hf (hc.answers_status (hc.ret r rfl) hconnect)
          fun hlate => absurd hlate (hc.not_timer nofun)
    | false =>
        have hblock := (waits_retry (hc.ret r rfl) hconnect (.ready false)).1
        exact h.io hf (hc.again hconnect (.inr ⟨hblock, rfl⟩) nofun)

theorem Sound.step (h : s.Sound) {l : Turn φ κ} (hs : s.step l = some s') : s'.Sound := by
  cases l with
  | tick ms =>
      obtain rfl := Option.some.inj hs
      exact h.shares ⟨rfl, rfl, rfl, rfl, Nat.le_add_right .., fun _ => rfl, fun _ => .inl,
        fun _ => rfl,
        fun _ _ _ ha ha' hfired => .inl (Option.some.inj (ha.symm.trans ha') ▸ hfired)⟩
  | spawn f =>
      obtain ⟨-, rfl⟩ := spawn_cases hs
      exact (h.other (f := f) (p := .spawned) nofun).tasks _ _
  | resume f =>
      obtain ⟨-, p, hp, rfl⟩ := resume_cases hs
      have h₁ := h.tasks s.held (s.tasks.erase f)
      cases hf : s.pc f with
      | io c script phase =>
          rw [hf] at hp
          cases phase <;> cases hp
          exact h₁.io hf ((h₁.call f c script _ hf).at_phase rfl (fun _ => trivial) rfl)
      | spawned | asleep _ =>
          rw [hf] at hp
          cases hp
          exact h₁.other nofun
      | _ =>
          rw [hf] at hp
          cases hp
  | call f connect fd event ms =>
      have hcall : s.call f connect fd event ms = some s' := hs
      have hf : s.pc f = .user := by
        unfold IoWaits.call at hcall
        split at hcall
        · assumption
        · cases hcall
      exact h.begin hf hs
  | raw f r so => exact h.raw hs
  | arm f => exact h.arm hs
  | addEvent f fails errno => exact h.addEvent hs
  | refuse f so => exact h.refuse hs
  | suspend f =>
      obtain ⟨p, hp, rfl⟩ := suspend_cases hs
      cases hf : s.pc f with
      | io c script phase =>
          rw [hf] at hp
          cases phase <;> cases hp
          exact h.io hf ((h.call f c script _ hf).at_phase rfl (fun _ => trivial) rfl)
      | sleeping t =>
          rw [hf] at hp
          cases hp
          exact h.other nofun
      | _ =>
          rw [hf] at hp
          cases hp
  | disarm f => exact h.disarm hs
  | check f so => exact h.check hs
  | sleep f ms =>
      obtain ⟨-, rfl⟩ := sleep_cases hs
      exact (h.addTimer fun _ _ _ hcb => by cases hcb).other nofun
  | expire t => exact h.expire hs
  | lock t => exact h.lock hs
  | store t => exact h.store hs
  | cancelEvent t fails => exact h.cancelEvent hs
  | critical fd op =>
      obtain ⟨⟨r, s₁⟩, hsec, rfl⟩ := Option.map_eq_some_iff.mp hs
      exact h.section_ hsec

omit [DecidableEq φ] in
theorem sound_start : (start : IoWaits φ κ).Sound where
  unset _ _ := rfl
  call _ _ _ _ h := nomatch h
  uniq _ _ _ _ _ _ _ _ h := nomatch h
  alarm _ _ _ _ _ h := nomatch h
  fired _ _ h := nomatch h
  returned _ _ h := nomatch h

theorem sound (h : (lts (φ := φ) (κ := κ)).Reachable s) : s.Sound :=
  h.invariant (fun _ hs => hs ▸ sound_start) fun _ _ _ hstep hs => hs.step hstep

/-! ### Results -/

/-- **A call returns** what its function returns on the attempts it made, whatever other
fibers, timers and threads do between its steps. -/
theorem call_answers (h : (lts (φ := φ) (κ := κ)).Reachable s) {f : φ} {o : Outcome}
    (ho : s.returned f = some o) : o.Answers := ((sound h).returned f o ho).1

/-- **A timeout** is reported only by a call that has lasted for it: no timer of another
call, and none that was set late, ends it. -/
theorem timeout_lasts (h : (lts (φ := φ) (κ := κ)).Reachable s) {f : φ} {o : Outcome}
    (ho : s.returned f = some o) (htimer : ∃ a ∈ o.script, a.wait = .timer) :
    o.call.ms ≠ -1 ∧ o.call.began + o.call.ms.toNat ≤ s.now :=
  ((sound h).returned f o ho).2 htimer

/-- A call with a timeout of 100 milliseconds, up to its second wait. -/
def twice : List (Turn Unit ℕ) :=
  [.spawn (), .resume (), .call () false 5 .read 100, .raw () ⟨-1, EAGAIN⟩ ⟨⟨0, 0⟩, 0⟩, .arm (),
    .addEvent () false 0, .suspend (), .tick 60,
    .critical 5 (.dispatch ⟨true, false, false, false⟩ false), .resume (), .disarm (),
    .check () ⟨⟨0, 0⟩, 0⟩, .raw () ⟨-1, EAGAIN⟩ ⟨⟨0, 0⟩, 0⟩, .arm (), .addEvent () false 0,
    .suspend ()]

/-- The second wait is ended by its timer. -/
def timedOut : List (Turn Unit ℕ) :=
  twice ++ [.tick 100, .expire 1, .lock 1, .store 1, .cancelEvent 1 false, .resume (), .disarm (),
    .check () ⟨⟨0, 0⟩, 0⟩]

/-- What the call comes to. -/
def timedOutcome : Outcome :=
  ⟨⟨false, 5, .read, 100, 0, 0⟩, [⟨⟨-1, EAGAIN⟩, .ready false⟩, ⟨⟨-1, EAGAIN⟩, .timer⟩],
    ⟨⟨0, 0⟩, 0⟩, ⟨-1, 1⟩⟩

theorem reachable_timedOut : ∃ s, (lts (φ := Unit) (κ := ℕ)).Reachable s ∧
    s.returned () = some timedOutcome ∧ s.now = 160 := by
  have hrun : (lts.run start timedOut).map (fun s => (s.returned (), s.now)) =
      some (some timedOutcome, 160) := by decide
  obtain ⟨s, hs, hret⟩ := Lts.Reachable.of_map_run hrun (.init rfl)
  obtain ⟨hret, hnow⟩ := Prod.mk.inj hret
  exact ⟨s, hs, hret, hnow⟩

theorem call_answers_twice : timedOutcome.Answers := by
  obtain ⟨s, hs, ho, -⟩ := reachable_timedOut
  exact call_answers hs ho

theorem timeout_lasts_twice : 0 + 100 ≤ 160 := by
  obtain ⟨s, hs, ho, hnow⟩ := reachable_timedOut
  exact hnow ▸ (timeout_lasts hs ho ⟨_, .tail _ (.head _), rfl⟩).2

end IoWaits

end Easy.Base
