import UvExec.Execution.Completion
import UvExec.Execution.Handover
import UvExec.Execution.PlainLoop

/-! # A loop that is driven by one thread

Only one thread makes calls, completes their senders and calls finish(); others
may still send the async signal. Its runs are those of the plain loop: it finds
the mutex free, never joins the runners' queue, and stops no run but its own. -/

namespace UvExec.Loop
open Lib
variable {C : Type} [DecidableEq C]

/-- The lambda of a completing sender is on the thread. -/
def WakePc.running : WakePc → Bool
  | .acquired _ | .finishLoop _ | .store _ | .notify _ => true
  | .idle | .pending | .done => false

/-- The thread of the call is in the user's code: it has started its sender and
not looked at the runner yet, or it is in a callback. -/
def InUserCode (s : State C) (c : C) : Prop :=
  s.pc c = .steal ∧ (s.runner c).acq = false ∨ s.pc c = .uv .callbacks ∨ s.pc c = .uv .events

/-- One thread makes the calls, one after the other, and it completes the
senders and calls finish() in the user's code or between two calls. -/
def OneThread (s : State C) : Action C → Prop
  | .call _ _ => ∀ d, ¬ InCall s d
  | .thread c => (s.wake c).running = false
  | .complete c _ => InUserCode s c
  | .finish => ∀ d, InCall s d → InUserCode s d
  | .event _ | .spurious _ | .wake _ | .fire => True

def Pc.phase : Pc C → Option PlainLoop.Phase
  | .steal | .lock | .running | .acquire | .runLocked => some .outside
  | .uv p => some (.inside p)
  | .relockRun | .wakeupNext .empty | .unlock => some .leaving
  | .idle | .wakeupNext (.finished _) | .wakeupNext (.fetchAdd _) | .wakeupNext (.notify _) | .add
  | .unlockWait | .wait _ | .relock | .erase | .unlockLoop | .returned _ => none

/-- The result of a call that is not active. -/
def Pc.ended : Pc C → Option (Option Outcome)
  | .idle => some none
  | .returned o => some (some o)
  | .steal | .lock | .running | .acquire | .runLocked | .uv _ | .relockRun | .wakeupNext _ | .unlock
  | .add | .unlockWait | .wait _ | .relock | .erase | .unlockLoop => none

/-- On the way into `uv_run`, past the test of the runner. -/
def Pc.entering : Pc C → Bool
  | .lock | .running | .acquire | .runLocked => true
  | .idle | .steal | .uv _ | .relockRun | .wakeupNext _ | .unlock | .add | .unlockWait | .wait _
  | .relock | .erase | .unlockLoop | .returned _ => false

/-- The lambda has looked at `Acq`, or is about to, and will call finish(). -/
def WakePc.stopping : WakePc → Bool → Bool
  | .finishLoop _, _ => true
  | .acquired _, acq => acq
  | .idle, _ | .pending, _ | .store _, _ | .notify _, _ | .done, _ => false

/-- What the plain loop does in a step, if anything. -/
def shown (s : State C) : Action C → Option (PlainLoop.Action C)
  | .call c k => some (.call c k)
  | .thread c =>
    match s.pc c with
    | .steal => if (s.runner c).finished then some .finish else none
    | .runLocked => some .enter
    | .uv _ => some .iterate
    | .unlock => some (if s.call c = .syncWait then .again else .finish)
    | _ => none
  | .event _ => some .event
  | .complete _ sig => some (.deliver sig)
  | .finish => some .stop
  | .fire => some .fire
  | .spurious _ | .wake _ => none

/-- What belongs to one call, and the stop flag. -/
structure Own (C : Type) where
  call : Call
  pc : Pc C
  wake : WakePc
  destination : Destination
  runner : TRunner
  finishCalled : Bool
  stopFlag : Bool

def State.own (s : State C) (c : C) : Own C where
  call := s.call c
  pc := s.pc c
  wake := s.wake c
  destination := s.destination c
  runner := s.runner c
  finishCalled := s.finishCalled c
  stopFlag := s.stopFlag

/-- The active call, beside the plain loop's account of it. -/
structure Course (o : Own C) (t : PlainLoop.State C) : Prop where
  call : o.call = t.call
  phase : o.pc.phase = some t.phase
  delivered : t.delivered = if o.wake.completed then some o.destination else none
  waits : t.call = .syncWait → o.wake ≠ .idle
  lambda : o.wake.running = true →
    t.phase.userCode = true ∧ (t.phase = .outside → o.pc = .steal ∧ o.runner.acq = false)
  entering : o.pc.entering = true → t.delivered = none
  counter : o.runner.awakenings = if o.finishCalled then 0 else 1
  finished : o.wake = .done → o.finishCalled = true
  stop : t.stop = (o.stopFlag || o.wake.stopping o.runner.acq)

/-- A state of the loop, beside one of the plain loop. -/
structure Shows (s : State C) (t : PlainLoop.State C) : Prop where
  rest : ∀ d, t.active ≠ some d →
    (s.pc d).ended = some (t.ended d) ∧ (s.wake d = .idle ∨ s.wake d = .done)
  busy : ∀ c, t.active = some c → t.ended c = none ∧ Course (s.own c) t
  free : t.active = none → t.stop = s.stopFlag
  runners : s.runners = []
  signal : t.signal = s.asyncSignal

section
variable {s s' : State C} {t t' : PlainLoop.State C} {c : C} {p : Pc C}

omit [DecidableEq C] in
theorem inCall_of_phase {ph : PlainLoop.Phase} (h : (s.pc c).phase = some ph) : InCall s c := by
  constructor
  · intro hp
    simp [hp, Pc.phase] at h
  · intro o hp
    simp [hp, Pc.phase] at h

theorem Shows.active_of (h : Shows s t) (hp : (s.pc c).ended = none) : t.active = some c := by
  by_contra hno
  have hend := (h.rest c hno).1
  simp [hp] at hend

omit [DecidableEq C] in
theorem Shows.inactive (h : Shows s t) (hout : ∀ d, ¬ InCall s d) : t.active = none := by
  cases hact : t.active with
  | none => rfl
  | some c => exact (hout c (inCall_of_phase (h.busy c hact).2.phase)).elim

/-- Nobody else runs the loop. -/
theorem Shows.not_running (h : Shows s t) (hr : RunInv s) (hc : t.active = some c)
    (hin : (s.pc c).inRunLocked = false) : s.running = false := by
  by_contra hrun
  obtain ⟨d, hd⟩ := hr.owner (by simpa using hrun)
  have hact : t.active = some d := h.active_of (by cases hp : s.pc d <;> simp_all [Pc.inRunLocked, Pc.ended])
  rw [hc] at hact
  cases hact
  simp [hin] at hd

omit [DecidableEq C] in
/-- Only the active call moves, and it stays active. -/
theorem Shows.keep (h : Shows s t) (hc : t.active = some c) (hact : t'.active = some c)
    (hend : t'.ended = t.ended) (hpc : ∀ d, d ≠ c → s'.pc d = s.pc d)
    (hwake : ∀ d, d ≠ c → s'.wake d = s.wake d) (hrunners : s'.runners = s.runners)
    (hsignal : t'.signal = s'.asyncSignal) (hcourse : Course (s'.own c) t') : Shows s' t' := by
  refine ⟨?_, ?_, ?_, hrunners.trans h.runners, hsignal⟩
  · intro d hd
    have hdc : d ≠ c := by
      rintro rfl
      exact hd hact
    rw [hpc d hdc, hwake d hdc, hend]
    refine h.rest d fun hd' => hdc ?_
    rw [hc] at hd'
    exact (Option.some.inj hd').symm
  · intro d hd
    rw [hact] at hd
    cases hd
    exact ⟨hend ▸ (h.busy c hc).1, hcourse⟩
  · intro hnone
    simp [hact] at hnone

omit [DecidableEq C] in
/-- A statement of the thread that moves the active call within its phase. -/
theorem Course.move {o : Own C} (h : Course o t) (hrun : o.wake.running = false)
    (hp : p.phase = some t.phase) (hent : p.entering = true → t.delivered = none) :
    Course { o with pc := p } t where
  call := h.call
  phase := hp
  delivered := h.delivered
  waits := h.waits
  lambda := fun hr => by simp [hrun] at hr
  entering := hent
  counter := h.counter
  finished := h.finished
  stop := h.stop

omit [DecidableEq C] in
/-- Past its test the runner's sender has not completed. -/
theorem Course.pending {o : Own C} (h : Course o t) (hrun : o.wake.running = false)
    (hfin : o.runner.finished = false) : t.delivered = none := by
  have hnot : o.wake.completed = false := by
    cases hw : o.wake with
    | done =>
      have hz := h.counter
      rw [h.finished hw, if_pos rfl] at hz
      simp [TRunner.finished, hz] at hfin
    | idle | pending => rfl
    | _ => simp [hw, WakePc.running] at hrun
  simp [h.delivered, hnot]

@[simp] theorem stopping_of_not_running {w : WakePc} (h : w.running = false) (b : Bool) :
    w.stopping b = false := by
  cases w <;> simp_all [WakePc.running, WakePc.stopping]

theorem Shows.stutter (h : Shows s t) (hc : t.active = some c) (hrun : (s.wake c).running = false)
    (hp : p.phase = some t.phase) (hent : p.entering = true → t.delivered = none)
    (hpc : s'.pc = Function.update s.pc c p) (hown : s'.own c = { s.own c with pc := s'.pc c })
    (hwake : s'.wake = s.wake) (hrunners : s'.runners = s.runners)
    (hsignal : s'.asyncSignal = s.asyncSignal) : Shows s' t := by
  refine h.keep hc hc rfl ?_ (fun d _ => congrFun hwake d) hrunners (hsignal ▸ h.signal) ?_
  · intro d hdc
    rw [hpc, Function.update_of_ne hdc]
  · rw [hown, hpc, Function.update_self]
    exact (h.busy c hc).2.move hrun hp hent

/-- A step of the thread that the plain loop takes too. -/
theorem Shows.advance (h : Shows s t) (hc : t.active = some c) (hrun : (s.wake c).running = false)
    (hact : t'.active = some c) (hend : t'.ended = t.ended) (hcall : t'.call = t.call)
    (hdel : t'.delivered = t.delivered) (hp : p.phase = some t'.phase)
    (hent : p.entering = true → t.delivered = none) (hstop : t'.stop = s'.stopFlag)
    (hpc : s'.pc = Function.update s.pc c p)
    (hown : s'.own c = { s.own c with pc := s'.pc c, stopFlag := s'.stopFlag })
    (hwake : s'.wake = s.wake) (hrunners : s'.runners = s.runners)
    (hsignal : t'.signal = s'.asyncSignal) : Shows s' t' := by
  have hcourse := (h.busy c hc).2
  have hrun' : (s.own c).wake.running = false := hrun
  refine h.keep hc hact hend ?_ (fun d _ => congrFun hwake d) hrunners hsignal ?_
  · intro d hdc
    rw [hpc, Function.update_of_ne hdc]
  · rw [hown, hpc, Function.update_self]
    refine ⟨hcourse.call.trans hcall.symm, hp, hdel.trans hcourse.delivered, ?_, ?_, ?_,
      hcourse.counter, hcourse.finished, ?_⟩
    · exact fun hsync => hcourse.waits (hcall ▸ hsync)
    · intro hr
      simp [hrun'] at hr
    · exact fun he => hdel.trans (hent he)
    · simp [hstop, hrun']

omit [DecidableEq C] in
/-- Outside of a lambda the two flags are the same. -/
theorem Shows.stop_eq (h : Shows s t) (hc : t.active = some c) (hrun : (s.wake c).running = false) :
    t.stop = s.stopFlag := by
  have hstop := (h.busy c hc).2.stop
  have hrun' : (s.own c).wake.running = false := hrun
  rw [stopping_of_not_running hrun', Bool.or_false] at hstop
  exact hstop

omit [DecidableEq C] in
theorem Shows.phase_eq (h : Shows s t) (hc : t.active = some c) {ph : PlainLoop.Phase}
    (hp : (s.pc c).phase = some ph) : t.phase = ph := by
  have hphase : (s.pc c).phase = some t.phase := (h.busy c hc).2.phase
  rw [hp] at hphase
  exact (Option.some.inj hphase).symm

/-! ### One step -/

/-- The plain loop does what the step shows, and the states match again. -/
def Follows (s : State C) (a : Action C) (s' : State C) (t : PlainLoop.State C) : Prop :=
  ∃ t', PlainLoop.system.exec t (shown s a).toList = some t' ∧ Shows s' t'

theorem follows_none {a : Action C} (ha : shown s a = none) (h : Shows s' t) : Follows s a s' t := by
  refine ⟨t, ?_, h⟩
  rw [ha]
  rfl

theorem follows_some {a : Action C} {b : PlainLoop.Action C} (ha : shown s a = some b)
    (h : ∃ t', PlainLoop.step t b = some t' ∧ Shows s' t') : Follows s a s' t := by
  obtain ⟨t', hb, hshows⟩ := h
  refine ⟨t', ?_, hshows⟩
  rw [ha]
  exact System.exec_cons [] hb

theorem shows_uv {p : UvPc} (h : Shows s t) (hp : s.pc c = .uv p)
    (hrun : (s.wake c).running = false) (hs : uvStep s c p = some s') :
    ∃ t', PlainLoop.step t .iterate = some t' ∧ Shows s' t' := by
  have hc : t.active = some c := h.active_of (by simp [hp, Pc.ended])
  have hphase : t.phase = .inside p := h.phase_eq hc (by simp [hp, Pc.phase])
  have hstop := h.stop_eq hc hrun
  have hcall : s.call c = t.call := (h.busy c hc).2.call
  have hstep : PlainLoop.step t .iterate = PlainLoop.uvStep t p := by
    simp [PlainLoop.step, hc, hphase]
  rw [hstep]
  cases p with
  | test =>
    cases hs
    refine ⟨_, rfl, h.advance hc hrun hc rfl rfl rfl ?_ ?_ hstop rfl rfl rfl rfl h.signal⟩
    · simp [Pc.phase, hstop]
    · simp [Pc.entering]
  | callbacks =>
    cases hs
    refine ⟨_, rfl, h.advance hc hrun hc rfl rfl rfl ?_ ?_ hstop rfl rfl rfl rfl h.signal⟩
    · simp [Pc.phase, hstop, hcall]
    · simp [Pc.entering]
  | poll b =>
    simp only [uvStep] at hs
    simp only [PlainLoop.uvStep, h.signal]
    split at hs
    next hsig =>
      cases hs
      rw [if_pos hsig]
      refine ⟨_, rfl, h.advance hc hrun hc rfl rfl rfl ?_ ?_ hstop rfl rfl rfl rfl rfl⟩
      · rfl
      · simp [Pc.entering]
    next hsig =>
      cases b with
      | true => cases hs
      | false =>
        cases hs
        rw [if_neg hsig]
        refine ⟨_, rfl, h.advance hc hrun hc rfl rfl rfl ?_ ?_ hstop rfl rfl rfl rfl rfl⟩
        · rfl
        · simp [Pc.entering]
  | events =>
    cases hs
    refine ⟨_, rfl, h.advance hc hrun hc rfl rfl rfl ?_ ?_ hstop rfl rfl rfl rfl h.signal⟩
    · simp [Pc.phase, hcall]
    · simp [Pc.entering]
  | exit =>
    cases hs
    refine ⟨_, rfl, h.advance hc hrun hc rfl rfl rfl ?_ ?_ ?_ rfl rfl rfl rfl h.signal⟩
    · rfl
    · simp [Pc.entering]
    · rfl

/-- The call leaves the loop with what the plain loop returns. -/
theorem Shows.leave {o : Outcome} (h : Shows s t) (hc : t.active = some c)
    (hrun : (s.wake c).running = false) (hpend : s.wake c ≠ .pending)
    (hpc : s'.pc = Function.update s.pc c (.returned o)) (hwake : s'.wake = s.wake)
    (hrunners : s'.runners = s.runners) (hsignal : s'.asyncSignal = s.asyncSignal)
    (hstop : s'.stopFlag = s.stopFlag) :
    Shows s' { t with active := none, ended := Function.update t.ended c (some o) } := by
  refine ⟨?_, by simp, ?_, hrunners.trans h.runners, h.signal.trans hsignal.symm⟩
  · intro d _
    rw [hpc, hwake]
    dsimp only
    by_cases hdc : d = c
    · subst hdc
      refine ⟨by simp [Pc.ended], ?_⟩
      cases hw : s.wake d <;> simp_all [WakePc.running]
    · rw [Function.update_of_ne hdc, Function.update_of_ne hdc]
      refine h.rest d fun hd => hdc ?_
      rw [hc] at hd
      exact (Option.some.inj hd).symm
  · intro _
    exact (h.stop_eq hc hrun).trans hstop.symm

theorem shows_call {k : Call} (hsync : SyncInv s) (h : Shows s t) (hp : s.pc c = .idle)
    (hout : ∀ d, ¬ InCall s d) (hpc : s'.pc = Function.update s.pc c p)
    (hwake : s'.wake = Function.update s.wake c (if k = .syncWait then .pending else .idle))
    (hphase : p.phase = some .outside) (hcall : s'.call c = k) (hrunner : s'.runner = s.runner)
    (hfin : s'.finishCalled = s.finishCalled) (hrunners : s'.runners = s.runners)
    (hsignal : s'.asyncSignal = s.asyncSignal) (hstop : s'.stopFlag = s.stopFlag) :
    ∃ t', PlainLoop.step t (.call c k) = some t' ∧ Shows s' t' := by
  have hact := h.inactive hout
  obtain ⟨hw, hno, hfresh, -⟩ := hsync.fresh c hp
  have hend : t.ended c = none := by
    have hrest := (h.rest c (by simp [hact])).1
    rw [hp] at hrest
    exact (Option.some.inj hrest).symm
  refine ⟨{ t with active := some c, call := k, phase := .outside, delivered := none },
    if_pos ⟨hact, hend⟩, ?_, ?_, by simp, hrunners.trans h.runners, h.signal.trans hsignal.symm⟩
  · intro d hd
    have hdc : d ≠ c := by
      rintro rfl
      exact hd rfl
    rw [hpc, hwake, Function.update_of_ne hdc, Function.update_of_ne hdc]
    exact h.rest d (by simp [hact])
  · intro d hd
    cases hd
    refine ⟨hend, ?_⟩
    have hcounter : s.finishCalled c = false := hno
    constructor
    · exact hcall
    · rw [State.own, hpc, Function.update_self]
      exact hphase
    · simp only [State.own, hwake, Function.update_self]
      split <;> rfl
    · intro hk
      simp only [State.own, hwake, Function.update_self]
      simp only at hk
      simp [hk]
    · simp only [State.own, hwake, Function.update_self]
      split <;> simp [WakePc.running]
    · intro _
      rfl
    · simp only [State.own, hrunner, hfresh, hfin, hno]
      rfl
    · simp only [State.own, hwake, Function.update_self]
      split <;> simp
    · simp only [State.own, hwake, Function.update_self, hstop, ← h.free hact]
      split <;> simp [WakePc.stopping]

/-- The lambda runs on behalf of the active call. -/
theorem Shows.active_of_lambda (h : Shows s t) (hrun : (s.wake c).running = true) :
    t.active = some c := by
  by_contra hno
  rcases (h.rest c hno).2 with hw | hw
  · simp [hw, WakePc.running] at hrun
  · simp [hw, WakePc.running] at hrun

/-- A statement of the lambda is none of the plain loop's. -/
theorem Shows.lambda {w : WakePc} (h : Shows s t) (hrun : (s.wake c).running = true)
    (hpc : s'.pc c = s.pc c) (hother : ∀ d, d ≠ c → s'.pc d = s.pc d)
    (hwake : s'.wake = Function.update s.wake c w) (hw : w.completed = true)
    (hcall : s'.call = s.call) (hdest : s'.destination = s.destination)
    (hacq : (s'.runner c).acq = (s.runner c).acq)
    (hcounter : (s'.runner c).awakenings = if s'.finishCalled c then 0 else 1)
    (hdone : w = .done → s'.finishCalled c = true) (hrunners : s'.runners = s.runners)
    (hsignal : s'.asyncSignal = s.asyncSignal)
    (hstop : t.stop = (s'.stopFlag || w.stopping (s.runner c).acq)) : Shows s' t := by
  have hc := h.active_of_lambda hrun
  have hcourse := (h.busy c hc).2
  have hlambda := hcourse.lambda hrun
  have hcomp : (s.wake c).completed = true := by
    cases hk : s.wake c <;> simp_all [WakePc.running, WakePc.completed]
  refine h.keep hc hc rfl hother ?_ hrunners (h.signal.trans hsignal.symm) ?_
  · intro d hdc
    rw [hwake, Function.update_of_ne hdc]
  · have hown : s'.own c = { s.own c with
        wake := w, runner := s'.runner c, finishCalled := s'.finishCalled c, stopFlag := s'.stopFlag } := by
      simp [State.own, hwake, hpc, hcall, hdest]
    rw [hown]
    refine ⟨hcourse.call, hcourse.phase, ?_, ?_, ?_, hcourse.entering, hcounter, hdone, ?_⟩
    · have hdel : t.delivered = if (s.wake c).completed then some (s.destination c) else none :=
        hcourse.delivered
      rw [hdel, hcomp]
      simp only [hw]
      rfl
    · rintro - rfl
      simp [WakePc.completed] at hw
    · intro _
      exact ⟨hlambda.1, fun hout => ⟨(hlambda.2 hout).1, hacq.trans (hlambda.2 hout).2⟩⟩
    · simp only [hacq]
      exact hstop

omit [DecidableEq C] in
theorem not_wait_of_userCode (h : Shows s t) (hc : t.active = some c) : (s.pc c).notified = s.pc c := by
  have hphase : (s.pc c).phase = some t.phase := (h.busy c hc).2.phase
  rcases notified_cases (s.pc c) with heq | ⟨w, hw, -⟩
  · exact heq
  · simp [hw, Pc.phase] at hphase

omit [DecidableEq C] in
theorem Shows.userCode (h : Shows s t) (hc : t.active = some c) (huser : InUserCode s c) :
    t.phase.userCode = true := by
  rcases huser with ⟨hp, -⟩ | hp | hp
  · have hphase : t.phase = .outside := h.phase_eq hc (by simp [hp, Pc.phase])
    rw [hphase]
    rfl
  · have hphase : t.phase = .inside .callbacks := h.phase_eq hc (by simp [hp, Pc.phase])
    rw [hphase]
    rfl
  · have hphase : t.phase = .inside .events := h.phase_eq hc (by simp [hp, Pc.phase])
    rw [hphase]
    rfl

omit [DecidableEq C] in
/-- Where the user's code is, `Acq` tells whether `uv_run` is around it. -/
theorem Shows.acq_eq (h : Shows s t) (hacq : AcqInv s) (hc : t.active = some c)
    (hsync : t.call = .syncWait) (huser : InUserCode s c) :
    (s.runner c).acq = t.phase.isInside := by
  have hcall : s.call c = .syncWait := (h.busy c hc).2.call.trans hsync
  rcases huser with ⟨hp, ha⟩ | hp | hp
  · have hphase : t.phase = .outside := h.phase_eq hc (by simp [hp, Pc.phase])
    rw [hphase, ha]
    rfl
  · have hphase : t.phase = .inside .callbacks := h.phase_eq hc (by simp [hp, Pc.phase])
    rw [hphase, hacq c hcall (by simp [hp, Pc.runs])]
    rfl
  · have hphase : t.phase = .inside .events := h.phase_eq hc (by simp [hp, Pc.phase])
    rw [hphase, hacq c hcall (by simp [hp, Pc.runs])]
    rfl

theorem shows_complete {sig : Signal} (hsync : SyncInv s) (hacq : AcqInv s) (h : Shows s t)
    (hk : s.wake c = .pending) (huser : InUserCode s c) :
    ∃ t', PlainLoop.step t (.deliver sig) = some t' ∧
      Shows ({ s with destination := Function.update s.destination c (emplaceResult sig) }.setWake c
        (.acquired (wakeups sig - 1))) t' := by
  have hc : t.active = some c := by
    by_contra hno
    rcases (h.rest c hno).2 with hw | hw
    · simp [hk] at hw
    · simp [hk] at hw
  obtain ⟨hend, hcourse⟩ := h.busy c hc
  have hcall : t.call = .syncWait := by
    by_contra hne
    have hw := hsync.idle c (fun hs => hne (hcourse.call.symm.trans hs))
    simp [hk] at hw
  have hdel : t.delivered = none := by
    have hd : t.delivered = if (s.wake c).completed then some (s.destination c) else none :=
      hcourse.delivered
    simpa [hk, WakePc.completed] using hd
  have hphase := h.userCode hc huser
  have hfin : s.finishCalled c = false := by
    by_contra hf
    have hcomp := hsync.completed c (by simpa using hf)
    simp [hk, WakePc.completed] at hcomp
  refine ⟨{ t with delivered := some (emplaceResult sig), stop := t.stop || t.phase.isInside },
    if_pos ⟨by simp [hc], hcall, hdel, hphase⟩, h.keep hc hc rfl (fun d _ => rfl) ?_ rfl h.signal ?_⟩
  · intro d hdc
    simp [hdc]
  · constructor
    · exact hcourse.call
    · exact hcourse.phase
    · simp [State.own, WakePc.completed]
    · simp [State.own]
    · intro _
      refine ⟨hphase, fun hout => ?_⟩
      rcases huser with hp | hp | hp
      · exact hp
      · simp [h.phase_eq hc (show (s.pc c).phase = some (.inside .callbacks) by simp [hp, Pc.phase])] at hout
      · simp [h.phase_eq hc (show (s.pc c).phase = some (.inside .events) by simp [hp, Pc.phase])] at hout
    · intro he
      rcases huser with ⟨hp, -⟩ | hp | hp
      all_goals simp [State.own, hp, Pc.entering] at he
    · exact hcourse.counter
    · simp [State.own]
    · have hrun : (s.wake c).running = false := by simp [hk, WakePc.running]
      simp [State.own, WakePc.stopping, h.stop_eq hc hrun, h.acq_eq hacq hc hcall huser]

/-- The lambda, as the user's code that it is part of. -/
theorem Shows.lambda_userCode (h : Shows s t) (hrun : (s.wake c).running = true) : InUserCode s c := by
  have hc := h.active_of_lambda hrun
  have hcourse := (h.busy c hc).2
  obtain ⟨huser, hout⟩ := hcourse.lambda hrun
  have hphase : (s.pc c).phase = some t.phase := hcourse.phase
  cases hph : t.phase with
  | outside => exact Or.inl (hout hph)
  | leaving => simp [hph, PlainLoop.Phase.userCode] at huser
  | inside p =>
    have hp : s.pc c = .uv p := by
      rw [hph] at hphase
      cases hpc : s.pc c with
      | uv q =>
        rw [hpc] at hphase
        cases hphase
        rfl
      | wakeupNext q => cases q <;> simp [hpc, Pc.phase] at hphase
      | _ => simp [hpc, Pc.phase] at hphase
    cases p with
    | callbacks => exact Or.inr (Or.inl hp)
    | events => exact Or.inr (Or.inr hp)
    | _ => simp [hph, PlainLoop.Phase.userCode] at huser

theorem shows_wake (hsync : SyncInv s) (hacq : AcqInv s) (ht : PlainLoop.StopInv t) (h : Shows s t)
    (hs : Step s (.wake c) s') : Shows s' t := by
  have hnotify (hrun : (s.wake c).running = true) : (s.pc c).notified = s.pc c :=
    not_wait_of_userCode h (h.active_of_lambda hrun)
  cases hs with
  | wakeAcquired _ k hk =>
    have hrun : (s.wake c).running = true := by simp [hk, WakePc.running]
    obtain ⟨-, hcourse⟩ := h.busy c (h.active_of_lambda hrun)
    have hstop : t.stop = (s.stopFlag || (s.wake c).stopping (s.runner c).acq) := hcourse.stop
    refine h.lambda hrun rfl (fun d _ => rfl) rfl ?_ rfl rfl rfl hcourse.counter ?_ rfl rfl ?_
    · split <;> rfl
    · intro hd
      split at hd <;> cases hd
    · rw [hstop, hk, TRunner.acquired]
      cases (s.runner c).acq <;> simp [WakePc.stopping]
  | wakeFinishLoop _ k hk =>
    have hrun : (s.wake c).running = true := by simp [hk, WakePc.running]
    obtain ⟨-, hcourse⟩ := h.busy c (h.active_of_lambda hrun)
    have hstop : t.stop = (s.stopFlag || (s.wake c).stopping (s.runner c).acq) := hcourse.stop
    refine h.lambda hrun rfl (fun d _ => rfl) rfl rfl rfl rfl rfl hcourse.counter (by simp) rfl rfl ?_
    rw [hstop, hk]
    simp [WakePc.stopping]
  | wakeStore _ k hk =>
    have hrun : (s.wake c).running = true := by simp [hk, WakePc.running]
    obtain ⟨-, hcourse⟩ := h.busy c (h.active_of_lambda hrun)
    have hstop : t.stop = (s.stopFlag || (s.wake c).stopping (s.runner c).acq) := hcourse.stop
    refine h.lambda hrun rfl (fun d _ => rfl) rfl rfl rfl rfl ?_ ?_ (by simp) rfl rfl ?_
    · simp
    · simp
    · rw [hstop, hk]
      simp [WakePc.stopping]
  | wakeDone _ hk =>
    have hrun : (s.wake c).running = true := by simp [hk, WakePc.running]
    obtain ⟨-, hcourse⟩ := h.busy c (h.active_of_lambda hrun)
    have hstop : t.stop = (s.stopFlag || (s.wake c).stopping (s.runner c).acq) := hcourse.stop
    refine h.lambda hrun ?_ ?_ rfl rfl rfl rfl rfl hcourse.counter ?_ rfl rfl ?_
    · simp [hnotify hrun]
    · intro d hdc
      simp [hdc]
    · intro _
      exact hsync.notified c 0 hk
    · rw [hstop, hk]
      simp [WakePc.stopping]
  | wakeAgain _ k hk =>
    have hrun : (s.wake c).running = true := by simp [hk, WakePc.running]
    have hc := h.active_of_lambda hrun
    obtain ⟨-, hcourse⟩ := h.busy c hc
    have hstop : t.stop = (s.stopFlag || (s.wake c).stopping (s.runner c).acq) := hcourse.stop
    have hdel : t.delivered = some (s.destination c) := by
      have hd : t.delivered = if (s.wake c).completed then some (s.destination c) else none :=
        hcourse.delivered
      simpa [hk, WakePc.completed] using hd
    have hcall : t.call = .syncWait := ht.sync (by simp [hc]) (by simp [hdel])
    refine h.lambda hrun ?_ ?_ rfl rfl rfl rfl rfl hcourse.counter (by simp) rfl rfl ?_
    · simp [hnotify hrun]
    · intro d hdc
      simp [hdc]
    · -- an earlier invocation has stopped the run that `Acq` tells of
      rw [hk] at hstop
      cases ha : (s.runner c).acq with
      | false => simpa [WakePc.stopping] using hstop
      | true =>
        have hin : t.phase.isInside = true :=
          (h.acq_eq hacq hc hcall (h.lambda_userCode hrun)).symm.trans ha
        have hset := ht.stopped (by simp [hc]) hin (by simp [hdel])
        rw [hset]
        simp [WakePc.stopping]

theorem shows_thread (hr : RunInv s) (hsync : SyncInv s) (h : Shows s t)
    (hrun : (s.wake c).running = false) (hs : Step s (.thread c) s') :
    Follows s (.thread c) s' t := by
  have hact (hp : (s.pc c).ended = none) : t.active = some c := h.active_of hp
  have hno (hp : (s.pc c).ended = none) (hnone : (s.pc c).phase = none) : False := by
    have hphase : (s.pc c).phase = some t.phase := (h.busy c (hact hp)).2.phase
    simp [hnone] at hphase
  have hent (hp : (s.pc c).ended = none) (he : (s.pc c).entering = true) : t.delivered = none :=
    (h.busy c (hact hp)).2.entering he
  cases hs with
  | stealReturn _ hp hfin =>
    refine follows_some (b := .finish) (by simp [shown, hp, hfin]) ?_
    have hc := hact (by simp [hp, Pc.ended])
    obtain ⟨-, hcourse⟩ := h.busy c hc
    have hcomp : (s.wake c).completed = true := by
      refine hsync.completed c ?_
      by_contra hf
      have hcounter : (s.runner c).awakenings = if s.finishCalled c then 0 else 1 := hcourse.counter
      rw [if_neg hf] at hcounter
      simp [TRunner.finished, hcounter] at hfin
    have hdel : t.delivered = some (s.destination c) := by
      have hd : t.delivered = if (s.wake c).completed then some (s.destination c) else none :=
        hcourse.delivered
      rwa [if_pos hcomp] at hd
    have hphase : t.phase = .outside := h.phase_eq hc (by simp [hp, Pc.phase])
    have hcall : t.call = .syncWait := hcourse.call.symm.trans (hsync.steal c (Or.inl hp))
    refine ⟨_, ?_, h.leave hc hrun ?_ rfl rfl rfl rfl rfl⟩
    · simp [PlainLoop.step, PlainLoop.result, hc, hphase, hcall, hdel]
    · intro hpend
      simp [hpend, WakePc.completed] at hcomp
  | stealLock _ hp hfin =>
    refine follows_none (by simp [shown, hp, hfin]) ?_
    have hc := hact (by simp [hp, Pc.ended])
    have hphase : t.phase = .outside := h.phase_eq hc (by simp [hp, Pc.phase])
    refine h.stutter hc hrun (by simp [hphase, Pc.phase]) ?_ rfl rfl rfl rfl rfl
    exact fun _ => (h.busy c hc).2.pending hrun hfin
  | lock _ hp hm | runningAcquire _ hp _ _ | runningRun _ hp _ _ =>
    refine follows_none (by simp [shown, hp]) ?_
    have hc := hact (by simp [hp, Pc.ended])
    have hphase : t.phase = .outside := h.phase_eq hc (by simp [hp, Pc.phase])
    refine h.stutter hc hrun (by simp [hphase, Pc.phase]) ?_ rfl rfl rfl rfl rfl
    exact fun _ => hent (by simp [hp, Pc.ended]) (by simp [hp, Pc.entering])
  | runningAdd _ hp hrunning =>
    have hc := hact (by simp [hp, Pc.ended])
    simp [h.not_running hr hc (by simp [hp, Pc.inRunLocked])] at hrunning
  | acquired _ hp hacq =>
    refine follows_none (by simp [shown, hp]) ?_
    have hc := hact (by simp [hp, Pc.ended])
    obtain ⟨-, hcourse⟩ := h.busy c hc
    have hphase : t.phase = .outside := h.phase_eq hc (by simp [hp, Pc.phase])
    have hdel := hent (by simp [hp, Pc.ended]) (by simp [hp, Pc.entering])
    have hrun' : (s.own c).wake.running = false := hrun
    refine h.keep hc hc rfl ?_ (fun d _ => rfl) rfl h.signal ?_
    · intro d hdc
      simp [hdc]
    · refine ⟨hcourse.call, ?_, hcourse.delivered, hcourse.waits, ?_, fun _ => hdel, ?_,
        hcourse.finished, ?_⟩
      · simp [State.own, hphase, Pc.phase]
      · intro hr'
        exact absurd hr' (by simp [State.own, hrun])
      · have hcounter : (s.runner c).awakenings = if s.finishCalled c then 0 else 1 := hcourse.counter
        simp only [State.own, Function.update_self, TRunner.acquireIfNotFinished_awakenings]
        exact hcounter
      · simp [State.own, hrun, h.stop_eq hc hrun]
  | notAcquired _ hp hacq =>
    -- a runner whose sender has not completed can be acquired
    have hc := hact (by simp [hp, Pc.ended])
    obtain ⟨-, hcourse⟩ := h.busy c hc
    have hdel := hent (by simp [hp, Pc.ended]) (by simp [hp, Pc.entering])
    have hcomp : (s.wake c).completed = false := by
      by_contra hno
      have hd : t.delivered = if (s.wake c).completed then some (s.destination c) else none :=
        hcourse.delivered
      rw [if_pos (by simpa using hno), hdel] at hd
      cases hd
    have hfin : s.finishCalled c = false := by
      by_contra hf
      simp [hsync.completed c (by simpa using hf)] at hcomp
    have hcounter : (s.runner c).awakenings = if s.finishCalled c then 0 else 1 := hcourse.counter
    have hyes := (TRunner.acquireIfNotFinished_snd (s.runner c)).mpr (Or.inl (by simp [hcounter, hfin]))
    simp [hacq] at hyes
  | runLocked _ hp =>
    refine follows_some (b := .enter) (by simp [shown, hp]) ?_
    have hc := hact (by simp [hp, Pc.ended])
    have hphase : t.phase = .outside := h.phase_eq hc (by simp [hp, Pc.phase])
    have hdel := hent (by simp [hp, Pc.ended]) (by simp [hp, Pc.entering])
    refine ⟨_, if_pos ⟨by simp [hc], hphase, hdel⟩,
      h.advance hc hrun hc rfl rfl rfl rfl ?_ (h.stop_eq hc hrun) rfl rfl rfl rfl h.signal⟩
    exact fun _ => hdel
  | uvTest _ hp | uvCallbacks _ hp | uvEvents _ hp | uvExit _ hp =>
    exact follows_some (by simp [shown, hp]) (shows_uv h hp hrun rfl)
  | uvSignal _ b hp hsig => 
    exact follows_some (by simp [shown, hp]) (shows_uv h hp hrun (if_pos hsig))
  | uvPoll _ hp hsig => 
    exact follows_some (by simp [shown, hp]) (shows_uv h hp hrun (by simp [uvStep, hsig]))
  | relockRun _ hp hm =>
    refine follows_none (by simp [shown, hp]) ?_
    have hc := hact (by simp [hp, Pc.ended])
    have hphase : t.phase = .leaving := h.phase_eq hc (by simp [hp, Pc.phase])
    exact h.stutter hc hrun (by simp [hphase, Pc.phase]) (by simp [Pc.entering]) rfl rfl rfl rfl rfl
  | nextEmpty _ hp hq =>
    refine follows_none (by simp [shown, hp]) ?_
    have hc := hact (by simp [hp, Pc.ended])
    have hphase : t.phase = .leaving := h.phase_eq hc (by simp [hp, Pc.phase])
    exact h.stutter hc hrun (by simp [hphase, Pc.phase]) (by simp [Pc.entering]) rfl rfl rfl rfl rfl
  | nextPop _ n rest hp hq =>
    rw [h.runners] at hq
    cases hq
  | unlock _ hp =>
    have hc := hact (by simp [hp, Pc.ended])
    obtain ⟨-, hcourse⟩ := h.busy c hc
    have hcall : s.call c = t.call := hcourse.call
    have hphase : t.phase = .leaving := h.phase_eq hc (by simp [hp, Pc.phase])
    by_cases hk : s.call c = .syncWait
    · refine follows_some (b := .again) (by simp [shown, hp, hk]) ?_
      refine ⟨_, if_pos ⟨by simp [hc], hcall.symm.trans hk, hphase⟩,
        h.advance hc hrun hc rfl rfl rfl ?_ ?_ (h.stop_eq hc hrun) rfl rfl rfl rfl h.signal⟩
      · simp [afterRun, hk, Pc.phase]
      · simp [afterRun, hk, Pc.entering]
    · refine follows_some (b := .finish) (by simp [shown, hp, hk]) ?_
      refine ⟨_, ?_, h.leave (o := .values) hc hrun ?_ ?_ rfl rfl rfl rfl⟩
      · simp [PlainLoop.step, PlainLoop.result, hc, hphase, ← hcall, hk]
      · simp [hsync.idle c hk]
      · simp [afterRun, hk]
  | nextSkip _ n hp | nextTake _ n hp | nextFetchAdd _ n hp | nextNotify _ n hp | add _ hp
  | unlockWait _ hp | waitLoad _ hp | waitAgain _ w hp | waitLeave _ w hp | waitBlock _ w hp
  | waitReturn _ w hp | relock _ hp | erase _ hp | unlockLoop _ hp =>
    exact (hno (by simp [hp, Pc.ended]) (by simp [hp, Pc.phase])).elim

theorem shows_step {a : Action C} (hr : RunInv s) (hsync : SyncInv s) (hacq : AcqInv s)
    (ht : PlainLoop.StopInv t) (h : Shows s t) (hok : OneThread s a) (hs : Step s a s') :
    Follows s a s' t := by
  cases a with
  | call c k =>
    refine follows_some rfl ?_
    cases hs with
    | callSteal _ hp =>
      exact shows_call (k := .syncWait) hsync h hp hok rfl rfl rfl (by simp) rfl rfl rfl rfl rfl
    | callLock _ _ hp hk =>
      refine shows_call (k := k) hsync h hp hok rfl ?_ rfl (by simp) rfl rfl rfl rfl rfl
      rw [if_neg hk, ← (hsync.fresh c hp).1, Function.update_eq_self]
  | thread c => exact shows_thread hr hsync h hok hs
  | event c =>
    refine follows_some rfl ?_
    cases hs with
    | uvEvent _ hp =>
      have hc : t.active = some c := h.active_of (by simp [hp, Pc.ended])
      have hphase : t.phase = .inside (.poll true) := h.phase_eq hc (by simp [hp, Pc.phase])
      have hrun : (s.wake c).running = false := by
        cases hw : (s.wake c).running with
        | false => rfl
        | true =>
          have huser := ((h.busy c hc).2.lambda hw).1
          simp [hphase, PlainLoop.Phase.userCode] at huser
      refine ⟨{ t with phase := .inside .events }, ?_, h.advance hc hrun hc rfl rfl rfl rfl
        (by simp [Pc.entering]) (h.stop_eq hc hrun) rfl rfl rfl rfl h.signal⟩
      simp [PlainLoop.step, hc, hphase]
  | spurious c =>
    cases hs with
    | spurious _ w hp =>
      have hc : t.active = some c := h.active_of (by simp [hp, Pc.ended])
      have hphase : (s.pc c).phase = some t.phase := (h.busy c hc).2.phase
      simp [hp, Pc.phase] at hphase
  | complete c sig =>
    refine follows_some rfl ?_
    cases hs with
    | complete _ _ hk => exact shows_complete hsync hacq h hk hok
  | wake c => exact follows_none rfl (shows_wake hsync hacq ht h hs)
  | finish =>
    refine follows_some rfl ?_
    cases hs with
    | finish =>
      refine ⟨{ t with stop := true }, if_pos ?_, h.rest, ?_, fun _ => rfl, h.runners, h.signal⟩
      · cases hact : t.active with
        | none => exact Or.inl rfl
        | some c =>
          exact Or.inr (h.userCode hact (hok c (inCall_of_phase (h.busy c hact).2.phase)))
      · intro c hc
        obtain ⟨hend, hcourse⟩ := h.busy c hc
        exact ⟨hend, hcourse.call, hcourse.phase, hcourse.delivered, hcourse.waits, hcourse.lambda,
          hcourse.entering, hcourse.counter, hcourse.finished, rfl⟩
  | fire =>
    refine follows_some rfl ?_
    cases hs with
    | fire =>
      refine ⟨{ t with signal := true }, rfl, h.rest, ?_, h.free, h.runners, rfl⟩
      intro c hc
      obtain ⟨hend, hcourse⟩ := h.busy c hc
      exact ⟨hend, hcourse.call, hcourse.phase, hcourse.delivered, hcourse.waits, hcourse.lambda,
        hcourse.entering, hcourse.counter, hcourse.finished, hcourse.stop⟩

end

omit [DecidableEq C] in
theorem shows_initial : Shows (initial : State C) {} := by
  refine ⟨?_, by simp, fun _ => rfl, rfl, rfl⟩
  intro d _
  exact ⟨rfl, Or.inl rfl⟩

theorem reachableVia_shows {s : State C} (h : system.ReachableVia OneThread s) :
    ∃ t, PlainLoop.system.Reachable t ∧ Shows s t := by
  refine System.ReachableVia.related (fun _ hr => hr.reachable) ?_ ?_ h
  · rintro _ rfl
    exact ⟨{}, rfl, shows_initial⟩
  · intro s a s' t hreach ht hshows hok hs
    exact ⟨_, shows_step (reachable_runInv hreach) (reachable_syncInv hreach) (reachable_acqInv hreach)
      (PlainLoop.reachable_stopInv ht) hshows hok (step_cases hs)⟩

/-- Refinement: a run of a loop that one thread drives, without the statements
that the plain loop lacks, is a run of the plain loop. The mutex is held by
nobody else, no runner waits, and each call returns what the plain one does. -/
theorem one_thread_plain {s : State C} (as : List (Action C))
    (hok : system.Admitted OneThread initial as) (h : system.exec initial as = some s) :
    ∃ t, PlainLoop.system.exec {} (system.trace shown initial as) = some t ∧ Shows s t := by
  refine System.exec_simulate_via shown (fun _ hr => hr.reachable) ?_ as (.initial rfl) (.initial rfl)
    shows_initial hok h
  intro s a s' t hreach ht hshows hok hs
  exact shows_step (reachable_runInv hreach) (reachable_syncInv hreach) (reachable_acqInv hreach)
    (PlainLoop.reachable_stopInv ht) hshows hok (step_cases hs)

/-- A `sync_wait` whose sender completes in a callback of its own run. -/
def completedInside : List (Action Unit) :=
  .call () .syncWait :: List.replicate 6 (.thread ()) ++ .complete () (.value false) ::
    List.replicate 4 (.wake ()) ++ List.replicate 9 (.thread ())

theorem one_thread_plain_inside : ∃ s t, system.exec (initial : State Unit) completedInside = some s ∧
    s.pc () = .returned .values ∧
    PlainLoop.system.exec {} (system.trace shown initial completedInside) = some t ∧ Shows s t := by
  have hrun : (system.exec (initial : State Unit) completedInside).map (fun s => s.pc ()) =
      some (.returned .values) := by decide
  obtain ⟨s, hs, hpc⟩ := Option.map_eq_some_iff.mp hrun
  have hok : system.Admitted OneThread (initial : State Unit) completedInside := by
    refine .cons ?_ rfl ?_
    · intro d hd
      exact hd.1 rfl
    refine .cons rfl rfl (.cons rfl rfl (.cons rfl rfl (.cons rfl rfl (.cons rfl rfl (.cons rfl rfl ?_)))))
    refine .cons (Or.inr (Or.inl rfl)) rfl ?_
    refine .cons trivial rfl (.cons trivial rfl (.cons trivial rfl (.cons trivial rfl ?_)))
    refine .cons rfl rfl (.cons rfl rfl (.cons rfl rfl (.cons rfl rfl (.cons rfl rfl ?_))))
    exact .cons rfl rfl (.cons rfl rfl (.cons rfl rfl (.cons rfl rfl trivial)))
  obtain ⟨t, ht, hshows⟩ := one_thread_plain completedInside hok hs
  exact ⟨s, t, hs, hpc, ht, hshows⟩

/-! ### A completed `sync_wait` returns -/

/-- The statements that are left of the lambda. -/
def WakePc.left : WakePc → ℕ
  | .acquired k => 4 * k + 4
  | .finishLoop k => 4 * k + 3
  | .store k => 4 * k + 2
  | .notify k => 4 * k + 1
  | .idle | .pending | .done => 0

/-- The statements that are left of the call once its sender has completed. -/
def Pc.left : Pc C → ℕ
  | .uv .callbacks => 9
  | .uv (.poll _) => 8
  | .uv .events => 7
  | .uv .test => 6
  | .uv .exit => 5
  | .relockRun => 4
  | .wakeupNext _ => 3
  | .unlock => 2
  | .steal => 1
  | .idle | .lock | .running | .acquire | .runLocked | .add | .unlockWait | .wait _ | .relock
  | .erase | .unlockLoop | .returned _ => 0

/-- Of its own thread's steps. -/
def OwnStep (c : C) (a : Action C) : Prop := a = .thread c ∨ a = .wake c

theorem left_step {s s' : State C} {a : Action C} {d : C} (hi : (s.wake d).left ≤ 8)
    (h : Step s a s') : (s'.wake d).left ≤ 8 := by
  cases h with
  | callSteal c hp =>
    exact kept_of_move (P := fun w : WakePc => w.left ≤ 8) hi fun _ => by simp [WakePc.left]
  | complete c sig hk =>
    refine kept_of_move (P := fun w : WakePc => w.left ≤ 8) hi fun _ => ?_
    rcases sig with (_ | _) | _ | _ <;> simp [WakePc.left, wakeups]
  | wakeAcquired c k hk =>
    refine kept_of_move (P := fun w : WakePc => w.left ≤ 8) hi fun hc => ?_
    rw [hk, WakePc.left] at hc
    split <;> simp only [WakePc.left] <;> omega
  | wakeFinishLoop c k hk | wakeStore c k hk | wakeAgain c k hk =>
    refine kept_of_move (P := fun w : WakePc => w.left ≤ 8) hi fun hc => ?_
    rw [hk, WakePc.left] at hc
    simp only [WakePc.left]
    omega
  | wakeDone c hk =>
    exact kept_of_move (P := fun w : WakePc => w.left ≤ 8) hi fun _ => by simp [WakePc.left]
  | _ => exact hi

theorem reachable_left {s : State C} (h : system.Reachable s) (c : C) : (s.wake c).left ≤ 8 := by
  refine System.Reachable.invariant (I := fun s => (s.wake c).left ≤ 8) ?_ ?_ h
  · rintro _ rfl
    simp [initial, WakePc.left]
  · intro s a s' hi hs
    exact left_step hi (step_cases hs)

section
variable {s s' : State C} {t : PlainLoop.State C} {c : C}

theorem Shows.active_of_inCall (h : Shows s t) (hin : InCall s c) : t.active = some c := by
  refine h.active_of ?_
  cases hp : s.pc c with
  | idle => exact (hin.1 hp).elim
  | returned o => exact (hin.2 o hp).elim
  | _ => rfl

theorem Shows.mutex_free (h : Shows s t) (hm : MtxInv s) (hc : t.active = some c)
    (hp : (s.pc c).holds = false) : s.runMtx = none := by
  cases hmtx : s.runMtx with
  | none => rfl
  | some d =>
    have hd := (hm d).mp hmtx
    have hact : t.active = some d := by
      refine h.active_of ?_
      cases hpd : s.pc d <;> simp_all [Pc.holds, Pc.ended]
    rw [hc] at hact
    cases hact
    simp [hp] at hd

/-- What a statement of the thread leaves as it is, on the way out of the call. -/
structure Outward (s : State C) (c : C) (s' : State C) : Prop where
  call : s'.call = s.call
  wake : s'.wake = s.wake
  destination : s'.destination = s.destination
  left : (s'.pc c).left < (s.pc c).left
  pc : InCall s' c ∨ s'.pc c = .returned (unwrapSyncWaitReceiverState (s.destination c))

theorem outward_thread (hm : MtxInv s) (ht : PlainLoop.StopInv t) (h : Shows s t) (hin : InCall s c)
    (hw : s.wake c = .done) : ∃ s', step s (.thread c) = some s' ∧ Outward s c s' := by
  have hc := h.active_of_inCall hin
  obtain ⟨-, hcourse⟩ := h.busy c hc
  have hrun : (s.wake c).running = false := by simp [hw, WakePc.running]
  have hdel : t.delivered = some (s.destination c) := by
    have hd : t.delivered = if (s.wake c).completed then some (s.destination c) else none :=
      hcourse.delivered
    simpa [hw, WakePc.completed] using hd
  have hsync : s.call c = .syncWait := hcourse.call.trans (ht.sync (by simp [hc]) (by simp [hdel]))
  have hent : (s.pc c).entering = true → False := by
    intro he
    have hnone := hcourse.entering he
    simp [hdel] at hnone
  have hphase : (s.pc c).phase = some t.phase := hcourse.phase
  have hstop : t.phase.isInside = true → s.stopFlag = true := by
    intro hin
    exact (h.stop_eq hc hrun).symm.trans (ht.stopped (by simp [hc]) hin (by simp [hdel]))
  cases hp : s.pc c with
  | idle => exact (hin.1 hp).elim
  | returned o => exact (hin.2 o hp).elim
  | lock | running | acquire | runLocked => exact (hent (by simp [hp, Pc.entering])).elim
  | add | unlockWait | wait | relock | erase | unlockLoop => simp [hp, Pc.phase] at hphase
  | steal =>
    have hfin : (s.runner c).finished = true := by
      have hcounter : (s.runner c).awakenings = if s.finishCalled c then 0 else 1 := hcourse.counter
      rw [TRunner.finished_iff, hcounter, if_pos]
      exact hcourse.finished hw
    have hs : step s (.thread c) = some (s.setPc c (.returned (unwrapSyncWaitReceiverState (s.destination c)))) := by
      simp [step, threadStep, hp, hfin]
    refine ⟨_, hs, rfl, rfl, rfl, ?_, ?_⟩
    · simp [hp, Pc.left]
    · simp
  | uv p =>
    have hinside : t.phase = .inside p := h.phase_eq hc (by simp [hp, Pc.phase])
    have hset := hstop (by simp [hinside, PlainLoop.Phase.isInside])
    cases p with
    | test =>
      have hs : step s (.thread c) = some (s.setPc c (.uv .exit)) := by
        simp [step, threadStep, hp, uvStep, hset]
      refine ⟨_, hs, rfl, rfl, rfl, ?_, ?_⟩
      · simp [hp, Pc.left]
      · simp [InCall]
    | callbacks =>
      have hs : step s (.thread c) = some (s.setPc c (.uv (.poll false))) := by
        simp [step, threadStep, hp, uvStep, hset]
      refine ⟨_, hs, rfl, rfl, rfl, ?_, ?_⟩
      · simp [hp, Pc.left]
      · simp [InCall]
    | poll b =>
      have hb : b = false := by
        cases b with
        | false => rfl
        | true =>
          have hnone := ht.blocked (by simp [hc]) hinside
          simp [hdel] at hnone
      subst hb
      cases hsig : s.asyncSignal with
      | false =>
        have hs : step s (.thread c) = some (s.setPc c (.uv .events)) := by
          simp [step, threadStep, hp, uvStep, hsig]
        refine ⟨_, hs, rfl, rfl, rfl, ?_, ?_⟩
        · simp [hp, Pc.left]
        · simp [InCall]
      | true =>
        have hs : step s (.thread c) = some ({ s with asyncSignal := false }.setPc c (.uv .events)) := by
          simp [step, threadStep, hp, uvStep, hsig]
        refine ⟨_, hs, rfl, rfl, rfl, ?_, ?_⟩
        · simp [hp, Pc.left]
        · simp [InCall]
    | events =>
      have hs : step s (.thread c) = some (s.setPc c (.uv .test)) := by
        simp [step, threadStep, hp, uvStep, hsync, Call.mode]
      refine ⟨_, hs, rfl, rfl, rfl, ?_, ?_⟩
      · simp [hp, Pc.left]
      · simp [InCall]
    | exit =>
      have hs : step s (.thread c) = some ({ s with stopFlag := false, userStop := false }.setPc c .relockRun) := by
        simp [step, threadStep, hp, uvStep]
      refine ⟨_, hs, rfl, rfl, rfl, ?_, ?_⟩
      · simp [hp, Pc.left]
      · simp [InCall]
  | relockRun =>
    have hfree := h.mutex_free hm hc (by simp [hp, Pc.holds])
    have hs : step s (.thread c) = some ({ s with runMtx := some c, running := false }.setPc c (.wakeupNext .empty)) := by
      simp [step, threadStep, hp, acquireMtx, hfree]
    refine ⟨_, hs, rfl, rfl, rfl, ?_, ?_⟩
    · simp [hp, Pc.left]
    · simp [InCall]
  | wakeupNext p =>
    cases p with
    | empty =>
      have hs : step s (.thread c) = some (s.setPc c .unlock) := by
        simp [step, threadStep, hp, wakeupNextStep, h.runners]
      refine ⟨_, hs, rfl, rfl, rfl, ?_, ?_⟩
      · simp [hp, Pc.left]
      · simp [InCall]
    | _ => simp [hp, Pc.phase] at hphase
  | unlock =>
    have hs : step s (.thread c) = some ({ s with runMtx := none }.setPc c .steal) := by
      simp [step, threadStep, hp, afterRun, hsync]
    refine ⟨_, hs, rfl, rfl, rfl, ?_, ?_⟩
    · simp [hp, Pc.left]
    · simp [InCall]

/-- What a statement of the lambda leaves as it is. -/
structure Inward (s : State C) (c : C) (s' : State C) : Prop where
  call : s'.call = s.call
  pc : s'.pc c = s.pc c
  destination : s'.destination = s.destination
  completed : (s'.wake c).completed = true
  left : (s'.wake c).left < (s.wake c).left

theorem inward_wake (h : Shows s t) (hrun : (s.wake c).running = true) :
    ∃ s', step s (.wake c) = some s' ∧ Inward s c s' := by
  have hnotify := not_wait_of_userCode h (h.active_of_lambda hrun)
  cases hw : s.wake c with
  | idle | pending | done => simp [hw, WakePc.running] at hrun
  | acquired k =>
    have hs : step s (.wake c) =
        some (s.setWake c (if (s.runner c).acquired then .finishLoop k else .store k)) := by
      simp [step, wakeStep, hw]
    refine ⟨_, hs, rfl, rfl, rfl, ?_, ?_⟩
    · cases ha : (s.runner c).acquired <;> simp [WakePc.completed]
    · cases ha : (s.runner c).acquired <;> simp [hw, WakePc.left]
  | finishLoop k =>
    have hs : step s (.wake c) = some ((Loop.finish s).setWake c (.store k)) := by
      simp [step, wakeStep, hw]
    refine ⟨_, hs, rfl, rfl, rfl, ?_, ?_⟩
    · simp [WakePc.completed]
    · simp [hw, WakePc.left]
  | store k =>
    have hs : step s (.wake c) = some ({ s with
        finishCalled := Function.update s.finishCalled c true }.setRunner c
          (s.runner c).finish |>.setWake c (.notify k)) := by
      simp [step, wakeStep, hw]
    refine ⟨_, hs, rfl, rfl, rfl, ?_, ?_⟩
    · simp [WakePc.completed]
    · simp [hw, WakePc.left]
  | notify k =>
    cases k with
    | zero =>
      have hs : step s (.wake c) = some ((s.notify c).setWake c .done) := by
        simp [step, wakeStep, hw]
      refine ⟨_, hs, rfl, ?_, rfl, ?_, ?_⟩
      · simp [hnotify]
      · simp [WakePc.completed]
      · simp [hw, WakePc.left]
    | succ k =>
      have hs : step s (.wake c) = some ((s.notify c).setWake c (.acquired k)) := by
        simp [step, wakeStep, hw]
      refine ⟨_, hs, rfl, ?_, rfl, ?_, ?_⟩
      · simp [hnotify]
      · simp [WakePc.completed]
      · simp only [Function.update_self, hw, WakePc.left]
        omega

end

/-- A completed `sync_wait` of a loop that one thread drives: inside, or returned
with its result. -/
structure Returning (c : C) (d : Destination) (s : State C) : Prop where
  reach : system.ReachableVia OneThread s
  completed : (s.wake c).completed = true
  destination : s.destination c = d
  pc : InCall s c ∨ s.pc c = .returned (unwrapSyncWaitReceiverState d)

/-- The statements that are left of the call and of the lambda. -/
def State.left (s : State C) (c : C) : ℕ := (s.wake c).left + (s.pc c).left

omit [DecidableEq C] in
theorem Pc.left_le (p : Pc C) : p.left ≤ 9 := by
  cases p with
  | uv q => cases q <;> simp [Pc.left]
  | _ => simp [Pc.left]

section
variable {s s' : State C} {c : C} {d : Destination} {a : Action C}

theorem Returning.left_le (h : Returning c d s) : s.left c ≤ 17 := by
  have hwake := reachable_left h.reach.reachable c
  have hpc := (s.pc c).left_le
  unfold State.left
  omega

omit [DecidableEq C] in
theorem done_of_completed (hcomp : (s.wake c).completed = true)
    (hrun : (s.wake c).running = false) : s.wake c = .done := by
  cases hk : s.wake c <;> simp_all [WakePc.running, WakePc.completed]

/-- A statement of the lambda, which goes first. -/
theorem Returning.wake (h : Returning c d s) (hin : InCall s c) (hrun : (s.wake c).running = true) :
    ∃ s', step s (.wake c) = some s' ∧ Returning c d s' ∧ s'.left c < s.left c := by
  obtain ⟨t, -, hshows⟩ := reachableVia_shows h.reach
  obtain ⟨s', hs, hinward⟩ := inward_wake hshows hrun
  have hpc : InCall s' c := by
    rw [InCall, hinward.pc]
    exact hin
  refine ⟨s', hs, ⟨h.reach.step (.wake c) trivial hs, hinward.completed, ?_, Or.inl hpc⟩, ?_⟩
  · rw [hinward.destination]
    exact h.destination
  · have hleft := hinward.left
    rw [State.left, State.left, hinward.pc]
    omega

/-- A statement of the thread on its way out of the call. -/
theorem Returning.thread (h : Returning c d s) (hin : InCall s c)
    (hrun : (s.wake c).running = false) :
    ∃ s', step s (.thread c) = some s' ∧ Returning c d s' ∧ s'.left c < s.left c := by
  obtain ⟨t, ht, hshows⟩ := reachableVia_shows h.reach
  obtain ⟨s', hs, hout⟩ := outward_thread (reachable_mtxInv h.reach.reachable)
    (PlainLoop.reachable_stopInv ht) hshows hin (done_of_completed h.completed hrun)
  refine ⟨s', hs, ⟨h.reach.step (.thread c) hrun hs, ?_, ?_, ?_⟩, ?_⟩
  · rw [hout.wake]
    exact h.completed
  · rw [hout.destination]
    exact h.destination
  · rw [← h.destination]
    exact hout.pc
  · have hleft := hout.left
    rw [State.left, State.left, hout.wake]
    omega

theorem returning_step (h : Returning c d s)
    (hno : s.pc c ≠ .returned (unwrapSyncWaitReceiverState d)) :
    ∃ a s', OwnStep c a ∧ OneThread s a ∧ step s a = some s' ∧ Returning c d s' ∧
      s'.left c < s.left c := by
  have hin : InCall s c := h.pc.resolve_right hno
  cases hrun : (s.wake c).running with
  | true =>
    obtain ⟨s', hs, hnext, hlt⟩ := h.wake hin hrun
    exact ⟨.wake c, s', Or.inr rfl, trivial, hs, hnext, hlt⟩
  | false =>
    obtain ⟨s', hs, hnext, hlt⟩ := h.thread hin hrun
    exact ⟨.thread c, s', Or.inl rfl, hrun, hs, hnext, hlt⟩

/-- What the step of another one leaves of the call. -/
structure Aside (s : State C) (c : C) (s' : State C) : Prop where
  wake : s'.wake c = s.wake c
  destination : s'.destination c = s.destination c
  pc : s'.pc c = s.pc c ∨ s'.pc c = (s.pc c).notified ∨
    s.pc c = .uv (.poll true) ∧ s'.pc c = .uv .events

theorem aside_step (hcomp : (s.wake c).completed = true) (hidle : s.pc c ≠ .idle)
    (hown : ¬OwnStep c a) (h : Step s a s') : Aside s c s' := by
  simp only [OwnStep, not_or] at hown
  obtain ⟨hthread, hwake⟩ := hown
  cases h with
  | callSteal e hp | callLock e k hp =>
    have hce : c ≠ e := by
      rintro rfl
      exact hidle hp
    exact ⟨by simp [hce], rfl, Or.inl (by simp [hce])⟩
  | uvEvent e hp =>
    by_cases hce : c = e
    · subst hce
      exact ⟨rfl, rfl, Or.inr (Or.inr ⟨hp, by simp⟩)⟩
    · exact ⟨rfl, rfl, Or.inl (by simp [hce])⟩
  | spurious e w hp =>
    by_cases hce : c = e
    · subst hce
      exact ⟨rfl, rfl, Or.inr (Or.inl (by simp [hp, Pc.notified]))⟩
    · exact ⟨rfl, rfl, Or.inl (by simp [hce])⟩
  | complete e sig hk =>
    have hce : c ≠ e := by
      rintro rfl
      simp [hk, WakePc.completed] at hcomp
    exact ⟨by simp [hce], by simp [hce], Or.inl rfl⟩
  | wakeAcquired e k | wakeFinishLoop e k | wakeStore e k | wakeDone e | wakeAgain e k =>
    have hce : c ≠ e := by
      rintro rfl
      exact hwake rfl
    exact ⟨by simp [hce], rfl, Or.inl (by simp [hce])⟩
  | finish | fire => exact ⟨rfl, rfl, Or.inl rfl⟩
  | nextNotify e n hp =>
    have hce : c ≠ e := by
      rintro rfl
      exact hthread rfl
    by_cases hcn : c = n
    · subst hcn
      exact ⟨rfl, rfl, Or.inr (Or.inl (by simp [hce]))⟩
    · exact ⟨rfl, rfl, Or.inl (by simp [hce, hcn])⟩
  | stealReturn e | stealLock e | lock e | runningAdd e | runningAcquire e | runningRun e | acquired e
  | notAcquired e | runLocked e | uvTest e | uvCallbacks e | uvSignal e | uvPoll e | uvEvents e
  | uvExit e | relockRun e | nextEmpty e | nextPop e | nextSkip e | nextTake e | nextFetchAdd e
  | unlock e | add e | unlockWait e | waitLoad e | waitAgain e | waitLeave e | waitBlock e
  | waitReturn e | relock e | erase e | unlockLoop e =>
    have hce : c ≠ e := by
      rintro rfl
      exact hthread rfl
    exact ⟨rfl, rfl, Or.inl (by simp [hce])⟩

omit [DecidableEq C] in
theorem Aside.inCall (h : Aside s c s') (hin : InCall s c) : InCall s' c := by
  rcases h.pc with heq | heq | ⟨-, heq⟩
  · rw [InCall, heq]
    exact hin
  · rw [InCall, heq]
    cases hp : s.pc c with
    | idle => exact (hin.1 hp).elim
    | returned o => exact (hin.2 o hp).elim
    | wait q => cases q <;> simp [Pc.notified]
    | _ => simp [Pc.notified]
  · rw [InCall, heq]
    simp

omit [DecidableEq C] in
theorem Aside.left_le (h : Aside s c s') : s'.left c ≤ s.left c := by
  have hpc : (s'.pc c).left ≤ (s.pc c).left := by
    rcases h.pc with heq | heq | ⟨hpoll, hevents⟩
    · exact Nat.le_of_eq (congrArg Pc.left heq)
    · rw [heq]
      exact Nat.le_of_eq (notified_range Pc.left (fun _ => rfl) (s.pc c))
    · rw [hpoll, hevents]
      simp [Pc.left]
  rw [State.left, State.left, h.wake]
  omega

omit [DecidableEq C] in
theorem Aside.returned {o : Outcome} (h : Aside s c s') (hp : s.pc c = .returned o) :
    s'.pc c = .returned o := by
  rcases h.pc with heq | heq | ⟨hpoll, -⟩
  · exact heq.trans hp
  · rw [heq, hp]
    rfl
  · simp [hp] at hpoll

theorem Returning.aside (h : Returning c d s) (hok : OneThread s a) (hown : ¬OwnStep c a)
    (hs : step s a = some s') : Returning c d s' ∧ s'.left c ≤ s.left c := by
  have hidle : s.pc c ≠ .idle := by
    intro hp
    rcases h.pc with hin | hret
    · exact hin.1 hp
    · simp [hp] at hret
  have haside := aside_step h.completed hidle hown (step_cases hs)
  refine ⟨⟨h.reach.step a hok hs, ?_, haside.destination.trans h.destination, ?_⟩, haside.left_le⟩
  · rw [haside.wake]
    exact h.completed
  · rcases h.pc with hin | hret
    · exact Or.inl (haside.inCall hin)
    · exact Or.inr (haside.returned hret)

/-- Nothing is left of a call that has returned. -/
theorem Returning.not_own (h : Returning c d s) (hok : OneThread s a)
    (hs : step s a = some s') (hown : OwnStep c a) : InCall s c := by
  rcases h.pc with hin | hret
  · exact hin
  · obtain ⟨t, -, hshows⟩ := reachableVia_shows h.reach
    rcases hown with rfl | rfl
    · simp [step, threadStep, hret] at hs
    · have hrest := (hshows.rest c fun hact => ?_).2
      · rcases hrest with hw | hw <;> simp [step, wakeStep, hw] at hs
      · have hin := inCall_of_phase (hshows.busy c hact).2.phase
        exact hin.2 _ hret

/-- Every statement of its own brings the call nearer to its return. -/
theorem Returning.own (h : Returning c d s) (hok : OneThread s a) (hown : OwnStep c a)
    (hs : step s a = some s') : Returning c d s' ∧ s'.left c < s.left c := by
  have hin := h.not_own hok hs hown
  rcases hown with rfl | rfl
  · obtain ⟨u, hu, hnext⟩ := h.thread hin hok
    obtain rfl : u = s' := Option.some.inj (hu.symm.trans hs)
    exact hnext
  · have hrun : (s.wake c).running = true := by
      cases hw : s.wake c <;> simp_all [step, wakeStep, WakePc.running]
    obtain ⟨u, hu, hnext⟩ := h.wake hin hrun
    obtain rfl : u = s' := Option.some.inj (hu.symm.trans hs)
    exact hnext

end

/-- The statements of the call's own thread in a run. -/
def ownSteps (c : C) (as : List (Action C)) : ℕ := as.count (.thread c) + as.count (.wake c)

theorem ownSteps_append (c : C) (as : List (Action C)) (a : Action C) :
    (OwnStep c a → ownSteps c (as ++ [a]) = ownSteps c as + 1) ∧
      (¬OwnStep c a → ownSteps c (as ++ [a]) = ownSteps c as) := by
  constructor
  · rintro (rfl | rfl)
    · simp only [ownSteps, List.count_append, List.count_singleton_self,
        List.count_singleton, beq_iff_eq, reduceCtorEq, if_false]
      omega
    · simp only [ownSteps, List.count_append, List.count_singleton_self,
        List.count_singleton, beq_iff_eq, reduceCtorEq, if_false]
      omega
  · intro hown
    simp only [OwnStep, not_or] at hown
    simp [ownSteps, List.count_append, hown.1, hown.2]

/-- Progress: on a loop that one thread drives, a `sync_wait` whose sender has
completed returns the result within seventeen statements of its own thread. That
thread takes no more of them, whatever else happens, and until it has returned
the next one is there to be taken. -/
theorem sync_wait_returns {s : State C} (h : system.ReachableVia OneThread s) {c : C}
    (hin : InCall s c) (hcomp : (s.wake c).completed = true) :
    (∃ as s', as.length ≤ 17 ∧ (∀ a ∈ as, OwnStep c a) ∧ system.Admitted OneThread s as ∧
      system.exec s as = some s' ∧
      s'.pc c = .returned (unwrapSyncWaitReceiverState (s.destination c))) ∧
    ∀ as s', system.Admitted OneThread s as → system.exec s as = some s' → ownSteps c as ≤ 17 ∧
      (s'.pc c = .returned (unwrapSyncWaitReceiverState (s.destination c)) ∨
        ∃ a s'', OwnStep c a ∧ OneThread s' a ∧ step s' a = some s'') := by
  have hstart : Returning c (s.destination c) s := ⟨h, hcomp, rfl, Or.inl hin⟩
  have hbound := hstart.left_le
  constructor
  · obtain ⟨as, s', hlen, hown, hok, hexec, -, hgoal⟩ := System.exec_of_rank (S := system)
      (fun s => s.left c) (fun s hs hno => returning_step hs hno) hstart
    exact ⟨as, s', Nat.le_trans hlen hbound, hown, hok, hexec, hgoal⟩
  · intro as s' hok hexec
    have hrun : Returning c (s.destination c) s' ∧ ownSteps c as + s'.left c ≤ 17 := by
      refine System.exec_labels_via (S := system) (I := fun past u =>
        Returning c (s.destination c) u ∧ ownSteps c past + u.left c ≤ 17) ?_ as ?_ hok hexec
      · intro past u a u' ⟨hu, hle⟩ hoku hstep
        obtain ⟨hown, hother⟩ := ownSteps_append c past a
        by_cases ha : OwnStep c a
        · obtain ⟨hnext, hlt⟩ := hu.own hoku ha hstep
          have hcount := hown ha
          exact ⟨hnext, by omega⟩
        · obtain ⟨hnext, hlt⟩ := hu.aside hoku ha hstep
          have hcount := hother ha
          exact ⟨hnext, by omega⟩
      · exact ⟨hstart, by simpa [ownSteps] using hbound⟩
    obtain ⟨hreturning, hle⟩ := hrun
    refine ⟨by omega, ?_⟩
    by_cases hret : s'.pc c = .returned (unwrapSyncWaitReceiverState (s.destination c))
    · exact Or.inl hret
    · obtain ⟨a, s'', hown, hoka, hstep, -⟩ := returning_step hreturning hret
      exact Or.inr ⟨a, s'', hown, hoka, hstep⟩

/-- The wakeup of a sender that has completed in a callback, and the way out, on
which the async handle is signalled. -/
def wayOut : List (Action Unit) :=
  .wake () :: .fire :: List.replicate 3 (.wake ()) ++ List.replicate 9 (.thread ())

theorem sync_wait_returns_inside : ∃ s s' : State Unit, system.ReachableVia OneThread s ∧
    s.pc () = .uv .callbacks ∧ system.exec s wayOut = some s' ∧ s'.pc () = .returned .values ∧
    ownSteps () wayOut ≤ 17 := by
  have h0 : system.ReachableVia OneThread (initial : State Unit) := .initial rfl
  have h1 := h0.step (Action.call () .syncWait) (fun d hd => hd.1 rfl) rfl
  have h2 := h1.step (Action.thread ()) rfl rfl
  have h3 := h2.step (Action.thread ()) rfl rfl
  have h4 := h3.step (Action.thread ()) rfl rfl
  have h5 := h4.step (Action.thread ()) rfl rfl
  have h6 := h5.step (Action.thread ()) rfl rfl
  have h7 := h6.step (Action.thread ()) rfl rfl
  have h8 := h7.step (Action.complete () (.value false)) (Or.inr (Or.inl rfl)) rfl
  have hreturns := sync_wait_returns h8 (c := ()) ⟨by decide, fun o => by simp⟩ rfl
  refine ⟨_, _, h8, rfl, rfl, rfl, (hreturns.2 wayOut _ ?_ rfl).1⟩
  refine .cons trivial rfl (.cons trivial rfl (.cons trivial rfl (.cons trivial rfl (.cons trivial rfl ?_))))
  refine .cons rfl rfl (.cons rfl rfl (.cons rfl rfl (.cons rfl rfl (.cons rfl rfl ?_))))
  exact .cons rfl rfl (.cons rfl rfl (.cons rfl rfl (.cons rfl rfl trivial)))

end UvExec.Loop
