import UvExec.Sockets.AcceptCalls
import UvExec.Algorithms.StopBeforeStart

/-! # Accepts whose stop is requested before they are registered

They are stopped like the other operations, unless a connection is unclaimed:
`RegisterAccept` then accepts it before `Setup` has looked at the token. -/

namespace UvExec.TcpListener
open Lib
variable {A : Type} [DecidableEq A]

namespace LoopThread

def refused (a : A) : Action A → Int → Prop
  | .register b e, err => b = a ∧ e = err ∧ isError err = true
  | .setup _, _ | .connection _, _ | .loop, _ | .uvAccept _, _ | .apply _, _ | .requestStop _, _
  | .callback _, _ => False

def environment : Action A → Prop
  | .register _ _ | .connection _ | .requestStop _ => True
  | .setup _ | .loop | .uvAccept _ | .apply _ | .callback _ => False

/-- How far an accept has come whose stop was requested before. -/
inductive StopCourse (past : List (Action A)) (s : LoopThread A) (a : A) : Prop
  | registered : s.pc = .idle → s.calls.head? = some a →
      (s.accept a).stopOp = InlineStop.constructed.op → (s.accept a).completions = [] →
      StopCourse past s a
  | error (err : Int) : s.pc = .error a err →
      (s.accept a).stopOp = InlineStop.constructed.op → (s.accept a).completions = [] →
      RefusedIn (refused a) past err → StopCourse past s a
  | failing (err : Int) : s.pc = .errorReset a err ∨ s.pc = .setError a err →
      (s.accept a).completions = [] → RefusedIn (refused a) past err → StopCourse past s a
  | setting (i : InlineStop) : s.pc = .setupDone a → i = .executed ∨ (∃ p, i = .running p) →
      (s.accept a).stopOp = i.op → (s.accept a).completions = [] → StopCourse past s a
  | queued : (s.pc.op = some a → s.pc = .accept a) →
      (s.accept a).stopOp = InlineStop.engaged.op → (s.accept a).completions = [] →
      StopCourse past s a
  | applied : s.pc = .stopReset a ∨ s.pc = .setStopped a → (s.accept a).completions = [] →
      StopCourse past s a
  | done : s.pc.spending ≠ some a → (s.accept a).completions ≠ [] →
      (∀ c ∈ (s.accept a).completions, Cancelled (refused a) past c) → StopCourse past s a

variable {past : List (Action A)} {s s' : LoopThread A} {act : Action A} {a b : A}

/-! ### Steps of other threads -/

/-- A step that is not one of the thread of the loop. -/
structure Elsewhere (s s' : LoopThread A) (a : A) : Prop where
  pc : s'.pc = s.pc
  calls : s'.calls = s.calls
  completions : (s'.accept a).completions = (s.accept a).completions
  constructed : (s.accept a).stopOp = InlineStop.constructed.op →
    (s'.accept a).stopOp = InlineStop.constructed.op
  engaged : (s.accept a).stopOp = InlineStop.engaged.op →
    (s'.accept a).stopOp = InlineStop.engaged.op
  running : ∀ i : InlineStop, i = .executed ∨ (∃ p, i = .running p) → (s.accept a).stopOp = i.op →
    ∃ j : InlineStop, (j = .executed ∨ ∃ p, j = .running p) ∧ (s'.accept a).stopOp = j.op

theorem elsewhere_of_setStopOp {op : TStopOperation} (hs : s'.toState = s.toState.setStopOp b op)
    (hcalls : s'.calls = s.calls)
    (hop : ∀ i : InlineStop, (s.accept b).stopOp = i.op →
      op = i.op ∨ (∃ p, i = .running p) ∧ ∃ j : InlineStop, (j = .executed ∨ ∃ p, j = .running p) ∧
        op = j.op) (a : A) : Elsewhere s s' a := by
  have haccept : s'.accept = Function.update s.accept b { s.accept b with stopOp := op } :=
    congrArg State.accept hs
  have hstop (i : InlineStop) (h : (s.accept a).stopOp = i.op) : (s'.accept a).stopOp = i.op ∨
      (∃ p, i = .running p) ∧ ∃ j : InlineStop, (j = .executed ∨ ∃ p, j = .running p) ∧
        (s'.accept a).stopOp = j.op := by
    rw [haccept]
    by_cases hab : a = b
    · subst hab
      simpa using hop i h
    · simpa [hab] using Or.inl h
  refine ⟨(congrArg State.pc hs).trans rfl, hcalls, ?_, fun h => ?_, fun h => ?_, fun i hi h => ?_⟩
  · rw [haccept]
    exact completions_update (by rfl) a
  · exact (hstop .constructed h).resolve_right (fun h => by simp at h)
  · exact (hstop .engaged h).resolve_right (fun h => by simp at h)
  · rcases hstop i h with heq | ⟨-, hj⟩
    · exact ⟨i, hi, heq⟩
    · exact hj

theorem elsewhere_requestStop (hs : Stepped s (.requestStop b) s') (a : A) : Elsewhere s s' a := by
  refine elsewhere_of_setStopOp (requestStop_eq hs.step) hs.calls (fun i h => Or.inl ?_) a
  rw [h, InlineStop.requestStop_op]

theorem elsewhere_callback (hs : Stepped s (.callback b) s') (a : A) : Elsewhere s s' a := by
  obtain ⟨op, hr, heq⟩ := callback_eq hs.step
  refine elsewhere_of_setStopOp heq hs.calls (fun i h => Or.inr ?_) a
  rw [h] at hr
  obtain ⟨hrun, hor⟩ := InlineStop.callbackStep_op hr
  refine ⟨hrun, ?_⟩
  rcases hor with h | ⟨p, h⟩
  · exact ⟨.executed, Or.inl rfl, h⟩
  · exact ⟨.running p, Or.inr ⟨p, rfl⟩, h⟩

omit [DecidableEq A] in
theorem course_elsewhere (hi : StopCourse past s a) (h : Elsewhere s s' a) (act : Action A) :
    StopCourse (past ++ [act]) s' a := by
  cases hi with
  | registered hp hc hop hnil =>
    exact .registered (h.pc.trans hp) (h.calls ▸ hc) (h.constructed hop) (h.completions.trans hnil)
  | error err hp hop hnil href =>
    exact .error err (h.pc.trans hp) (h.constructed hop) (h.completions.trans hnil) (href.append act)
  | failing err hp hnil href =>
    exact .failing err (by rwa [h.pc]) (h.completions.trans hnil) (href.append act)
  | setting i hp hi hop hnil =>
    obtain ⟨j, hj, hop'⟩ := h.running i hi hop
    exact .setting j (h.pc.trans hp) hj hop' (h.completions.trans hnil)
  | queued hp hop hnil =>
    exact .queued (by rwa [h.pc]) (h.engaged hop) (h.completions.trans hnil)
  | applied hp hnil => exact .applied (by rwa [h.pc]) (h.completions.trans hnil)
  | done hp hne hc =>
    refine .done (by rwa [h.pc]) (by rwa [h.completions]) (fun c hmem => ?_)
    exact (hc c (h.completions ▸ hmem)).append act

/-! ### Steps of the thread of the loop -/

theorem accept_of_setStopOp {op : TStopOperation} {t : State A} (hs : s'.toState = t)
    (h : t.accept = Function.update s.accept a { s.accept a with stopOp := op }) :
    (s'.accept a).stopOp = op ∧ (s'.accept a).completions = (s.accept a).completions := by
  rw [hs, h]
  simp

theorem course_completed {c : Completion Unit} (hs : s'.toState = s.toState.complete a c)
    (hnil : (s.accept a).completions = []) (hc : Cancelled (refused a) past c) :
    StopCourse past s' a := by
  have hcomp : (s'.accept a).completions = [c] := by
    rw [congrArg State.accept hs]
    simp [hnil]
  refine .done ?_ (by simp [hcomp]) (fun d hd => ?_)
  · rw [congrArg State.pc hs]
    simp [Pc.spending]
  · rw [hcomp, List.mem_singleton] at hd
    rwa [hd]

/-- After `RegisterAccept` the thread goes on to `Setup`. -/
theorem course_registered (hp : s.pc = .idle) (hc : s.calls.head? = some a)
    (hop : (s.accept a).stopOp = InlineStop.constructed.op) (hnil : (s.accept a).completions = [])
    (h : step s act = some s') : StopCourse (past ++ [act]) s' a := by
  obtain ⟨c, hcalls⟩ := List.head?_eq_some_iff.mp hc
  have hs := step_cases h
  have hadm := hs.admitted
  have hl := listener_step h
  cases act with
  | register b err => simp [admits, hcalls, hnil] at hadm
  | connection status => simp [admits, hcalls] at hadm
  | apply b => simp [admits, hcalls] at hadm
  | setup b =>
    simp only [admits, hcalls, List.head?_cons, Option.some.injEq, decide_eq_true_eq] at hadm
    subst hadm
    have hst := setup_eq hs.step
    refine .setting (.running .testAndSet) (congrArg State.pc hst) (Or.inr ⟨_, rfl⟩) ?_ ?_
    · rw [congrArg State.accept hst]
      simp only [Function.update_self]
      rw [hop, InlineStop.setup_op]
    · rw [congrArg State.accept hst]
      simpa using hnil
  | loop => simp [TcpListener.step, loopStep, hp] at hl
  | uvAccept err => simp [TcpListener.step, hp] at hl
  | requestStop b =>
    exact course_elsewhere (.registered hp hc hop hnil) (elsewhere_requestStop hs a) _
  | callback b => exact course_elsewhere (.registered hp hc hop hnil) (elsewhere_callback hs a) _

/-- Inside of an operation the thread takes its next step or none. -/
theorem loop_of_busy (hp : s.pc ≠ .idle) (h : step s act = some s') :
    act = .loop ∨ (∃ err b, act = .uvAccept err ∧ s.pc = .uvAccept b) ∨
      (∃ b, act = .requestStop b) ∨ ∃ b, act = .callback b := by
  have hl := listener_step h
  cases act with
  | register b err | setup b | connection status | apply b => simp [TcpListener.step, hp] at hl
  | loop => exact Or.inl rfl
  | uvAccept err =>
    simp only [TcpListener.step] at hl
    split at hl
    next b hb => exact Or.inr (Or.inl ⟨err, b, rfl, hb⟩)
    next => cases hl
  | requestStop b => exact Or.inr (Or.inr (Or.inl ⟨b, rfl⟩))
  | callback b => exact Or.inr (Or.inr (Or.inr ⟨b, rfl⟩))

theorem course_busy (hi : StopCourse past s a) (hp : s.pc.op = some a) (hpa : ∀ b, s.pc ≠ .uvAccept b)
    (hloop : act = .loop → StopCourse (past ++ [act]) s' a) (h : step s act = some s') :
    StopCourse (past ++ [act]) s' a := by
  have hidle : s.pc ≠ .idle := fun h => by simp [h, Pc.op] at hp
  rcases loop_of_busy hidle h with hact | ⟨err, b, -, hb⟩ | ⟨b, rfl⟩ | ⟨b, rfl⟩
  · exact hloop hact
  · exact (hpa b hb).elim
  · exact course_elsewhere hi (elsewhere_requestStop (step_cases h) a) _
  · exact course_elsewhere hi (elsewhere_callback (step_cases h) a) _

theorem course_error (err : Int) (hp : s.pc = .error a err)
    (hop : (s.accept a).stopOp = InlineStop.constructed.op) (hnil : (s.accept a).completions = [])
    (href : RefusedIn (refused a) past err) (h : step s act = some s') :
    StopCourse (past ++ [act]) s' a := by
  refine course_busy (.error err hp hop hnil href) (by rw [hp]; rfl) (by simp [hp]) ?_ h
  rintro rfl
  have hl := listener_step h
  simp only [TcpListener.step, loopStep, hp, hop] at hl
  have hst := (Option.some.inj hl).symm
  exact .failing err (Or.inl (congrArg State.pc hst)) ((accept_of_setStopOp hst rfl).2.trans hnil)
    (href.append _)

theorem course_failing (err : Int) (hp : s.pc = .errorReset a err ∨ s.pc = .setError a err)
    (hnil : (s.accept a).completions = []) (href : RefusedIn (refused a) past err)
    (h : step s act = some s') : StopCourse (past ++ [act]) s' a := by
  have hop : s.pc.op = some a := by rcases hp with hp | hp <;> rw [hp] <;> rfl
  have hno (b : A) : s.pc ≠ .uvAccept b := by rcases hp with hp | hp <;> simp [hp]
  refine course_busy (.failing err hp hnil href) hop hno ?_ h
  rintro rfl
  have hl := listener_step h
  rcases hp with hp | hp
  · simp only [TcpListener.step, loopStep, hp] at hl
    obtain ⟨op, -, hst⟩ := Option.map_eq_some_iff.mp hl
    exact .failing err (Or.inr (congrArg State.pc hst.symm))
      ((accept_of_setStopOp hst.symm rfl).2.trans hnil) (href.append _)
  · simp only [TcpListener.step, loopStep, hp] at hl
    exact course_completed (Option.some.inj hl).symm hnil (Or.inr ⟨err, rfl, href.append _⟩)

theorem course_setting {i : InlineStop} (hp : s.pc = .setupDone a)
    (hi : i = .executed ∨ ∃ p, i = .running p) (hop : (s.accept a).stopOp = i.op)
    (hnil : (s.accept a).completions = []) (h : step s act = some s') :
    StopCourse (past ++ [act]) s' a := by
  refine course_busy (.setting i hp hi hop hnil) (by rw [hp]; rfl) (by simp [hp]) ?_ h
  rintro rfl
  have hl := listener_step h
  simp only [TcpListener.step, loopStep, hp] at hl
  obtain ⟨op, hdone, hst⟩ := Option.map_eq_some_iff.mp hl
  obtain ⟨hrun, rfl⟩ := TStopOperation.setupDone_eq_some hdone
  cases InlineStop.executed_of_setupDone (hop ▸ hrun) hi
  obtain ⟨hop', hcomp⟩ := accept_of_setStopOp hst.symm rfl
  refine .queued ?_ ?_ (hcomp.trans hnil)
  · rw [congrArg State.pc hst.symm]
    simp [Pc.op]
  · rw [hop', hop]
    rfl

theorem course_applied (hp : s.pc = .stopReset a ∨ s.pc = .setStopped a)
    (hnil : (s.accept a).completions = []) (h : step s act = some s') :
    StopCourse (past ++ [act]) s' a := by
  have hop : s.pc.op = some a := by rcases hp with hp | hp <;> rw [hp] <;> rfl
  have hno (b : A) : s.pc ≠ .uvAccept b := by rcases hp with hp | hp <;> simp [hp]
  refine course_busy (.applied hp hnil) hop hno ?_ h
  rintro rfl
  have hl := listener_step h
  rcases hp with hp | hp
  · simp only [TcpListener.step, loopStep, hp] at hl
    obtain ⟨op, -, hst⟩ := Option.map_eq_some_iff.mp hl
    exact .applied (Or.inr (congrArg State.pc hst.symm))
      ((accept_of_setStopOp hst.symm rfl).2.trans hnil)
  · simp only [TcpListener.step, loopStep, hp] at hl
    exact course_completed (Option.some.inj hl).symm hnil (Or.inl rfl)

theorem course_done (ho : OpsInv s.toState) (hp : s.pc.spending ≠ some a)
    (hne : (s.accept a).completions ≠ [])
    (hc : ∀ c ∈ (s.accept a).completions, Cancelled (refused a) past c)
    (h : step s act = some s') : StopCourse (past ++ [act]) s' a := by
  have hs := (step_cases h).step
  have hspent := ho.spent a (Or.inl hne)
  rcases completions_step hs a with heq | ⟨hfin, -⟩
  · refine .done (fun hcontra => ?_) (by rwa [heq]) (fun c hmem => (hc c (heq ▸ hmem)).append _)
    rcases spending_step hs hcontra with hsp | hu | hq
    · exact hp hsp
    · simp [hspent.used] at hu
    · simp [hspent.queued] at hq
  · exact (hp (Pc.spending_of_finishing hfin)).elim

theorem course_queued (ho : OpsInv s.toState) (hp : s.pc.op = some a → s.pc = .accept a)
    (hop : (s.accept a).stopOp = InlineStop.engaged.op) (hnil : (s.accept a).completions = [])
    (h : step s act = some s') : StopCourse (past ++ [act]) s' a := by
  have hs := step_cases h
  have hl := listener_step h
  have hphase : (s.accept a).phase = .setup := by
    by_contra hne
    exact ho.unset a hne (by rw [hop]; rfl)
  by_cases hpa : s.pc.op = some a
  · have hpc := hp hpa
    refine course_busy (.queued hp hop hnil) hpa (by simp [hpc]) ?_ h
    rintro rfl
    -- the popped operation finds its flag taken
    simp only [TcpListener.step, loopStep, hpc, hop] at hl
    have hst := (Option.some.inj hl).symm
    obtain ⟨hop', hcomp⟩ := accept_of_setStopOp hst rfl
    refine .queued ?_ hop' (hcomp.trans hnil)
    rw [congrArg State.pc hst]
    simp [InlineStop.op, TStopOperation.testAndSet, Pc.op]
  · by_cases habout : act.about = some a
    · cases act with
      | register b err =>
        cases habout
        simp [(register_enabled hs.step).2] at hphase
      | setup b =>
        cases habout
        simp [TcpListener.step, hphase] at hl
      | apply b =>
        cases habout
        have hst := apply_eq hs.step
        exact .applied (Or.inl (congrArg State.pc hst)) ((accept_of_setStopOp hst rfl).2.trans hnil)
      | requestStop b =>
        exact course_elsewhere (.queued hp hop hnil) (elsewhere_requestStop hs a) _
      | callback b => exact course_elsewhere (.queued hp hop hnil) (elsewhere_callback hs a) _
      | connection | loop | uvAccept => cases habout
    · have heq := accept_eq hs.step habout hpa
      refine .queued (fun hpa' => ?_) (by rw [heq, hop]) (by rw [heq, hnil])
      rcases pc_step hs.step hpa' with ⟨hold, -⟩ | ⟨-, ⟨err, rfl, -⟩ | ⟨rfl, -⟩ | ⟨rfl, -⟩ | ⟨-, hpop⟩⟩
      · exact (hpa hold).elim
      · exact (habout rfl).elim
      · exact (habout rfl).elim
      · exact (habout rfl).elim
      · exact hpop

theorem course_step (h : system.Reachable s) (hi : StopCourse past s a)
    (hs : step s act = some s') : StopCourse (past ++ [act]) s' a := by
  cases hi with
  | registered hp hc hop hnil => exact course_registered hp hc hop hnil hs
  | error err hp hop hnil href => exact course_error err hp hop hnil href hs
  | failing err hp hnil href => exact course_failing err hp hnil href hs
  | setting i hp hi hop hnil => exact course_setting hp hi hop hnil hs
  | queued hp hop hnil => exact course_queued (opsInv h) hp hop hnil hs
  | applied hp hnil => exact course_applied hp hnil hs
  | done hp hne hc => exact course_done (opsInv h) hp hne hc hs

/-- The calls that have come to `RegisterAccept` and not to `Setup`. -/
structure CallsInv (s : LoopThread A) : Prop where
  nodup : s.calls.Nodup
  registered : ∀ c ∈ s.calls, (s.accept c).phase = .registered

theorem busy_progress (s : State A) (hp : s.pc ≠ .idle) :
    (∃ b, s.pc = .uvAccept b) ∨ (loopStep s).isSome ∨
      ∃ b, (s.accept b).stopOp.callbackStep.isSome := by
  cases hpc : s.pc with
  | idle => exact (hp hpc).elim
  | uvAccept b => exact Or.inl ⟨b, rfl⟩
  | accept b | error b err | setError b err | setStopped b =>
    exact Or.inr (Or.inl (by simp [loopStep, hpc]))
  | acceptReset b | errorReset b err | stopReset b =>
    refine Or.inr ?_
    rcases (s.accept b).stopOp.resetCallback_progress with h | h
    · exact Or.inl (by simpa [loopStep, hpc] using h)
    · exact Or.inr ⟨b, h⟩
  | setupDone b =>
    refine Or.inr ?_
    rcases (s.accept b).stopOp.setupDone_progress with h | h
    · exact Or.inl (by simpa [loopStep, hpc] using h)
    · exact Or.inr ⟨b, h⟩

theorem idle_of_quiescent (hq : system.Quiescent environment s) : s.pc = .idle := by
  by_contra hp
  rcases busy_progress s.toState hp with ⟨b, hb⟩ | h | ⟨b, h⟩
  · have hnone := hq.step_eq_none (a := .uvAccept 0) id
    simp [system, step, admits, TcpListener.step, hb] at hnone
  · have hnone := hq.step_eq_none (a := .loop) id
    simp only [system, step, admits, TcpListener.step, if_true, Option.map_eq_none_iff] at hnone
    simp [hnone] at h
  · have hnone := hq.step_eq_none (a := .callback b) id
    simp only [system, step, admits, TcpListener.step, if_true, Option.map_eq_none_iff] at hnone
    simp [hnone] at h

theorem calls_of_quiescent (hc : CallsInv s) (hq : system.Quiescent environment s) :
    s.calls = [] := by
  cases hcalls : s.calls with
  | nil => rfl
  | cons c rest =>
    have hphase := hc.registered c (by simp [hcalls])
    have hnone := hq.step_eq_none (a := .setup c) id
    simp [system, step, admits, hcalls, TcpListener.step, idle_of_quiescent hq, hphase] at hnone

theorem completed_of_quiescent (hi : StopCourse past s a) (hc : CallsInv s)
    (hq : system.Quiescent environment s) : (s.accept a).completions ≠ [] := by
  have hidle := idle_of_quiescent hq
  have hcalls := calls_of_quiescent hc hq
  cases hi with
  | registered _ hhead => simp [hcalls] at hhead
  | queued _ hop =>
    have hnone := hq.step_eq_none (a := .apply a) id
    simp [system, step, admits, hcalls, TcpListener.step, hidle, hop, InlineStop.op,
      TStopOperation.beginApply] at hnone
  | error err hp | setting i hp => simp [hidle] at hp
  | failing err hp | applied hp => simp [hidle] at hp
  | done _ hne => exact hne

/-! ### From the start on -/

def completions (a : A) (s : LoopThread A) : List (Completion Unit) := (s.accept a).completions

end LoopThread
end UvExec.TcpListener

namespace UvExec
open Lib

/-- The start of an operation whose stop has been requested, in any state that a
run reaches. A timer or a signal may have its handle made already, and an accept
has come out of `RegisterAccept`. -/
inductive StoppedStart (κ α A : Type) [DecidableEq A] where
  | schedule (s : ScheduleOp.State) : ScheduleOp.system.Reachable s → s.pc = .init →
      s.requested = true → StoppedStart κ α A
  | event (k : EventOp.OpState) (past : List EventOp.Action) (s : EventOp.State) :
      (EventOp.system k).exec (EventOp.initial k) past = some s → s.pc = .init ∨ s.pc = .start →
      s.op.token.requested = true → StoppedStart κ α A
  | read (k : ReadOp.OpState κ α) (s : ReadOp.State κ α) : (ReadOp.system k).Reachable s →
      s.pc = .start → s.op.token.requested = true → StoppedStart κ α A
  | accept (a : A) (err : Int) (s s' : TcpListener.LoopThread A) :
      TcpListener.LoopThread.system.Reachable s → (s.accept a).stopOp.token.requested = true →
      s.step (.register a err) = some s' → StoppedStart κ α A

namespace StoppedStart
variable {κ α A : Type} [DecidableEq A]

/-- No accept that finds an unclaimed connection. -/
def Deferred : StoppedStart κ α A → Prop
  | .schedule _ _ _ _ | .event _ _ _ _ _ _ | .read _ _ _ _ _ => True
  | .accept _ _ s _ _ _ _ => s.pendingConnections ≤ 0

end StoppedStart
end UvExec
