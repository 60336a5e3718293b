import UvExec.Algorithms.EventCompletion
import UvExec.Algorithms.ReadCompletion
import UvExec.Algorithms.ScheduleOpState
import UvExec.Execution.StopBeforeSetup

/-! # Stop requested before the start

The operation that finds its stop requested is completed with `set_stopped`,
whatever else happens, unless libuv refuses to start it. -/

namespace UvExec
open Lib

section
variable {σ α β : Type}

/-- libuv has refused one of the calls of a run with that code. -/
def RefusedIn (refused : α → Int → Prop) (as : List α) (err : Int) : Prop := ∃ a ∈ as, refused a err

/-- What an operation is completed with that has heard of its stop. -/
def Cancelled (refused : α → Int → Prop) (as : List α) (c : Completion β) : Prop :=
  c = .stopped ∨ ∃ err, c = .error err ∧ RefusedIn refused as err

variable {refused : α → Int → Prop} {environment : α → Prop} {as : List α} {err : Int}

theorem RefusedIn.append (h : RefusedIn refused as err) (a : α) : RefusedIn refused (as ++ [a]) err := by
  obtain ⟨b, hb, href⟩ := h
  exact ⟨b, List.mem_append_left _ hb, href⟩

theorem RefusedIn.last {a : α} (h : refused a err) : RefusedIn refused (as ++ [a]) err :=
  ⟨a, by simp, h⟩

theorem Cancelled.append {c : Completion β} (h : Cancelled refused as c) (a : α) :
    Cancelled refused (as ++ [a]) c :=
  h.imp_right (fun ⟨err, hc, href⟩ => ⟨err, hc, href.append a⟩)

end

/-! ### `schedule` -/

namespace ScheduleOp

def environment : Action → Prop
  | .requestStop => True
  | .start | .apply | .loop => False

structure StopInv (s : State) : Prop where
  requested : s.requested = true
  chosen : ∀ c, s.pc = .complete c ∨ c ∈ s.completions → c = .stopped
  completed : s.pc = .idle → s.completions ≠ []

theorem stopInv_step {s s' : State} {a : Action} (hi : StopInv s) (h : Step s a s') :
    StopInv s' := by
  obtain ⟨hr, hc, hd⟩ := hi
  cases h with
  | start hp =>
    refine ⟨hr, fun c h => ?_, by simp⟩
    rcases h with h | h
    · cases h
    · exact hc c (Or.inr h)
  | apply hp =>
    refine ⟨hr, fun c h => ?_, by simp⟩
    rcases h with h | h
    · simpa [hr, eq_comm] using h
    · exact hc c (Or.inr h)
  | complete c hp =>
    refine ⟨hr, fun d h => ?_, by simp⟩
    rcases h with h | h
    · cases h
    · rcases List.mem_append.mp h with hold | hnew
      · exact hc d (Or.inr hold)
      · rw [List.mem_singleton.mp hnew]
        exact hc c (Or.inl hp)
  | requestStop => exact ⟨rfl, hc, hd⟩

theorem completed_of_quiescent {s : State} (hi : StopInv s)
    (hq : system.Quiescent environment s) : s.completions ≠ [] := by
  have hstart := hq.step_eq_none (a := .start) id
  have happly := hq.step_eq_none (a := .apply) id
  have hloop := hq.step_eq_none (a := .loop) id
  cases hp : s.pc with
  | idle => exact hi.completed hp
  | init => simp [system, step, hp] at hstart
  | scheduled => simp [system, step, hp] at happly
  | complete c => simp [system, step, hp] at hloop

end ScheduleOp

/-! ### Timers and signals -/

namespace EventOp

def refused : Action → Int → Prop
  | .init e, err | .start _ e, err => e = err ∧ isError err = true
  | .loop, _ | .fire, _ | .apply, _ | .closed, _ | .requestStop, _ | .callback, _ => False

def environment : Action → Prop
  | .fire | .requestStop => True
  | .init _ | .start _ _ | .loop | .apply | .closed | .callback => False

/-- Where the thread of the loop is by then, and what has become of the handle. -/
def At (s : State) (i : InlineStop) : Prop :=
  match s.pc with
  | .init | .initError _ | .start | .startError _ =>
    i = .constructed ∧ s.handle ≠ .active ∧ s.handle.closes = false
  | .emplace | .setup => i = .constructed ∧ s.handle.closes = false
  | .setupDone => (i = .executed ∨ ∃ p, i = .running p) ∧ s.handle.closes = false
  | .idle =>
    i = .engaged ∧ s.handle.closes = false ∨ i = .applied ∧ s.handle = .closing ∨
      (i = .constructed ∨ i = .reset) ∧ s.completions ≠ [] ∧ s.handle ≠ .active ∧ s.handle ≠ .closing
  | .testAndSet => i = .engaged ∧ s.handle = .inactive
  | .stop | .stopClose => i = .applied
  | .resetUnsafe => i = .applied ∧ s.handle = .closed
  | .complete c => i = .reset ∧ c = .stopped ∧ s.handle = .closed
  | .reset | .close => False

def Course (s : State) : Prop := ∃ i : InlineStop, s.op = i.op ∧ At s i

theorem at_running {s : State} {p : StopCallbackPc} (h : At s (.running p)) :
    s.pc = .setupDone ∧ s.handle.closes = false := by
  unfold At at h
  split at h
  case h_7 hp => exact ⟨hp, h.2⟩
  all_goals simp at h

theorem course_callback {s : State} {op : TStopOperation} (hi : Course s)
    (h : s.op.callbackStep = some op) : Course { s with op := op } := by
  obtain ⟨i, hop, hat⟩ := hi
  rw [hop] at h
  obtain ⟨⟨p, rfl⟩, hnext⟩ := InlineStop.callbackStep_op h
  obtain ⟨hp, hcl⟩ := at_running hat
  rcases hnext with rfl | ⟨q, rfl⟩
  · exact ⟨.executed, rfl, by simp [At, hp, hcl]⟩
  · exact ⟨.running q, rfl, by simp [At, hp, hcl]⟩

theorem course_step {k : OpState} {s s' : State} {a : Action} (hi : Course s) (h : Step k s a s') :
    Course s' := by
  obtain ⟨i, hop, hat⟩ := hi
  cases h with
  | callback op hr => exact course_callback ⟨i, hop, hat⟩ hr
  | requestStop => exact ⟨i, by rw [hop, InlineStop.requestStop_op], hat⟩
  | initFailed err hc | startFailed now err hc | initError err hc | emplace hc =>
    simp only [At, hc] at hat
    exact ⟨i, hop, hat⟩
  | init err hc =>
    simp only [At, hc] at hat
    exact ⟨i, hop, hat.1, by simp, rfl⟩
  | start now err hc =>
    simp only [At, hc] at hat
    exact ⟨i, hop, hat.1, rfl⟩
  | startError err hc =>
    simp only [At, hc] at hat
    obtain ⟨hi, hne, hcl⟩ := hat
    refine ⟨i, hop, Or.inr (Or.inr ⟨Or.inl hi, by simp, hne, fun h => ?_⟩)⟩
    simp only at h
    simp [h, HandleState.closes] at hcl
  | setup hc =>
    simp only [At, hc] at hat
    obtain ⟨rfl, hcl⟩ := hat
    exact ⟨.running .testAndSet, by rw [hop]; rfl, Or.inr ⟨_, rfl⟩, hcl⟩
  | setupDone hc hrun =>
    simp only [At, hc] at hat
    obtain ⟨hor, hcl⟩ := hat
    cases InlineStop.executed_of_setupDone (hop ▸ hrun) hor
    exact ⟨.engaged, by rw [hop]; rfl, Or.inl ⟨rfl, hcl⟩⟩
  | lost hc hu =>
    simp only [At, hc] at hat
    exact ⟨i, hop, Or.inl ⟨hat.1, by rw [hat.2]; rfl⟩⟩
  | won hc hu =>
    simp only [At, hc] at hat
    rw [hop, hat.1] at hu
    cases hu
  | reset op hc | close hc =>
    simp only [At, hc] at hat
  | stop hc =>
    simp only [At, hc] at hat
    exact ⟨i, hop, hat⟩
  | stopClose hc =>
    simp only [At, hc] at hat
    exact ⟨i, hop, Or.inr (Or.inl ⟨hat, rfl⟩)⟩
  | resetStopped op hc he hr =>
    simp only [At, hc] at hat
    obtain ⟨rfl, hh⟩ := hat
    rw [hop, InlineStop.resetCallback_op] at hr
    exact ⟨.reset, (Option.some.inj hr).symm, rfl, rfl, hh⟩
  | resetValue hc he =>
    simp only [At, hc] at hat
    rw [hop, hat.1] at he
    cases he
  | complete c hc =>
    simp only [At, hc] at hat
    obtain ⟨hi, -, hh⟩ := hat
    exact ⟨i, hop, Or.inr (Or.inr ⟨Or.inr hi, by simp, by simp [hh], by simp [hh]⟩)⟩
  | fire hc hh =>
    simp only [At, hc] at hat
    rcases hat with ⟨hi, -⟩ | ⟨-, hcl⟩ | ⟨-, -, hne, -⟩
    · exact ⟨i, hop, hi, rfl⟩
    · simp [hh] at hcl
    · exact (hne hh).elim
  | apply hc hq =>
    simp only [At, hc] at hat
    rcases hat with ⟨rfl, -⟩ | ⟨rfl, -⟩ | ⟨rfl | rfl, -⟩
    · exact ⟨.applied, by rw [hop]; rfl, rfl⟩
    all_goals
      rw [hop] at hq
      cases hq
  | closed hc hh =>
    simp only [At, hc] at hat
    rcases hat with ⟨-, hcl⟩ | ⟨hi, -⟩ | ⟨-, -, -, hne⟩
    · simp [hh, HandleState.closes] at hcl
    · exact ⟨i, hop, hi, rfl⟩
    · exact (hne hh).elim

structure StopInv (past : List Action) (s : State) : Prop where
  course : Course s
  failing : ∀ err, s.pc = .initError err ∨ s.pc = .startError err → RefusedIn refused past err
  outcome : ∀ c ∈ s.completions, Cancelled refused past c

variable {k : OpState} {past : List Action} {s s' : State} {a : Action}

theorem completed_of_quiescent (hi : Course s) (hq : (system k).Quiescent environment s) :
    s.completions ≠ [] := by
  have hinit := hq.step_eq_none (a := .init 0) id
  have hstart := hq.step_eq_none (a := .start 0 0) id
  have hloop : loopStep k s = none := hq.step_eq_none (a := .loop) id
  have happly := hq.step_eq_none (a := .apply) id
  have hclosed := hq.step_eq_none (a := .closed) id
  have hcallback := hq.step_eq_none (a := .callback) id
  by_cases hp : s.pc = .idle
  · obtain ⟨i, hop, hat⟩ := hi
    simp only [At, hp] at hat
    rcases hat with ⟨rfl, -⟩ | ⟨-, hh⟩ | ⟨-, hne, -⟩
    · simp [system, step, hp, hop, InlineStop.op, TStopOperation.beginApply] at happly
    · simp [system, step, hp, hh] at hclosed
    · exact hne
  · have hpi : s.pc ≠ .init := fun h => by simp [system, step, h] at hinit
    have hps : s.pc ≠ .start := fun h => by simp [system, step, h] at hstart
    rcases loop_progress k hpi hps hp with h | h
    · simp [hloop] at h
    · simp only [system, step, Option.map_eq_none_iff] at hcallback
      simp [hcallback] at h

/-- Before the timer or the signal is started, the failure to make its handle
included. -/
def Pc.unstarted : Pc → Bool
  | .init | .initError _ | .start => true
  | .startError _ | .emplace | .setup | .setupDone | .idle | .testAndSet | .reset | .close | .stop
  | .stopClose | .resetUnsafe | .complete _ => false

end EventOp
/-! ### Reading operations -/

namespace ReadOp
variable {κ α : Type}

def refused : Action α → Int → Prop
  | .start e, err => e = err ∧ isError err = true
  | .loop, _ | .read _ _, _ | .apply, _ | .requestStop, _ | .callback, _ => False

def environment : Action α → Prop
  | .read _ _ | .requestStop => True
  | .start _ | .loop | .apply | .callback => False

/-- Where the thread of the loop is by then, and whether callbacks still come. -/
def At (s : State κ α) (i : InlineStop) : Prop :=
  match s.pc with
  | .start | .startError _ => i = .constructed ∧ s.reading = false
  | .emplace | .setup => i = .constructed
  | .setupDone => i = .executed ∨ ∃ p, i = .running p
  | .idle =>
    i = .engaged ∨ (i = .constructed ∨ i = .reset) ∧ s.completions ≠ [] ∧ s.reading = false
  | .readCallback _ _ | .condition _ _ | .testAndSet _ _ => i = .engaged
  | .resetUnsafe => i = .applied
  | .stopReadStop => i = .reset
  | .complete c => i = .reset ∧ c = .stopped ∧ s.reading = false
  | .reset _ _ | .readStop _ _ => False

def Course (s : State κ α) : Prop := ∃ i : InlineStop, s.op = i.op ∧ At s i

theorem at_running {s : State κ α} {p : StopCallbackPc} (h : At s (.running p)) :
    s.pc = .setupDone := by
  unfold At at h
  split at h
  case h_5 hp => exact hp
  all_goals simp at h

theorem course_callback {s : State κ α} {op : TStopOperation} (hi : Course s)
    (h : s.op.callbackStep = some op) : Course { s with op := op } := by
  obtain ⟨i, hop, hat⟩ := hi
  rw [hop] at h
  obtain ⟨⟨p, rfl⟩, hnext⟩ := InlineStop.callbackStep_op h
  have hp := at_running hat
  rcases hnext with rfl | ⟨q, rfl⟩
  · exact ⟨.executed, rfl, by simp [At, hp]⟩
  · exact ⟨.running q, rfl, by simp [At, hp]⟩

variable {k : OpState κ α} {past : List (Action α)} {s s' : State κ α} {a : Action α}

theorem course_step (hi : Course s) (h : Step k s a s') : Course s' := by
  obtain ⟨i, hop, hat⟩ := hi
  cases h with
  | callback op hr => exact course_callback ⟨i, hop, hat⟩ hr
  | requestStop => exact ⟨i, by rw [hop, InlineStop.requestStop_op], hat⟩
  | startFailed err hc =>
    simp only [At, hc] at hat
    exact ⟨i, hop, hat⟩
  | start err hc =>
    simp only [At, hc] at hat
    exact ⟨i, hop, hat.1⟩
  | startError err hc =>
    simp only [At, hc] at hat
    exact ⟨i, hop, Or.inr ⟨Or.inl hat.1, by simp, hat.2⟩⟩
  | emplace hc =>
    simp only [At, hc] at hat
    exact ⟨i, hop, hat⟩
  | setup hc =>
    simp only [At, hc] at hat
    exact ⟨.running .testAndSet, by rw [hop, hat]; rfl, Or.inr ⟨_, rfl⟩⟩
  | setupDone hc hrun =>
    simp only [At, hc] at hat
    cases InlineStop.executed_of_setupDone (hop ▸ hrun) hat
    exact ⟨.engaged, by rw [hop]; rfl, Or.inl rfl⟩
  | readCallback nrd addr hc =>
    simp only [At, hc] at hat
    rcases k.readCallback_cases s nrd addr with ⟨hp, -⟩ | hp | hp
    · rw [hp]
      exact ⟨i, hop, Or.inl hat⟩
    all_goals
      rw [hp]
      exact ⟨i, hop, hat⟩
  | condition nrd addr hc =>
    simp only [At, hc] at hat
    obtain ⟨p, c, t, hp, he⟩ := k.condition_cases s nrd addr
    rw [he]
    rcases hp with rfl | ⟨rfl, -⟩
    · exact ⟨i, hop, hat⟩
    · exact ⟨i, hop, Or.inl hat⟩
  | lost nrd addr hc hu =>
    simp only [At, hc] at hat
    exact ⟨i, hop, Or.inl hat⟩
  | won nrd addr hc hu =>
    simp only [At, hc] at hat
    rw [hop, hat] at hu
    cases hu
  | reset nrd addr op hc | readStop nrd addr hc => simp only [At, hc] at hat
  | resetUnsafe op hc hr =>
    simp only [At, hc] at hat
    rw [hop, hat, InlineStop.resetCallback_op] at hr
    exact ⟨.reset, (Option.some.inj hr).symm, rfl⟩
  | stopReadStop hc =>
    simp only [At, hc] at hat
    exact ⟨i, hop, hat, rfl, rfl⟩
  | complete c hc =>
    simp only [At, hc] at hat
    exact ⟨i, hop, Or.inr ⟨Or.inr hat.1, by simp, hat.2.2⟩⟩
  | read nrd addr hc hr =>
    simp only [At, hc] at hat
    rcases hat with hi | ⟨-, -, hno⟩
    · exact ⟨i, hop, hi⟩
    · simp [hr] at hno
  | apply hc hq =>
    simp only [At, hc] at hat
    rcases hat with rfl | ⟨rfl | rfl, -⟩
    · exact ⟨.applied, by rw [hop]; rfl, rfl⟩
    all_goals
      rw [hop] at hq
      cases hq

structure StopInv (past : List (Action α)) (s : State κ α) : Prop where
  course : Course s
  failing : ∀ err, s.pc = .startError err → RefusedIn refused past err
  outcome : ∀ c ∈ s.completions, Cancelled refused past c

theorem completed_of_quiescent (hi : Course s) (hq : (system k).Quiescent environment s) :
    s.completions ≠ [] := by
  have hstart := hq.step_eq_none (a := .start 0) id
  have hloop : loopStep k s = none := hq.step_eq_none (a := .loop) id
  have happly := hq.step_eq_none (a := .apply) id
  have hcallback := hq.step_eq_none (a := .callback) id
  by_cases hp : s.pc = .idle
  · obtain ⟨i, hop, hat⟩ := hi
    simp only [At, hp] at hat
    rcases hat with rfl | ⟨-, hne, -⟩
    · simp [system, step, hp, hop, InlineStop.op, TStopOperation.beginApply] at happly
    · exact hne
  · have hps : s.pc ≠ .start := fun h => by simp [system, step, h] at hstart
    rcases loop_progress k hps hp with h | h
    · simp [hloop] at h
    · simp only [system, step, Option.map_eq_none_iff] at hcallback
      simp [hcallback] at h

end ReadOp
end UvExec
