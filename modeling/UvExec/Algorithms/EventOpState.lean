import UvExec.Lib.Transition
import UvExec.Execution.StopOperation

/-! # Timer and signal operations (algorithms/after_op_state.hpp, upon_signal_op_state.hpp)

The four operation states share their callbacks. They differ in the handle they
arm and in whether the receiver is a member from the start or is moved into an
optional once the handle is armed. The program points are those of the loop's
thread, and between two of them any other thread may step. -/

namespace UvExec.EventOp
open Lib

inductive ETimerType where
  | after
  | at
  deriving DecidableEq, Repr

inductive Event where
  | timer (type : ETimerType) (timeout : UInt64)
  | signal (signum : Int)
  deriving DecidableEq, Repr

structure OpState where
  event : Event
  receiverOptional : Bool
  deriving DecidableEq, Repr

def afterScheduleOpState (type : ETimerType) (timeout : UInt64) : OpState where
  event := .timer type timeout
  receiverOptional := false

def afterOpState (type : ETimerType) (timeout : UInt64) : OpState where
  event := .timer type timeout
  receiverOptional := true

def uponSignalScheduleOpState (signum : Int) : OpState where
  event := .signal signum
  receiverOptional := false

def uponSignalOpState (signum : Int) : OpState where
  event := .signal signum
  receiverOptional := true

inductive StartCall where
  | timerStart (timeout : UInt64)
  | signalOnce (signum : Int)
  deriving DecidableEq, Repr

def Event.start (now : UInt64) : Event → StartCall
  | .timer .at timeout => .timerStart (if now > timeout then 0 else timeout - now)
  | .timer .after timeout => .timerStart timeout
  | .signal signum => .signalOnce signum

inductive HandleState where
  | uninitialized
  | inactive
  | active
  | closing
  | closed
  deriving DecidableEq, Repr

/-- The loop's thread in `Apply` or `set_value`, in the event's callback, in
`StopCallback` and in `CloseCallback`. -/
inductive Pc where
  | init
  | initError (err : Int)
  | start
  | startError (err : Int)
  | emplace
  | setup
  | setupDone
  | idle
  | testAndSet
  | reset
  | close
  | stop
  | stopClose
  | resetUnsafe
  | complete (c : Completion Unit)
  deriving DecidableEq, Repr

/- `started`, `closes`, `completions`, `fired` and `applied` are history: the
arming call, the calls of `NUvUtil::Close`, what the receivers were completed
with, whether the event's callback has returned, and how often the stop
operation was applied. -/
structure State where
  op : TStopOperation := {}
  pc : Pc := .init
  handle : HandleState := .uninitialized
  receiver : ReceiverSlot
  started : Option StartCall := none
  closes : ℕ := 0
  completions : List (Completion Unit) := []
  fired : Bool := false
  applied : ℕ := 0
  deriving DecidableEq, Repr

inductive Action where
  | init (err : Int)
  | start (now : UInt64) (err : Int)
  | loop
  | fire
  | apply
  | closed
  | requestStop
  | callback
  deriving DecidableEq, Repr

namespace State

abbrev complete (s : State) (c : Completion Unit) (pc : Pc) : State :=
  { s with receiver := .moved, completions := s.completions ++ [c], pc := pc }

abbrev close (s : State) (pc : Pc) : State :=
  { s with handle := .closing, closes := s.closes + 1, pc := pc }

end State

def loopStep (k : OpState) (s : State) : Option State :=
  match s.pc with
  | .init | .start | .idle => none
  -- no return follows
  | .initError err => some (s.complete (.error err) .start)
  | .startError err => some (s.complete (.error err) .idle)
  | .emplace => some { s with receiver := if k.receiverOptional then .member else s.receiver, pc := .setup }
  | .setup => some { s with op := s.op.setup, pc := .setupDone }
  | .setupDone => s.op.setupDone.map fun op => { s with op := op, pc := .idle }
  | .testAndSet =>
    let (op, used) := s.op.testAndSet .completion
    some (if used then { s with op := op, fired := true, pc := .idle } else { s with op := op, pc := .reset })
  | .reset => s.op.resetCallback.map fun op => { s with op := op, pc := .close }
  | .close => some { s.close .idle with fired := true }
  | .stop => some { s with handle := .inactive, pc := .stopClose }
  | .stopClose => some (s.close .idle)
  | .resetUnsafe =>
    if s.op.engaged then s.op.resetCallback.map fun op => { s with op := op, pc := .complete .stopped }
    else some { s with pc := .complete (.value ()) }
  | .complete c => some (s.complete c .idle)

def step (k : OpState) (s : State) : Action → Option State
  | .init err =>
    if s.pc = .init then
      some (if isError err then { s with pc := .initError err }
        else { s with handle := .inactive, pc := .start })
    else none
  | .start now err =>
    if s.pc = .start then
      let s := { s with started := some (k.event.start now) }
      some (if isError err then { s with pc := .startError err }
        else { s with handle := .active, pc := .emplace })
    else none
  | .loop => loopStep k s
  | .fire =>
    if s.pc = .idle ∧ s.handle = .active then
      some { s with handle := .inactive, pc := .testAndSet }
    else none
  | .apply =>
    if s.pc = .idle then
      s.op.beginApply.map fun op => { s with op := op, applied := s.applied + 1, pc := .stop }
    else none
  | .closed =>
    if s.pc = .idle ∧ s.handle = .closing then some { s with handle := .closed, pc := .resetUnsafe }
    else none
  | .requestStop => some { s with op := s.op.requestStop }
  | .callback => s.op.callbackStep.map fun op => { s with op := op }

def initial (k : OpState) : State where
  receiver := if k.receiverOptional then .adaptor else .member

def system (k : OpState) : System State Action where
  initial s := s = initial k
  step := step k

/-! ### Inversion -/

inductive Step (k : OpState) (s : State) : Action → State → Prop
  | initFailed (err : Int) : s.pc = .init → isError err = true →
      Step k s (.init err) { s with pc := .initError err }
  | init (err : Int) : s.pc = .init → isError err = false →
      Step k s (.init err) { s with handle := .inactive, pc := .start }
  | startFailed (now : UInt64) (err : Int) : s.pc = .start → isError err = true →
      Step k s (.start now err)
        { s with started := some (k.event.start now), pc := .startError err }
  | start (now : UInt64) (err : Int) : s.pc = .start → isError err = false →
      Step k s (.start now err)
        { s with started := some (k.event.start now), handle := .active, pc := .emplace }
  | initError (err : Int) : s.pc = .initError err → Step k s .loop (s.complete (.error err) .start)
  | startError (err : Int) : s.pc = .startError err → Step k s .loop (s.complete (.error err) .idle)
  | emplace : s.pc = .emplace → Step k s .loop
      { s with receiver := if k.receiverOptional then .member else s.receiver, pc := .setup }
  | setup : s.pc = .setup → Step k s .loop { s with op := s.op.setup, pc := .setupDone }
  | setupDone : s.pc = .setupDone → (∀ p, s.op.token.callback ≠ .running true p) →
      Step k s .loop { s with op := { s.op with engaged := true }, pc := .idle }
  | lost : s.pc = .testAndSet → s.op.used = true →
      Step k s .loop { s with fired := true, pc := .idle }
  | won : s.pc = .testAndSet → s.op.used = false → Step k s .loop
      { s with op := { s.op with used := true, taker := some .completion }, pc := .reset }
  | reset (op : TStopOperation) : s.pc = .reset → s.op.resetCallback = some op →
      Step k s .loop { s with op := op, pc := .close }
  | close : s.pc = .close → Step k s .loop { s.close .idle with fired := true }
  | stop : s.pc = .stop → Step k s .loop { s with handle := .inactive, pc := .stopClose }
  | stopClose : s.pc = .stopClose → Step k s .loop (s.close .idle)
  | resetStopped (op : TStopOperation) : s.pc = .resetUnsafe → s.op.engaged = true →
      s.op.resetCallback = some op → Step k s .loop { s with op := op, pc := .complete .stopped }
  | resetValue : s.pc = .resetUnsafe → s.op.engaged = false →
      Step k s .loop { s with pc := .complete (.value ()) }
  | complete (c : Completion Unit) : s.pc = .complete c → Step k s .loop (s.complete c .idle)
  | fire : s.pc = .idle → s.handle = .active →
      Step k s .fire { s with handle := .inactive, pc := .testAndSet }
  | apply : s.pc = .idle → 0 < s.op.queued → Step k s .apply
      { s with op := { s.op with queued := s.op.queued - 1 }, applied := s.applied + 1, pc := .stop }
  | closed : s.pc = .idle → s.handle = .closing →
      Step k s .closed { s with handle := .closed, pc := .resetUnsafe }
  | requestStop : Step k s .requestStop { s with op := s.op.requestStop }
  | callback (op : TStopOperation) : s.op.callbackStep = some op →
      Step k s .callback { s with op := op }

theorem loopStep_cases {k : OpState} {s s' : State} (h : loopStep k s = some s') :
    Step k s .loop s' := by
  simp only [loopStep] at h
  cases hp : s.pc with
  | init | start | idle => simp [hp] at h
  | initError err => simp only [hp, Option.some.injEq] at h; subst h; exact .initError err hp
  | startError err => simp only [hp, Option.some.injEq] at h; subst h; exact .startError err hp
  | emplace => simp only [hp, Option.some.injEq] at h; subst h; exact .emplace hp
  | setup => simp only [hp, Option.some.injEq] at h; subst h; exact .setup hp
  | setupDone =>
    simp only [hp, Option.map_eq_some_iff] at h
    obtain ⟨op, hop, rfl⟩ := h
    obtain ⟨hrun, rfl⟩ := TStopOperation.setupDone_eq_some hop
    exact .setupDone hp hrun
  | testAndSet =>
    simp only [hp, Option.some.injEq] at h
    rcases s.op.testAndSet_cases .completion with ⟨hu, ht⟩ | ⟨hu, ht⟩
    · rw [ht] at h
      subst h
      exact .lost hp hu
    · rw [ht] at h
      subst h
      exact .won hp hu
  | reset =>
    simp only [hp, Option.map_eq_some_iff] at h
    obtain ⟨op, hop, rfl⟩ := h
    exact .reset op hp hop
  | close => simp only [hp, Option.some.injEq] at h; subst h; exact .close hp
  | stop => simp only [hp, Option.some.injEq] at h; subst h; exact .stop hp
  | stopClose => simp only [hp, Option.some.injEq] at h; subst h; exact .stopClose hp
  | resetUnsafe =>
    simp only [hp] at h
    split at h
    · obtain ⟨op, hop, rfl⟩ := Option.map_eq_some_iff.mp h
      exact .resetStopped op hp ‹_› hop
    · cases h
      exact .resetValue hp (Bool.eq_false_iff.mpr ‹_›)
  | complete c => simp only [hp, Option.some.injEq] at h; subst h; exact .complete c hp

theorem step_cases {k : OpState} {s s' : State} {a : Action} (h : step k s a = some s') :
    Step k s a s' := by
  cases a with
  | init err =>
    simp only [step] at h
    split at h
    · split at h
      · cases h; exact .initFailed err ‹_› ‹_›
      · cases h; exact .init err ‹_› (Bool.eq_false_iff.mpr ‹_›)
    · cases h
  | start now err =>
    simp only [step] at h
    split at h
    · split at h
      · cases h; exact .startFailed now err ‹_› ‹_›
      · cases h; exact .start now err ‹_› (Bool.eq_false_iff.mpr ‹_›)
    · cases h
  | loop => exact loopStep_cases h
  | fire =>
    simp only [step] at h
    split at h
    next hc => cases h; exact .fire hc.1 hc.2
    next => cases h
  | apply =>
    simp only [step] at h
    split at h
    · obtain ⟨op, hop, rfl⟩ := Option.map_eq_some_iff.mp h
      obtain ⟨hq, rfl⟩ := TStopOperation.beginApply_eq_some hop
      exact .apply ‹_› hq
    · cases h
  | closed =>
    simp only [step] at h
    split at h
    next hc => cases h; exact .closed hc.1 hc.2
    next => cases h
  | requestStop => cases h; exact .requestStop
  | callback =>
    obtain ⟨op, hop, rfl⟩ := Option.map_eq_some_iff.mp h
    exact .callback op hop

end UvExec.EventOp
