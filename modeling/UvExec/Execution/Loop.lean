import UvExec.Lib.Transition
import UvExec.Execution.Runner
import UvExec.Execution.SyncWaitReceiver

/-! # Running a `TLoop` (execution/loop.cpp, execution/loop.hpp)

`run`, `run_once`, `drain` and `sync_wait` with its `RunnerSteal`, at the grain
of single accesses. The calls are the elements of a type `C`, one runner each;
a thread that makes several calls is several elements in a row. Program points
are named after the statement they stand before. `Running` changes together
with the mutex operation next to it in `RunLocked`. -/

namespace UvExec.Loop
open Lib

inductive RunMode where
  | default
  | once
  | nowait
  deriving DecidableEq, Repr

inductive Call where
  | run
  | runOnce
  | drain
  | syncWait
  deriving DecidableEq, Repr

def Call.mode : Call → RunMode
  | .run => .default
  | .runOnce => .once
  | .drain => .nowait
  | .syncWait => .default

/-- Inside `uv_run`. The loop is always alive, since `Async` stays open and
referenced; `callbacks` are those that run before the poll of an iteration,
`events` those that run in it or after it. -/
inductive UvPc where
  | test
  | callbacks
  | poll (blocks : Bool)
  | events
  | exit
  deriving DecidableEq, Repr

/-- Inside `TRunnersQueue::WakeupNext`, with the runner it has popped. -/
inductive NextPc (C : Type) where
  | empty
  | finished (next : C)
  | fetchAdd (next : C)
  | notify (next : C)
  deriving DecidableEq, Repr

/-- Inside `TRunner::Wait`, with the value of `wakeups`. -/
inductive WaitPc where
  | load
  | test (wakeups : UInt64)
  | wait (wakeups : UInt64)
  | blocked (wakeups : UInt64)
  deriving DecidableEq, Repr

inductive Pc (C : Type) where
  | idle
  | steal
  | lock
  | running
  | acquire
  | runLocked
  | uv (p : UvPc)
  | relockRun
  | wakeupNext (p : NextPc C)
  | unlock
  | add
  | unlockWait
  | wait (p : WaitPc)
  | relock
  | erase
  | unlockLoop
  | returned (result : Outcome)
  deriving DecidableEq, Repr

/-- A parked thread that is notified compares again. -/
def Pc.notified {C : Type} : Pc C → Pc C
  | .wait (.blocked w) => .wait (.wait w)
  | p => p

/-- The wakeup of a `sync_wait`: `pending` until the sender completes, then the
statements of the lambda, `again` more invocations to follow. -/
inductive WakePc where
  | idle
  | pending
  | acquired (again : ℕ)
  | finishLoop (again : ℕ)
  | store (again : ℕ)
  | notify (again : ℕ)
  | done
  deriving DecidableEq, Repr

/- `userStop`, `finishCalled` and `woken` are history: a user's finish() not yet
consumed by a returning uv_run, the first store of Finish, and a WakeupNext
whose runner has not looked at Running since. -/
structure State (C : Type) where
  call : C → Call
  pc : C → Pc C
  runner : C → TRunner
  destination : C → Destination
  wake : C → WakePc
  runMtx : Option C
  running : Bool
  runners : TRunnersQueue C
  stopFlag : Bool
  asyncSignal : Bool
  userStop : Bool
  finishCalled : C → Bool
  woken : C → Bool

inductive Action (C : Type) where
  | call (c : C) (k : Call)
  | thread (c : C)
  | event (c : C)
  | spurious (c : C)
  | complete (c : C) (sig : Signal)
  | wake (c : C)
  | finish
  | fire
  deriving DecidableEq, Repr

section
variable {C : Type} [DecidableEq C]

def initial : State C where
  call _ := .run
  pc _ := .idle
  runner _ := {}
  destination _ := .monostate
  wake _ := .idle
  runMtx := none
  running := false
  runners := []
  stopFlag := false
  asyncSignal := false
  userStop := false
  finishCalled _ := false
  woken _ := false

namespace State

abbrev setPc (s : State C) (c : C) (p : Pc C) : State C :=
  { s with pc := Function.update s.pc c p }

abbrev setRunner (s : State C) (c : C) (r : TRunner) : State C :=
  { s with runner := Function.update s.runner c r }

abbrev setWake (s : State C) (c : C) (w : WakePc) : State C :=
  { s with wake := Function.update s.wake c w }

/-- `notify_one` on the runner of `n`, on which only `n` itself ever waits. -/
abbrev notify (s : State C) (n : C) : State C := s.setPc n (s.pc n).notified

end State

abbrev finish (s : State C) : State C := { s with stopFlag := true }

def afterRun (s : State C) (c : C) : Pc C :=
  if s.call c = .syncWait then .steal else .returned .values

def afterWait (s : State C) (c : C) : Pc C :=
  if s.call c = .syncWait then .steal else .lock

/-- One step of `uv_run`; it tests the stop flag between iterations and when it
computes how long to poll, and clears the flag when it returns. -/
def uvStep (s : State C) (c : C) : UvPc → Option (State C)
  | .test => some (s.setPc c (.uv (if s.stopFlag then .exit else .callbacks)))
  | .callbacks =>
    some (s.setPc c (.uv (.poll ((s.call c).mode ≠ .nowait && !s.stopFlag))))
  | .poll blocks =>
    if s.asyncSignal then some ({ s with asyncSignal := false }.setPc c (.uv .events))
    else if blocks then none
    else some (s.setPc c (.uv .events))
  | .events => some (s.setPc c (.uv (if (s.call c).mode = .default then .test else .exit)))
  | .exit => some ({ s with stopFlag := false, userStop := false }.setPc c .relockRun)

def wakeupNextStep (s : State C) (c : C) : NextPc C → State C
  | .empty =>
    match s.runners with
    | [] => s.setPc c .unlock
    | n :: rest => { s with runners := rest }.setPc c (.wakeupNext (.finished n))
  | .finished n =>
    s.setPc c (.wakeupNext (if (s.runner n).finished then .empty else .fetchAdd n))
  | .fetchAdd n =>
    { s with woken := Function.update s.woken n true }.setRunner n (s.runner n).wakeup
      |>.setPc c (.wakeupNext (.notify n))
  | .notify n => (s.notify n).setPc c .unlock

def waitStep (s : State C) (c : C) : WaitPc → Option (State C)
  | .load => some (s.setPc c (.wait (.test (s.runner c).awakenings)))
  | .test w =>
    some (s.setPc c (if w ≠ 0 ∧ (s.runner c).awakenings = w then .wait (.wait w) else .relock))
  | .wait w =>
    some (s.setPc c (.wait (if (s.runner c).awakenings = w then .blocked w else .test w)))
  | .blocked _ => none

def acquireMtx (s : State C) (c : C) : Option (State C) :=
  if s.runMtx = none then some { s with runMtx := some c } else none

def threadStep (s : State C) (c : C) : Option (State C) :=
  match s.pc c with
  | .idle | .returned _ => none
  | .steal =>
    some (s.setPc c (if (s.runner c).finished
      then .returned (unwrapSyncWaitReceiverState (s.destination c)) else .lock))
  | .lock => (acquireMtx s c).map (·.setPc c .running)
  | .running =>
    let s := { s with woken := Function.update s.woken c false }
    some (s.setPc c (if s.running then .add
      else if s.call c = .syncWait then .acquire else .runLocked))
  | .acquire =>
    let (r, acquired) := (s.runner c).acquireIfNotFinished
    some (s.setRunner c r |>.setPc c (if acquired then .runLocked else .wakeupNext .empty))
  | .runLocked => some ({ s with running := true, runMtx := none }.setPc c (.uv .test))
  | .uv p => uvStep s c p
  | .relockRun => (acquireMtx s c).map fun s => { s with running := false }.setPc c (.wakeupNext .empty)
  | .wakeupNext p => some (wakeupNextStep s c p)
  | .unlock => some ({ s with runMtx := none }.setPc c (afterRun s c))
  | .add => some ({ s with runners := s.runners.add c }.setPc c .unlockWait)
  | .unlockWait => some ({ s with runMtx := none }.setPc c (.wait .load))
  | .wait p => waitStep s c p
  | .relock => (acquireMtx s c).map (·.setPc c .erase)
  | .erase => some ({ s with runners := s.runners.erase c }.setPc c .unlockLoop)
  | .unlockLoop => some ({ s with runMtx := none }.setPc c (afterWait s c))

def wakeStep (s : State C) (c : C) : Option (State C) :=
  match s.wake c with
  | .idle | .pending | .done => none
  | .acquired k => some (s.setWake c (if (s.runner c).acquired then .finishLoop k else .store k))
  | .finishLoop k => some ((finish s).setWake c (.store k))
  | .store k =>
    some ({ s with finishCalled := Function.update s.finishCalled c true }.setRunner c
      (s.runner c).finish |>.setWake c (.notify k))
  | .notify 0 => some ((s.notify c).setWake c .done)
  | .notify (k + 1) => some ((s.notify c).setWake c (.acquired k))

def step (s : State C) : Action C → Option (State C)
  | .call c k =>
    if s.pc c = .idle then
      let s := { s with call := Function.update s.call c k }
      -- `sync_wait` connects and starts its sender before `RunnerSteal`
      if k = .syncWait then some (s.setPc c .steal |>.setWake c .pending)
      else some (s.setPc c .lock)
    else none
  | .thread c => threadStep s c
  | .event c =>
    match s.pc c with
    | .uv (.poll true) => some (s.setPc c (.uv .events))
    | _ => none
  | .spurious c =>
    match s.pc c with
    | .wait (.blocked w) => some (s.setPc c (.wait (.wait w)))
    | _ => none
  | .complete c sig =>
    if s.wake c = .pending then
      some ({ s with destination := Function.update s.destination c (emplaceResult sig) }.setWake c
        (.acquired (wakeups sig - 1)))
    else none
  | .wake c => wakeStep s c
  | .finish => some { finish s with userStop := true }
  | .fire => some { s with asyncSignal := true }

/-- Every interleaving of the steps of any set of calls. -/
def system : System (State C) (Action C) where
  initial s := s = initial
  step := step

end
end UvExec.Loop
