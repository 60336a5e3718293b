import UvExec.Lib.Transition
import UvExec.Execution.StopOperation
import Mathlib.Logic.Function.Basic

/-! # `TTcpListener` and its accept operations (sockets/tcp_listener.hpp, tcp_listener.cpp)

The accept operations are the elements of `A`. The listener and the accepts are
only touched by the loop's thread, but for stop requests. A completion that
starts another accept on the listener comes last in what it returns to, except
for the `Setup` of its own operation, which is a step of its own. -/

namespace UvExec.TcpListener
open Lib

inductive Phase where
  | fresh
  | registered
  | setup
  deriving DecidableEq, Repr

structure TAcceptOpState where
  stopOp : TStopOperation := {}
  phase : Phase := .fresh
  completions : List (Completion Unit) := []
  deriving DecidableEq, Repr

/-- The loop's thread inside `Accept`, `Error`, `StopOp.Setup` or `StopCallback`
of an operation. -/
inductive Pc (A : Type) where
  | idle
  | accept (a : A)
  | acceptReset (a : A)
  | uvAccept (a : A)
  | error (a : A) (err : Int)
  | errorReset (a : A) (err : Int)
  | setError (a : A) (err : Int)
  | setupDone (a : A)
  | stopReset (a : A)
  | setStopped (a : A)
  deriving DecidableEq, Repr

/- The last three fields are history: the calls of `ConnectionCallback` without
an error, the calls of `NUvUtil::Accept`, and the backlog and the result of each
call of `UvTcpListen`. -/
structure State (A : Type) where
  pc : Pc A
  listening : Bool
  acceptList : List A
  pendingConnections : Int
  accept : A → TAcceptOpState
  connections : ℕ
  accepts : ℕ
  listens : List (Int × Int)

inductive Action (A : Type) where
  | register (a : A) (listenErr : Int)
  | setup (a : A)
  | connection (status : Int)
  | loop
  | uvAccept (err : Int)
  | apply (a : A)
  | requestStop (a : A)
  | callback (a : A)
  deriving DecidableEq, Repr

section
variable {A : Type} [DecidableEq A]

namespace State

abbrev setAccept (s : State A) (a : A) (op : TAcceptOpState) : State A :=
  { s with accept := Function.update s.accept a op }

abbrev setStopOp (s : State A) (a : A) (op : TStopOperation) : State A :=
  s.setAccept a { s.accept a with stopOp := op }

abbrev complete (s : State A) (a : A) (c : Completion Unit) : State A :=
  { s.setAccept a { s.accept a with completions := (s.accept a).completions ++ [c] } with pc := .idle }

end State

/-! ### Construction -/

/-- `UvTcpListen` with the backlog that a negative counter encodes. -/
def startListening (s : State A) (err : Int) : State A × Int :=
  ({ s with
      listening := s.listening || !isError err
      listens := s.listens ++ [(-s.pendingConnections, err)] },
    if isError err then err else 0)

/-- The private constructor, which leaves binding and listening to `bind`. -/
def constructUnbound (backlog : UInt16) : State A where
  pc := .idle
  listening := false
  acceptList := []
  pendingConnections := -backlog.toNat
  accept _ := {}
  connections := 0
  accepts := 0
  listens := []

/-- The public constructor, which throws unless it binds and listens. -/
def construct (backlog : UInt16) : State A := (startListening (constructUnbound backlog) 0).1

def bind (s : State A) (bindErr listenErr : Int) : State A × Int :=
  if isError bindErr then (s, bindErr)
  else
    let (s, err) := startListening s listenErr
    ({ s with pendingConnections := 0 }, err)

/-! ### Connections and accepts -/

def registerAccept (s : State A) (a : A) (listenErr : Int) : State A :=
  if 0 < s.pendingConnections then
    { s with pendingConnections := s.pendingConnections - 1, pc := .accept a }
  else
    let s := { s with acceptList := a :: s.acceptList }
    if s.pendingConnections < 0 then
      let (s, err) := startListening s listenErr
      if err ≠ 0 then { s with pc := .error a err }
      else { s with pendingConnections := 0 }
    else s

def connectionCallback (s : State A) (status : Int) : State A :=
  if isError status then s
  else
    let s := { s with connections := s.connections + 1 }
    match s.acceptList with
    | [] => { s with pendingConnections := s.pendingConnections + 1 }
    | a :: rest => { s with acceptList := rest, pc := .accept a }

def loopStep (s : State A) : Option (State A) :=
  match s.pc with
  | .idle | .uvAccept _ => none
  | .accept a =>
    let (op, used) := (s.accept a).stopOp.testAndSet .completion
    some { s.setStopOp a op with pc := if used then .idle else .acceptReset a }
  | .acceptReset a =>
    (s.accept a).stopOp.resetCallback.map fun op => { s.setStopOp a op with pc := .uvAccept a }
  | .error a err =>
    let (op, used) := (s.accept a).stopOp.testAndSet .completion
    some { s.setStopOp a op with pc := if used then .idle else .errorReset a err }
  | .errorReset a err =>
    (s.accept a).stopOp.resetCallback.map fun op => { s.setStopOp a op with pc := .setError a err }
  | .setError a err => some (s.complete a (.error err))
  | .setupDone a => (s.accept a).stopOp.setupDone.map fun op => { s.setStopOp a op with pc := .idle }
  | .stopReset a =>
    (s.accept a).stopOp.resetCallback.map fun op => { s.setStopOp a op with pc := .setStopped a }
  | .setStopped a => some (s.complete a .stopped)

def step (s : State A) : Action A → Option (State A)
  | .register a listenErr =>
    if s.pc = .idle ∧ (s.accept a).phase = .fresh then
      some (registerAccept (s.setAccept a { s.accept a with phase := .registered }) a listenErr)
    else none
  | .setup a =>
    if s.pc = .idle ∧ (s.accept a).phase = .registered then
      some { s.setAccept a { s.accept a with stopOp := (s.accept a).stopOp.setup, phase := .setup } with
        pc := .setupDone a }
    else none
  | .connection status =>
    if s.pc = .idle ∧ s.listening = true then some (connectionCallback s status) else none
  | .loop => loopStep s
  | .uvAccept err =>
    match s.pc with
    | .uvAccept a =>
      some ({ s with accepts := s.accepts + 1 }.complete a (if isError err then .error err else .value ()))
    | _ => none
  | .apply a =>
    if s.pc = .idle then
      (s.accept a).stopOp.beginApply.map fun op =>
        { s.setStopOp a op with acceptList := s.acceptList.erase a, pc := .stopReset a }
    else none
  | .requestStop a => some (s.setStopOp a (s.accept a).stopOp.requestStop)
  | .callback a => (s.accept a).stopOp.callbackStep.map fun op => s.setStopOp a op

/-- A listener of either constructor, the private one followed by `bind`. -/
def system : System (State A) (Action A) where
  initial s := ∃ backlog, s = construct backlog ∨
    ∃ bindErr listenErr, s = (bind (constructUnbound backlog) bindErr listenErr).1
  step := step

/-! ### Inversion -/

inductive Step (s : State A) : Action A → State A → Prop
  | claim (a : A) (err : Int) : s.pc = .idle → (s.accept a).phase = .fresh →
      0 < s.pendingConnections → Step s (.register a err)
        { s.setAccept a { s.accept a with phase := .registered } with
          pendingConnections := s.pendingConnections - 1, pc := .accept a }
  | add (a : A) (err : Int) : s.pc = .idle → (s.accept a).phase = .fresh →
      s.pendingConnections = 0 → Step s (.register a err)
        { s.setAccept a { s.accept a with phase := .registered } with
          acceptList := a :: s.acceptList }
  | listen (a : A) (err : Int) : s.pc = .idle → (s.accept a).phase = .fresh →
      s.pendingConnections < 0 → isError err = false → Step s (.register a err)
        { s.setAccept a { s.accept a with phase := .registered } with
          acceptList := a :: s.acceptList, pendingConnections := 0, listening := true,
          listens := s.listens ++ [(-s.pendingConnections, err)] }
  | listenFailed (a : A) (err : Int) : s.pc = .idle → (s.accept a).phase = .fresh →
      s.pendingConnections < 0 → isError err = true → Step s (.register a err)
        { s.setAccept a { s.accept a with phase := .registered } with
          acceptList := a :: s.acceptList, pc := .error a err,
          listens := s.listens ++ [(-s.pendingConnections, err)] }
  | setup (a : A) : s.pc = .idle → (s.accept a).phase = .registered → Step s (.setup a)
      { s.setAccept a { s.accept a with stopOp := (s.accept a).stopOp.setup, phase := .setup } with
        pc := .setupDone a }
  | connectionFailed (status : Int) : s.pc = .idle → isError status = true →
      Step s (.connection status) s
  | pend (status : Int) : s.pc = .idle → isError status = false → s.acceptList = [] →
      Step s (.connection status)
        { s with connections := s.connections + 1, pendingConnections := s.pendingConnections + 1 }
  | pop (status : Int) (a : A) (rest : List A) : s.pc = .idle → isError status = false →
      s.acceptList = a :: rest → Step s (.connection status)
        { s with connections := s.connections + 1, acceptList := rest, pc := .accept a }
  | acceptLost (a : A) : s.pc = .accept a → (s.accept a).stopOp.used = true →
      Step s .loop { s with pc := .idle }
  | acceptWon (a : A) : s.pc = .accept a → (s.accept a).stopOp.used = false → Step s .loop
      { s.setStopOp a { (s.accept a).stopOp with used := true, taker := some .completion } with
        pc := .acceptReset a }
  | acceptReset (a : A) (op : TStopOperation) : s.pc = .acceptReset a →
      (s.accept a).stopOp.resetCallback = some op →
      Step s .loop { s.setStopOp a op with pc := .uvAccept a }
  | uvAccept (a : A) (err : Int) : s.pc = .uvAccept a → Step s (.uvAccept err)
      ({ s with accepts := s.accepts + 1 }.complete a (if isError err then .error err else .value ()))
  | errorLost (a : A) (err : Int) : s.pc = .error a err → (s.accept a).stopOp.used = true →
      Step s .loop { s with pc := .idle }
  | errorWon (a : A) (err : Int) : s.pc = .error a err → (s.accept a).stopOp.used = false →
      Step s .loop
        { s.setStopOp a { (s.accept a).stopOp with used := true, taker := some .completion } with
          pc := .errorReset a err }
  | errorReset (a : A) (err : Int) (op : TStopOperation) : s.pc = .errorReset a err →
      (s.accept a).stopOp.resetCallback = some op →
      Step s .loop { s.setStopOp a op with pc := .setError a err }
  | setError (a : A) (err : Int) : s.pc = .setError a err →
      Step s .loop (s.complete a (.error err))
  | setupDone (a : A) : s.pc = .setupDone a →
      (∀ p, (s.accept a).stopOp.token.callback ≠ .running true p) → Step s .loop
        { s.setStopOp a { (s.accept a).stopOp with engaged := true } with pc := .idle }
  | apply (a : A) : s.pc = .idle → 0 < (s.accept a).stopOp.queued → Step s (.apply a)
      { s.setStopOp a { (s.accept a).stopOp with queued := (s.accept a).stopOp.queued - 1 } with
        acceptList := s.acceptList.erase a, pc := .stopReset a }
  | stopReset (a : A) (op : TStopOperation) : s.pc = .stopReset a →
      (s.accept a).stopOp.resetCallback = some op →
      Step s .loop { s.setStopOp a op with pc := .setStopped a }
  | setStopped (a : A) : s.pc = .setStopped a → Step s .loop (s.complete a .stopped)
  | requestStop (a : A) : Step s (.requestStop a) (s.setStopOp a (s.accept a).stopOp.requestStop)
  | callback (a : A) (op : TStopOperation) : (s.accept a).stopOp.callbackStep = some op →
      Step s (.callback a) (s.setStopOp a op)

theorem State.setStopOp_self (s : State A) (a : A) : s.setStopOp a (s.accept a).stopOp = s := by
  simp [State.setStopOp, State.setAccept]

theorem registerAccept_cases {s : State A} {a : A} {err : Int} (hpc : s.pc = .idle)
    (hphase : (s.accept a).phase = .fresh) : Step s (.register a err)
      (registerAccept (s.setAccept a { s.accept a with phase := .registered }) a err) := by
  simp only [registerAccept, startListening]
  split
  · exact .claim a err hpc hphase ‹_›
  · split
    · by_cases he : isError err = true
      · have hne : err ≠ 0 := by
          rintro rfl
          simp [isError] at he
        simpa [he, hne] using Step.listenFailed a err hpc hphase ‹_› he
      · simpa [he] using Step.listen a err hpc hphase ‹_› (Bool.eq_false_iff.mpr he)
    · exact .add a err hpc hphase (by omega)

theorem connectionCallback_cases {s : State A} {status : Int} (hpc : s.pc = .idle) :
    Step s (.connection status) (connectionCallback s status) := by
  simp only [connectionCallback]
  split
  · exact .connectionFailed status hpc ‹_›
  next he =>
    have hok : isError status = false := by simpa using he
    split
    · exact .pend status hpc hok ‹_›
    · exact .pop status _ _ hpc hok ‹_›

theorem loopStep_cases {s s' : State A} (h : loopStep s = some s') : Step s .loop s' := by
  simp only [loopStep] at h
  cases hp : s.pc with
  | idle | uvAccept a => simp [hp] at h
  | accept a =>
    simp only [hp, Option.some.injEq] at h
    subst h
    rcases (s.accept a).stopOp.testAndSet_cases .completion with ⟨hu, ht⟩ | ⟨hu, ht⟩
    · rw [ht]
      simpa [State.setStopOp_self] using Step.acceptLost a hp hu
    · rw [ht]
      exact .acceptWon a hp hu
  | acceptReset a =>
    simp only [hp, Option.map_eq_some_iff] at h
    obtain ⟨op, hop, rfl⟩ := h
    exact .acceptReset a op hp hop
  | error a err =>
    simp only [hp, Option.some.injEq] at h
    subst h
    rcases (s.accept a).stopOp.testAndSet_cases .completion with ⟨hu, ht⟩ | ⟨hu, ht⟩
    · rw [ht]
      simpa [State.setStopOp_self] using Step.errorLost a err hp hu
    · rw [ht]
      exact .errorWon a err hp hu
  | errorReset a err =>
    simp only [hp, Option.map_eq_some_iff] at h
    obtain ⟨op, hop, rfl⟩ := h
    exact .errorReset a err op hp hop
  | setError a err => simp only [hp, Option.some.injEq] at h; subst h; exact .setError a err hp
  | setupDone a =>
    simp only [hp, Option.map_eq_some_iff] at h
    obtain ⟨op, hop, rfl⟩ := h
    obtain ⟨hrun, rfl⟩ := TStopOperation.setupDone_eq_some hop
    exact .setupDone a hp hrun
  | stopReset a =>
    simp only [hp, Option.map_eq_some_iff] at h
    obtain ⟨op, hop, rfl⟩ := h
    exact .stopReset a op hp hop
  | setStopped a => simp only [hp, Option.some.injEq] at h; subst h; exact .setStopped a hp

theorem step_cases {s s' : State A} {a : Action A} (h : step s a = some s') : Step s a s' := by
  cases a with
  | register a err =>
    simp only [step] at h
    split at h
    next hc => cases h; exact registerAccept_cases hc.1 hc.2
    next => cases h
  | setup a =>
    simp only [step] at h
    split at h
    next hc => cases h; exact .setup a hc.1 hc.2
    next => cases h
  | connection status =>
    simp only [step] at h
    split at h
    next hc => cases h; exact connectionCallback_cases hc.1
    next => cases h
  | loop => exact loopStep_cases h
  | uvAccept err =>
    simp only [step] at h
    split at h
    · cases h; exact .uvAccept _ err ‹_›
    · cases h
  | apply a =>
    simp only [step] at h
    split at h
    · obtain ⟨op, hop, rfl⟩ := Option.map_eq_some_iff.mp h
      obtain ⟨hq, rfl⟩ := TStopOperation.beginApply_eq_some hop
      exact .apply a ‹_› hq
    · cases h
  | requestStop a => cases h; exact .requestStop a
  | callback a =>
    obtain ⟨op, hop, rfl⟩ := Option.map_eq_some_iff.mp h
    exact .callback a op hop

end
end UvExec.TcpListener
