import UvExec.Algorithms.AsyncValueOpState
import UvExec.Algorithms.EventOpState
import UvExec.Algorithms.ReadOpState
import UvExec.Algorithms.RequestReceivers
import UvExec.Algorithms.ScheduleOpState
import UvExec.Algorithms.SocketOpState
import UvExec.Sockets.TcpListener

/-! # Senders and their completion signatures (algorithms/completion_signatures.hpp)

A sender is an expression over the algorithms. It declares the signatures that its
`get_completion_signatures` computes from those of its parts, and it completes as
the operation states do that connecting it creates. `exec::finally` passes copies of
what the body sends, so types of arguments are told up to `std::decay_t`. -/

namespace UvExec.Signatures
open Lib

/-- The types of the arguments of `set_value`: none, `std::size_t`, or others. -/
inductive Args (T : Type) where
  | void
  | length
  | other (types : T)
  deriving DecidableEq, Repr

inductive Signature (T : Type) where
  | setValue (args : Args T)
  | setErrc
  | setException
  | setError (type : T)
  | setStopped
  deriving DecidableEq, Repr

/-- What a receiver is called with. Values and the errors of senders from outside
are told by their types. -/
abbrev Signal (T : Type) := Disposition (Args T) T

def signature {T : Type} : Signal T → Signature T
  | .value args => .setValue args
  | .error (.errc _) => .setErrc
  | .error (.exception _) => .setException
  | .error (.other type) => .setError type
  | .stopped => .setStopped

/-- The requests of `RequestOp`, and the readings of `ReadOp`. -/
inductive Request where
  | send
  | sendTo
  | write
  | connect
  | shutdown
  deriving DecidableEq, Repr

inductive Reading where
  | readSome
  | readUntil
  | receive
  | receiveFrom
  deriving DecidableEq, Repr

/- `body` is the sender that the user's function returns, and `drop` the one that
`uvexec::drop` returns for the value. -/
inductive Sender (T : Type) where
  | outside (signatures : List (Signature T))
  | schedule
  | scheduleEventually (event : EventOp.Event)
  | eventually (sender : Sender T) (event : EventOp.Event)
  | request (sender : Sender T) (r : Request)
  | read (sender : Sender T) (r : Reading)
  | accept (sender : Sender T)
  | close (sender : Sender T)
  | asyncValue (sender : Sender T) (kind : AsyncValue.Kind) (body drop : Sender T)
  | connectTo (sender : Sender T) (body : Sender T)
  | acceptFrom (sender : Sender T) (body : Sender T)
  | bindTo (sender : Sender T) (body : Sender T)

variable {T : Type}

/-! ### Declared signatures -/

def voidValueCompletionSignatures (_ : Args T) : List (Signature T) := [.setValue .void]

def lengthValueCompletionSignatures (_ : Args T) : List (Signature T) := [.setValue .length]

def algorithmCompletionSignatures : List (Signature T) := [.setErrc]

def exceptionCompletionSignatures : List (Signature T) := [.setException]

def cancellableAlgorithmCompletionSignatures : List (Signature T) := [.setErrc, .setStopped]

def scheduleCompletionSignatures : List (Signature T) := [.setValue .void, .setStopped]

def scheduleEventuallyCompletionSignatures : List (Signature T) :=
  [.setValue .void, .setErrc, .setStopped]

/-- `stdexec::make_completion_signatures`: the errors and `set_stopped` of the
predecessor are kept. -/
def makeCompletionSignatures (signatures extra : List (Signature T))
    (setValue : Args T → List (Signature T)) : List (Signature T) :=
  extra ++ signatures.flatMap fun sig =>
    match sig with
    | .setValue args => setValue args
    | .setErrc | .setException | .setError _ | .setStopped => [sig]

namespace Sender

/-- `get_completion_signatures`. -/
def declared : Sender T → List (Signature T)
  | .outside signatures => signatures
  | .schedule => scheduleCompletionSignatures
  | .scheduleEventually _ => scheduleEventuallyCompletionSignatures
  | .eventually s _ | .accept s =>
    makeCompletionSignatures s.declared cancellableAlgorithmCompletionSignatures
      voidValueCompletionSignatures
  | .request s _ =>
    makeCompletionSignatures s.declared algorithmCompletionSignatures voidValueCompletionSignatures
  | .read s _ =>
    makeCompletionSignatures s.declared cancellableAlgorithmCompletionSignatures
      lengthValueCompletionSignatures
  | .close s => makeCompletionSignatures s.declared [] voidValueCompletionSignatures
  -- the signatures of the body, and not of `drop`
  | .asyncValue s _ body _ | .connectTo s body | .bindTo s body =>
    makeCompletionSignatures s.declared exceptionCompletionSignatures fun _ => body.declared
  | .acceptFrom s body =>
    -- the signatures of the accept, and not of the sender
    makeCompletionSignatures (makeCompletionSignatures s.declared
      cancellableAlgorithmCompletionSignatures voidValueCompletionSignatures)
      exceptionCompletionSignatures fun _ => body.declared

def subsenders : Sender T → List (Sender T)
  | s@(.outside _) | s@(.schedule) | s@(.scheduleEventually _) => [s]
  | s@(.eventually p _) | s@(.request p _) | s@(.read p _) | s@(.accept p) | s@(.close p) =>
    s :: p.subsenders
  | s@(.asyncValue p _ body drop) => s :: (p.subsenders ++ (body.subsenders ++ drop.subsenders))
  | s@(.connectTo p body) | s@(.acceptFrom p body) | s@(.bindTo p body) =>
    s :: (p.subsenders ++ body.subsenders)

end Sender

/-! ### Completions -/

def disposition {β γ E : Type} (b : γ) : Completion β → Disposition γ E
  | .value _ => .value b
  | .error err => .error (.errc err)
  | .stopped => .stopped

/-- The operation has completed so. -/
def Ends {β γ E : Type} (completions : List (Completion β)) (b : γ) (d : Disposition γ E) : Prop :=
  ∃ c ∈ completions, d = disposition b c

def scheduleEnds (d : Signal T) : Prop :=
  ∃ s, ScheduleOp.system.Reachable s ∧ Ends s.completions .void d

def eventEnds (k : EventOp.OpState) (d : Signal T) : Prop :=
  ∃ s, (EventOp.system k).Reachable s ∧ Ends s.completions .void d

def Request.issues {E : Type} : Request → RequestOp.Operation E → Bool
  | .send, .send _ | .sendTo, .sendTo _ _ | .write, .write _ | .connect, .connect _ _
  | .shutdown, .shutdown => true
  | _, _ => false

def requestEnds {γ : Type} (r : Request) (b : γ) (d : Disposition γ T) : Prop :=
  ∃ (E : Type) (op : RequestOp.Operation E) (s : RequestOp.State E),
    r.issues op = true ∧ (RequestOp.system op).Reachable s ∧ Ends s.completions b d

def Reading.reads {κ α : Type} : Reading → ReadOp.OpState κ α → Bool
  | .readSome, .readSome | .readUntil, .readUntil _ _ | .receive, .receive
  | .receiveFrom, .receiveFrom _ => true
  | _, _ => false

def readEnds (r : Reading) (d : Signal T) : Prop :=
  ∃ (κ α : Type) (k : ReadOp.OpState κ α) (s : ReadOp.State κ α),
    r.reads k = true ∧ (ReadOp.system k).Reachable s ∧ Ends s.completions .length d

def acceptEnds {γ : Type} (b : γ) (d : Disposition γ T) : Prop :=
  ∃ (A : Type) (_ : DecidableEq A) (s : TcpListener.State A) (a : A),
    TcpListener.system.Reachable s ∧ Ends (s.accept a).completions b d

/-- A receiver adaptor passes an error and `set_stopped` on, and begins its
operation in `set_value`. -/
inductive Follows (predecessor own : Signal T → Prop) : Signal T → Prop
  | forwarded (d : Signal T) {fin : Signal T} : predecessor d → d.failure = some fin →
      Follows predecessor own fin
  | own {args : Args T} {d : Signal T} : predecessor (.value args) → own d →
      Follows predecessor own d

def void {β E : Type} : Disposition β E → Disposition Unit E
  | .value _ => .value ()
  | .error e => .error e
  | .stopped => .stopped

/-- The nested operations of connect_to, accept_from and bind_to complete as their
senders do. -/
def socketAdmits (o : SocketOp.Outcomes (Args T) T) (predecessor : Signal T → Prop)
    (request : Disposition Unit T → Prop) (body : Signal T → Prop)
    (_ : SocketOp.State (Args T) T) : SocketOp.Action → Prop
  | .predecessor => ∃ d, predecessor d ∧ o.predecessor = void d
  | .request => request o.request
  | .body => body o.body
  | .run | .closed => True

def socketEnds (k : SocketOp.Kind) (predecessor : Signal T → Prop)
    (request : Disposition Unit T → Prop) (body : Signal T → Prop) (d : Signal T) : Prop :=
  ∃ (o : SocketOp.Outcomes (Args T) T) (s : SocketOp.State (Args T) T),
    (SocketOp.system k o).ReachableVia (socketAdmits o predecessor request body) s ∧
    .completed d ∈ s.trace

def asyncValueAdmits (o : AsyncValue.Outcomes (Args T) T) (predecessor body drop : Signal T → Prop)
    (_ : AsyncValue.State (Args T) T) : AsyncValue.Action → Prop
  | .predecessor => ∃ d, predecessor d ∧ o.predecessor = void d
  | .body => body o.body
  | .dropped => ∃ args, drop (.value args)
  | .run | .destroy | .requestStop | .callback => True

/-- The completion of the operation, or of `drop`, which `exec::finally` completes with
in the body's place where it fails. -/
def asyncValueEnds (k : AsyncValue.Kind) (predecessor body drop : Signal T → Prop) (d : Signal T) : Prop :=
  ∃ (o : AsyncValue.Outcomes (Args T) T) (s : AsyncValue.State (Args T) T),
    (AsyncValue.system k o).ReachableVia (asyncValueAdmits o predecessor body drop) s ∧
    (.completed d ∈ s.trace ∨ ∃ fin d', s.pc = .dropping fin ∧ drop d' ∧ d'.failure = some d)

namespace Sender

/-- The signals that a receiver connected to the sender can get in some run. -/
def Completes : Sender T → Signal T → Prop
  | .outside signatures => fun d => signature d ∈ signatures
  | .schedule => scheduleEnds
  | .scheduleEventually event => eventEnds ⟨event, false⟩
  | .eventually s event => Follows s.Completes (eventEnds ⟨event, true⟩)
  | .request s r => Follows s.Completes (requestEnds r .void)
  | .read s r => Follows s.Completes (readEnds r)
  | .accept s => Follows s.Completes (acceptEnds .void)
  -- `CloseCallback` has nothing else to call
  | .close s => Follows s.Completes fun d => d = .value .void
  | .asyncValue s kind body drop => asyncValueEnds kind s.Completes body.Completes drop.Completes
  | .connectTo s body => socketEnds .connectTo s.Completes (requestEnds .connect ()) body.Completes
  | .acceptFrom s body => socketEnds .acceptFrom s.Completes (acceptEnds ()) body.Completes
  | .bindTo s body => socketEnds .bindTo s.Completes (fun _ => False) body.Completes

/-- The sender completes only as it declares. -/
def Sound (s : Sender T) : Prop := ∀ d, s.Completes d → signature d ∈ s.declared

/-- An operation on a socket that is created in it can fail with an `EErrc`, and the
value of another can be dropped by a sender that fails, which neither the predecessor
nor the body declares. -/
def Overlooks : Sender T → Prop
  | s@(.asyncValue p _ body drop) => (∃ args, p.Completes (.value args)) ∧ (∃ d, body.Completes d) ∧
      ∃ d, drop.Completes d ∧ (∀ args, d ≠ .value args) ∧ signature d ∉ s.declared
  | s@(.connectTo _ _) => .setErrc ∉ s.declared
  | s@(.bindTo p _) => .setErrc ∉ s.declared ∧ ∃ args, p.Completes (.value args)
  | .outside _ | .schedule | .scheduleEventually _ | .eventually _ _ | .request _ _ | .read _ _
  | .accept _ | .close _ | .acceptFrom _ _ => False

end Sender

/-! ### Operations without parts -/

theorem ends_value {β γ E : Type} {completions : List (Completion β)} {b : γ} {d : Disposition γ E}
    (h : Ends completions b d) :
    d = .value b ∨ (∃ err, d = .error (.errc err) ∧ .error err ∈ completions) ∨
      d = .stopped ∧ .stopped ∈ completions := by
  obtain ⟨c, hc, rfl⟩ := h
  cases c with
  | value v => exact Or.inl rfl
  | error err => exact Or.inr (Or.inl ⟨err, rfl, hc⟩)
  | stopped => exact Or.inr (Or.inr ⟨rfl, hc⟩)

/-- `Apply` of a schedule operation chooses no error. -/
theorem schedule_errorless {s : ScheduleOp.State} (h : ScheduleOp.system.Reachable s) :
    ∀ err, s.pc ≠ .complete (.error err) ∧ .error err ∉ s.completions := by
  refine System.Reachable.invariant
    (I := fun s => ∀ err, s.pc ≠ .complete (.error err) ∧ .error err ∉ s.completions) ?_ ?_ h
  · intro s hs err
    rw [hs]
    simp
  · intro s a s' hi hs err
    obtain ⟨hpc, hmem⟩ := hi err
    cases ScheduleOp.step_cases hs with
    | start hp => exact ⟨by simp, hmem⟩
    | apply hp =>
      refine ⟨?_, hmem⟩
      show ScheduleOp.Pc.complete _ ≠ _
      split <;> simp
    | complete c hp =>
      have hne : c ≠ .error err := by
        intro he
        exact hpc (by rw [hp, he])
      simp [hmem, Ne.symm hne]
    | requestStop => exact ⟨hpc, hmem⟩

/-- No request is cancelled. -/
theorem request_unstopped {E : Type} {op : RequestOp.Operation E} {s : RequestOp.State E}
    (h : (RequestOp.system op).Reachable s) : s.pc ≠ .complete .stopped ∧ .stopped ∉ s.completions := by
  have houtcome (err : Int) : RequestOp.outcome err ≠ .stopped := by
    unfold RequestOp.outcome
    split <;> simp
  refine System.Reachable.invariant
    (I := fun s => s.pc ≠ .complete .stopped ∧ .stopped ∉ s.completions) ?_ ?_ h
  · intro s hs
    rw [hs]
    simp
  · intro s a s' hi hs
    obtain ⟨hpc, hmem⟩ := hi
    cases RequestOp.step_cases hs with
    | empty hp hop => simp [hmem]
    | forward buff hp hop | issue call hp | start call err hp he => exact ⟨by simp, hmem⟩
    | complete c hp =>
      have hne : c ≠ .stopped := by
        intro he
        exact hpc (by rw [hp, he])
      simp [hmem, Ne.symm hne]
    | ended call err hp hor => exact ⟨by simpa using houtcome err, hmem⟩
    | callback status hp hin => exact ⟨by simpa using houtcome status, hmem⟩

theorem requestEnds_cases {γ : Type} {r : Request} {b : γ} {d : Disposition γ T}
    (h : requestEnds r b d) : d = .value b ∨ ∃ err, d = .error (.errc err) := by
  obtain ⟨E, op, s, hr, hs, hends⟩ := h
  rcases ends_value hends with hv | ⟨err, he, -⟩ | ⟨-, hmem⟩
  · exact Or.inl hv
  · exact Or.inr ⟨err, he⟩
  · exact ((request_unstopped hs).2 hmem).elim

/-! ### Operations with a body -/

/-- Where the completion of an operation with a body comes from. `Code` tells that
an `EErrc` of the operation's own is possible. -/
inductive Source (Code : Prop) (predecessor : Signal T → Prop) (request : Disposition Unit T → Prop)
    (body : Signal T → Prop) : Signal T → Prop
  | code (err : Int) : Code → Source Code predecessor request body (.error (.errc err))
  | exception (x : T) : Source Code predecessor request body (.error (.exception x))
  | predecessor (d : Signal T) {fin : Signal T} : predecessor d → d.failure = some fin →
      Source Code predecessor request body fin
  | request {args : Args T} (d : Disposition Unit T) {fin : Signal T} : predecessor (.value args) →
      request d → d.failure = some fin → Source Code predecessor request body fin
  | body {args : Args T} {d : Signal T} : predecessor (.value args) → body d →
      Source Code predecessor request body d

variable {predecessor body : Signal T → Prop} {request : Disposition Unit T → Prop}

theorem failure_void (d : Signal T) : (void d).failure (β := Args T) = d.failure := by
  cases d <;> rfl

/-- The predecessor has completed with a value. -/
theorem value_of_failure {p : Disposition Unit T} (h : ∃ d, predecessor d ∧ p = void d)
    (hnone : p.failure (β := Args T) = none) : ∃ args, predecessor (.value args) := by
  obtain ⟨d, hd, rfl⟩ := h
  rw [failure_void] at hnone
  obtain ⟨args, rfl⟩ := Disposition.failure_eq_none.mp hnone
  exact ⟨args, hd⟩

namespace Socket

/-- The signal that the operation is carrying to its receiver. -/
def carried : SocketOp.Pc (Args T) T → Option (Signal T)
  | .startClose fin | .emplaceClose fin | .connectClose fin | .closing fin | .closingBody fin
  | .complete _ fin => some fin
  | .init | .makeReceiver | .connectIn | .predecessor | .request | .bind | .emplaceBody | .invokeFn
  | .connectBody | .caught _ | .body | .done => none

/-- Past a predecessor that has not failed. -/
def passed (k : SocketOp.Kind) : SocketOp.Pc (Args T) T → Bool
  | .init => k = .bindTo
  | .request | .bind | .emplaceBody | .invokeFn | .connectBody | .body => true
  | .makeReceiver | .connectIn | .predecessor | .caught _ | .startClose _ | .emplaceClose _
  | .connectClose _ | .closing _ | .closingBody _ | .complete _ _ | .done => false

/-- A datagram socket is bound to what the predecessor sends, and the others are
constructed at once. -/
def Code (k : SocketOp.Kind) (predecessor : Signal T → Prop) : Prop :=
  k = .bindTo → ∃ args, predecessor (.value args)

structure SourceInv (k : SocketOp.Kind) (predecessor : Signal T → Prop)
    (request : Disposition Unit T → Prop) (body : Signal T → Prop)
    (s : SocketOp.State (Args T) T) : Prop where
  carried : ∀ fin, carried s.pc = some fin → Source (Code k predecessor) predecessor request body fin
  completed : ∀ fin, .completed fin ∈ s.trace → Source (Code k predecessor) predecessor request body fin
  passed : passed k s.pc = true → ∃ args, predecessor (.value args)

variable {k : SocketOp.Kind} {o : SocketOp.Outcomes (Args T) T} {s s' : SocketOp.State (Args T) T}
  {a : SocketOp.Action}

theorem sourceInv_step (hi : SourceInv k predecessor request body s)
    (hok : socketAdmits o predecessor request body s a) (h : SocketOp.Step k o s a s') :
    SourceInv k predecessor request body s' := by
  obtain ⟨hcar, hcomp, hpassed⟩ := hi
  cases h with
  | initFailed hp h0 =>
    refine ⟨?_, hcomp, by simp [Socket.passed]⟩
    intro fin hfin
    cases hfin
    refine .code o.init fun hk => hpassed ?_
    simp [hp, Socket.passed, hk]
  | init hp h0 =>
    cases k with
    | bindTo =>
      refine ⟨by simp [Socket.carried], by simpa using hcomp, ?_⟩
      intro _
      exact hpassed (by simp [hp, Socket.passed])
    | connectTo | acceptFrom =>
      exact ⟨by simp [Socket.carried], by simpa using hcomp, by simp [Socket.passed]⟩
  | makeReceiver hp | connectIn hp hx =>
    exact ⟨by simp [Socket.carried], hcomp, by simp [Socket.passed]⟩
  | connectThrew x hp hx =>
    refine ⟨?_, hcomp, by simp [Socket.passed]⟩
    intro fin hfin
    cases hfin
    exact .exception x
  | bindFailed hp h0 =>
    refine ⟨?_, hcomp, by simp [Socket.passed]⟩
    intro fin hfin
    cases hfin
    exact .code o.bind fun _ => hpassed (by simp [hp, Socket.passed])
  | bind hp h0 =>
    refine ⟨by simp [Socket.carried], hcomp, fun _ => hpassed ?_⟩
    simp [hp, Socket.passed]
  | emplaceBody hp | invokeFn hp hx =>
    refine ⟨by simp [Socket.carried], hcomp, fun _ => hpassed ?_⟩
    simp [hp, Socket.passed]
  | fnThrew x hp hx | connectBodyThrew x hp hx =>
    exact ⟨by simp [Socket.carried], hcomp, by simp [Socket.passed]⟩
  | connectBody hp hx =>
    refine ⟨by simp [Socket.carried], by simpa using hcomp, fun _ => hpassed ?_⟩
    simp [hp, Socket.passed]
  | caughtBind x hp hk | caught x slots hp hk hslots =>
    refine ⟨?_, hcomp, by simp [Socket.passed]⟩
    intro fin hfin
    cases hfin
    exact .exception x
  | startClose fin hp | emplaceClose fin hp =>
    exact ⟨fun _ hfin => hcar _ (by rw [hp]; exact hfin), hcomp, by simp [Socket.passed]⟩
  | connectClose fin hp | closed fin hp | closedBody fin hp =>
    refine ⟨fun _ hfin => hcar _ (by rw [hp]; exact hfin), by simpa using hcomp, ?_⟩
    simp [Socket.passed]
  | complete slot fin hp =>
    refine ⟨by simp [Socket.carried], ?_, by simp [Socket.passed]⟩
    intro d hd
    rcases List.mem_append.mp hd with hmem | hlast
    · exact hcomp d hmem
    · have hd : d = fin := by simpa using hlast
      exact hcar d (by rw [hp, hd]; rfl)
  | predecessor hp hf =>
    have hvalue := value_of_failure hok hf
    cases k with
    | bindTo | connectTo | acceptFrom =>
      exact ⟨by simp [Socket.carried], hcomp, fun _ => hvalue⟩
  | predecessorFailed fin hp hf =>
    obtain ⟨d, hd, he⟩ := hok
    rw [he, failure_void] at hf
    have hsource : Source (Code k predecessor) predecessor request body fin := .predecessor d hd hf
    cases k with
    | bindTo | connectTo | acceptFrom =>
      refine ⟨?_, hcomp, by simp [Socket.passed]⟩
      intro fin' hfin
      cases hfin
      exact hsource
  | request hp hf =>
    refine ⟨by simp [Socket.carried], hcomp, fun _ => hpassed ?_⟩
    simp [hp, Socket.passed]
  | requestFailed fin hp hf =>
    obtain ⟨args, hargs⟩ := hpassed (by simp [hp, Socket.passed])
    refine ⟨?_, hcomp, by simp [Socket.passed]⟩
    intro fin' hfin
    cases hfin
    exact .request _ hargs hok hf
  | body hp =>
    obtain ⟨args, hargs⟩ := hpassed (by simp [hp, Socket.passed])
    refine ⟨?_, by simpa using hcomp, by simp [Socket.passed]⟩
    intro fin hfin
    cases hfin
    exact .body hargs hok

theorem sourceInv_of_reachable
    (h : (SocketOp.system k o).ReachableVia (socketAdmits o predecessor request body) s) :
    SourceInv k predecessor request body s := by
  induction h with
  | initial hinit =>
    rw [hinit]
    cases k with
    | bindTo | connectTo | acceptFrom =>
      exact ⟨by simp [SocketOp.initial, Socket.carried], by simp [SocketOp.initial],
        by simp [SocketOp.initial, Socket.passed]⟩
  | step a _ hok hstep ih => exact sourceInv_step ih hok (SocketOp.step_cases hstep)

theorem source_of_ends {d : Signal T} (h : socketEnds k predecessor request body d) :
    Source (Code k predecessor) predecessor request body d := by
  obtain ⟨o, s, hs, hd⟩ := h
  exact (sourceInv_of_reachable hs).completed d hd

end Socket

namespace Async

def carried : AsyncValue.Pc (Args T) T → Option (Signal T)
  | .dropping fin | .resetValue fin | .resetCallback fin | .complete _ fin => some fin
  | .predecessor | .emplaceValue | .emplaceCallback | .callbackEmplaced | .emplaceBody | .invokeFn
  | .connectBody | .caught _ | .body | .done | .terminated | .swallowed | .destroyValue | .destroyed =>
    none

def passed : AsyncValue.Pc (Args T) T → Bool
  | .emplaceValue | .emplaceCallback | .callbackEmplaced | .emplaceBody | .invokeFn | .connectBody
  | .body => true
  | .predecessor | .caught _ | .dropping _ | .resetValue _ | .resetCallback _ | .complete _ _ | .done
  | .terminated | .swallowed | .destroyValue | .destroyed => false

/-- It has no request, and no `EErrc` of its own. -/
structure SourceInv (predecessor body : Signal T → Prop) (s : AsyncValue.State (Args T) T) : Prop where
  carried : ∀ fin, carried s.pc = some fin → Source False predecessor (fun _ => False) body fin
  completed : ∀ fin, .completed fin ∈ s.trace → Source False predecessor (fun _ => False) body fin
  passed : passed s.pc = true → ∃ args, predecessor (.value args)
  dropping : ∀ fin, s.pc = .dropping fin → (∃ args, predecessor (.value args)) ∧ body fin

variable {drop : Signal T → Prop} {k : AsyncValue.Kind} {o : AsyncValue.Outcomes (Args T) T}
  {s s' : AsyncValue.State (Args T) T} {a : AsyncValue.Action}

theorem sourceInv_step (hi : SourceInv predecessor body s)
    (hok : asyncValueAdmits o predecessor body drop s a) (h : AsyncValue.Step k o s a s') :
    SourceInv predecessor body s' := by
  obtain ⟨hcar, hcomp, hpassed, hdropping⟩ := hi
  cases h with
  | constructThrew x hp hx | fnThrew x hp hk hx | connectBodyThrew x hp hx | swallowed x hp hk
  | destroyValue hp | destroy hp hrun =>
    exact ⟨by simp [Async.carried], hcomp, by simp [Async.passed], by simp⟩
  | emplaceValue hp hx =>
    refine ⟨by simp [Async.carried], by simpa using hcomp, fun _ => hpassed ?_, by simp⟩
    simp [hp, Async.passed]
  | emplaceCallback hp | callbackEmplaced hp hrun | emplaceBody hp | invokeFn hp hor
  | connectBody hp hx =>
    refine ⟨by simp [Async.carried], hcomp, fun _ => hpassed ?_, by simp⟩
    simp [hp, Async.passed]
  | caught x hp hk =>
    refine ⟨?_, hcomp, by simp [Async.passed], by simp⟩
    intro fin hfin
    cases hfin
    exact .exception x
  | resetValue fin hp | dropped fin hp | resetCallback fin hp hrun =>
    refine ⟨fun _ hfin => hcar _ (by rw [hp]; exact hfin), by simpa using hcomp, ?_, by simp⟩
    simp [Async.passed]
  | complete slot fin hp =>
    refine ⟨by simp [Async.carried], ?_, by simp [Async.passed], by simp⟩
    intro d hd
    rcases List.mem_append.mp hd with hmem | hlast
    · exact hcomp d hmem
    · have hd : d = fin := by simpa using hlast
      exact hcar d (by rw [hp, hd]; rfl)
  | predecessor hp hf =>
    exact ⟨by simp [Async.carried], hcomp, fun _ => value_of_failure hok hf, by simp⟩
  | predecessorFailed fin hp hf =>
    obtain ⟨d, hd, he⟩ := hok
    rw [he, failure_void] at hf
    refine ⟨?_, hcomp, by simp [Async.passed], by simp⟩
    intro fin' hfin
    cases hfin
    exact .predecessor d hd hf
  | body hp =>
    obtain ⟨args, hargs⟩ := hpassed (by simp [hp, Async.passed])
    refine ⟨?_, by simpa using hcomp, by simp [Async.passed], ?_⟩
    · intro fin hfin
      cases hfin
      exact .body hargs hok
    · intro fin hfin
      cases hfin
      exact ⟨⟨args, hargs⟩, hok⟩
  | requestStop | callRequestStop i hc | callbackExit i hc => exact ⟨hcar, hcomp, hpassed, hdropping⟩

/-- The completion comes from one of the stages, or from a `drop` that fails after the body. -/
theorem source_of_ends {d : Signal T} (h : asyncValueEnds k predecessor body drop d) :
    Source False predecessor (fun _ => False) body d ∨ (∃ args, predecessor (.value args)) ∧
      (∃ fin, body fin) ∧ ∃ d', drop d' ∧ d'.failure = some d := by
  obtain ⟨o, s, hs, hd⟩ := h
  have hinv : SourceInv predecessor body s := by
    refine System.ReachableVia.invariant (K := fun _ => True) (fun _ _ => trivial) ?_ ?_ hs
    · intro t ht
      rw [ht]
      exact ⟨by simp [Async.carried], by simp, by simp [Async.passed], by simp⟩
    · intro t a t' _ hi hok hstep
      exact sourceInv_step hi hok (AsyncValue.step_cases hstep)
  rcases hd with hcompleted | ⟨fin, d', hp, hdrop, hf⟩
  · exact Or.inl (hinv.completed d hcompleted)
  · obtain ⟨hvalue, hbody⟩ := hinv.dropping fin hp
    exact Or.inr ⟨hvalue, ⟨fin, hbody⟩, d', hdrop, hf⟩

end Async

/-! ### Soundness -/

section
variable {signatures extra : List (Signature T)} {setValue : Args T → List (Signature T)}
  {sig : Signature T} {args : Args T}

theorem mem_extra (h : sig ∈ extra) : sig ∈ makeCompletionSignatures signatures extra setValue :=
  List.mem_append_left _ h

theorem mem_setValue (h : .setValue args ∈ signatures) (hsig : sig ∈ setValue args) :
    sig ∈ makeCompletionSignatures signatures extra setValue :=
  List.mem_append_right _ (List.mem_flatMap.mpr ⟨_, h, hsig⟩)

theorem mem_kept (h : sig ∈ signatures) (hne : ∀ args, sig ≠ .setValue args) :
    sig ∈ makeCompletionSignatures signatures extra setValue := by
  refine List.mem_append_right _ (List.mem_flatMap.mpr ⟨sig, h, ?_⟩)
  cases sig with
  | setValue args => exact (hne args rfl).elim
  | setErrc | setException | setError type | setStopped => simp

end

theorem failure_eq {β γ : Type} {d : Disposition β T} {fin : Disposition γ T} (h : d.failure = some fin) :
    (∃ e, d = .error e ∧ fin = .error e) ∨ d = .stopped ∧ fin = .stopped := by
  cases d with
  | value b => cases h
  | error e =>
    cases h
    exact Or.inl ⟨e, rfl, rfl⟩
  | stopped =>
    cases h
    exact Or.inr ⟨rfl, rfl⟩

/-- A failure that is passed on is no value, and keeps its signature. -/
theorem signature_failure {d fin : Signal T} (h : d.failure = some fin) :
    signature fin = signature d ∧ ∀ args, signature d ≠ .setValue args := by
  rcases failure_eq h with ⟨e, rfl, rfl⟩ | ⟨rfl, rfl⟩
  · refine ⟨rfl, fun args => ?_⟩
    cases e <;> simp [signature]
  · exact ⟨rfl, by simp [signature]⟩

/-- A signal is declared, or it is a failure that has been overlooked. -/
def Declared (signatures : List (Signature T)) (overlooked : Prop) (d : Signal T) : Prop :=
  signature d ∈ signatures ∨ (∀ args, signature d ≠ .setValue args) ∧ overlooked

section
variable {signatures extra : List (Signature T)} {setValue : Args T → List (Signature T)}
  {overlooked : Prop} {p own : Signal T → Prop} {d : Signal T}

theorem declared_kept {fin : Signal T} (hd : Declared signatures overlooked d)
    (hf : d.failure = some fin) :
    Declared (makeCompletionSignatures signatures extra setValue) overlooked fin := by
  obtain ⟨hsig, hne⟩ := signature_failure hf
  rcases hd with hmem | ⟨-, ho⟩
  · left
    rw [hsig]
    exact mem_kept hmem hne
  · right
    rw [hsig]
    exact ⟨hne, ho⟩

theorem mem_of_declared_value {args : Args T} (h : Declared signatures overlooked (.value args)) :
    .setValue args ∈ signatures := by
  rcases h with hmem | ⟨hne, -⟩
  · exact hmem
  · exact (hne args rfl).elim

theorem declared_follows (hp : ∀ d, p d → Declared signatures overlooked d)
    (hown : ∀ args d, own d → signature d ∈ extra ∨ signature d ∈ setValue args)
    (h : Follows p own d) :
    Declared (makeCompletionSignatures signatures extra setValue) overlooked d := by
  cases h with
  | forwarded d' hd hf => exact declared_kept (hp d' hd) hf
  | own hv hd =>
    left
    rcases hown _ d hd with hextra | hset
    · exact mem_extra hextra
    · exact mem_setValue (mem_of_declared_value (hp _ hv)) hset

end

theorem Declared.mono {signatures : List (Signature T)} {overlooked overlooked' : Prop} {d : Signal T}
    (h : Declared signatures overlooked d) (ho : overlooked → overlooked') :
    Declared signatures overlooked' d := by
  rcases h with hmem | ⟨herr, hover⟩
  · exact Or.inl hmem
  · exact Or.inr ⟨herr, ho hover⟩

/-- Every kind of completion but those with an argument. -/
theorem signature_ends {β : Type} {completions : List (Completion β)} {args : Args T} {d : Signal T}
    (h : Ends completions args d) :
    signature d ∈ cancellableAlgorithmCompletionSignatures ∨ signature d = .setValue args := by
  rcases ends_value h with rfl | ⟨err, rfl, -⟩ | ⟨rfl, -⟩
  · exact Or.inr rfl
  · exact Or.inl (by simp [signature, cancellableAlgorithmCompletionSignatures])
  · exact Or.inl (by simp [signature, cancellableAlgorithmCompletionSignatures])

theorem signature_request {r : Request} {d : Signal T} (h : requestEnds r .void d) :
    signature d ∈ algorithmCompletionSignatures ∨ signature d = .setValue .void := by
  rcases requestEnds_cases h with rfl | ⟨err, rfl⟩
  · exact Or.inr rfl
  · exact Or.inl (by simp [signature, algorithmCompletionSignatures])

namespace Sender

def Overlooked (s : Sender T) : Prop := ∃ t ∈ s.subsenders, t.Overlooks

theorem mem_subsenders (s : Sender T) : s ∈ s.subsenders := by
  cases s <;> simp [subsenders]

/-- A part of a part is a part. -/
theorem subsenders_trans (s : Sender T) {t u : Sender T} (ht : t ∈ s.subsenders)
    (hu : u ∈ t.subsenders) : u ∈ s.subsenders := by
  induction s with
  | outside sigs | schedule | scheduleEventually event =>
    cases List.mem_singleton.mp ht
    exact hu
  | eventually p event ih | request p r ih | read p r ih | accept p ih | close p ih =>
    rcases List.mem_cons.mp ht with rfl | hp
    · exact hu
    · exact List.mem_cons_of_mem _ (ih hp)
  | asyncValue p kind body drop ihp ihb ihd =>
    rcases List.mem_cons.mp ht with rfl | hmem
    · exact hu
    · simp only [subsenders, List.mem_cons, List.mem_append] at hmem ⊢
      rcases hmem with hp | hb | hd
      · exact Or.inr (Or.inl (ihp hp))
      · exact Or.inr (Or.inr (Or.inl (ihb hb)))
      · exact Or.inr (Or.inr (Or.inr (ihd hd)))
  | connectTo p body ihp ihb | acceptFrom p body ihp ihb | bindTo p body ihp ihb =>
    rcases List.mem_cons.mp ht with rfl | hmem
    · exact hu
    · refine List.mem_cons_of_mem _ (List.mem_append.mpr ?_)
      rcases List.mem_append.mp hmem with hp | hb
      · exact Or.inl (ihp hp)
      · exact Or.inr (ihb hb)

/-- An algorithm over the signals of its predecessor. -/
theorem declared_adaptor {p : Sender T} {own : Signal T → Prop} {s : Sender T} {d : Signal T}
    {extra : List (Signature T)} {args : Args T}
    (hp : ∀ d, p.Completes d → Declared p.declared p.Overlooked d)
    (hsub : ∀ t ∈ p.subsenders, t ∈ s.subsenders)
    (hown : ∀ d, own d → signature d ∈ extra ∨ signature d = .setValue args)
    (h : Follows p.Completes own d) :
    Declared (makeCompletionSignatures p.declared extra fun _ => [.setValue args]) s.Overlooked d := by
  refine declared_follows ?_ ?_ h
  · intro d hd
    refine (hp d hd).mono ?_
    intro ⟨t, ht, ho⟩
    exact ⟨t, hsub t ht, ho⟩
  · intro _ d hd
    rcases hown d hd with hextra | hvalue
    · exact Or.inl hextra
    · exact Or.inr (by simp [hvalue])

/-- An algorithm with a body, over the signals `signatures` of what comes before
the body. -/
theorem declared_source {Code : Prop} {p body s : Sender T} {request : Disposition Unit T → Prop}
    {signatures : List (Signature T)} {d : Signal T}
    (hp : ∀ d, p.Completes d → Declared p.declared p.Overlooked d)
    (hb : ∀ d, body.Completes d → Declared body.declared body.Overlooked d)
    (hsub : ∀ t, t ∈ p.subsenders ∨ t ∈ body.subsenders → t ∈ s.subsenders)
    (hkept : ∀ d fin, Declared p.declared s.Overlooked d → d.failure = some fin →
      Declared signatures s.Overlooked fin)
    (hvalue : ∀ args, .setValue args ∈ p.declared → ∃ args, .setValue args ∈ signatures)
    (hcode : Code → ∀ err : Int, Declared (makeCompletionSignatures signatures
      exceptionCompletionSignatures fun _ => body.declared) s.Overlooked (.error (.errc err)))
    (hrequest : ∀ args d fin, p.Completes (.value args) → request d → d.failure = some fin →
      Declared (makeCompletionSignatures signatures exceptionCompletionSignatures
        fun _ => body.declared) s.Overlooked fin)
    (h : Source Code p.Completes request body.Completes d) :
    Declared (makeCompletionSignatures signatures exceptionCompletionSignatures
      fun _ => body.declared) s.Overlooked d := by
  have hover {t : Sender T} (hin : ∀ u ∈ t.subsenders, u ∈ s.subsenders) :
      t.Overlooked → s.Overlooked := by
    intro ⟨u, hu, ho⟩
    exact ⟨u, hin u hu, ho⟩
  have hpred (d : Signal T) (hd : p.Completes d) : Declared p.declared s.Overlooked d :=
    (hp d hd).mono (hover fun t ht => hsub t (Or.inl ht))
  cases h with
  | code err hc => exact hcode hc err
  | exception x => exact Or.inl (mem_extra (by simp [signature, exceptionCompletionSignatures]))
  | predecessor d' hd hf =>
    have hfin := hkept d' d (hpred d' hd) hf
    rcases failure_eq hf with ⟨e, -, rfl⟩ | ⟨-, rfl⟩
    · exact declared_kept hfin rfl
    · exact declared_kept hfin rfl
  | request d' hv hd hf => exact hrequest _ d' d hv hd hf
  | body hv hd =>
    obtain ⟨args, hargs⟩ := hvalue _ (mem_of_declared_value (hpred _ hv))
    rcases (hb d hd).mono (hover fun t ht => hsub t (Or.inr ht)) with hmem | hover
    · exact Or.inl (mem_setValue hargs hmem)
    · exact Or.inr hover

theorem declared_failure {signatures : List (Signature T)} {overlooked : Prop} {d fin : Signal T}
    (h : Declared signatures overlooked d) (hf : d.failure = some fin) :
    Declared signatures overlooked fin := by
  unfold Declared
  rw [(signature_failure hf).1]
  exact h

/-- Every signal is declared, but for the failures that senders overlook. -/
theorem completion_declared (s : Sender T) (d : Signal T) (h : s.Completes d) :
    Declared s.declared s.Overlooked d := by
  induction s generalizing d with
  | outside sigs => exact Or.inl h
  | schedule =>
    obtain ⟨t, ht, hends⟩ := h
    rcases ends_value hends with rfl | ⟨err, -, hmem⟩ | ⟨rfl, -⟩
    · exact Or.inl (by simp [signature, declared, scheduleCompletionSignatures])
    · exact ((schedule_errorless ht err).2 hmem).elim
    · exact Or.inl (by simp [signature, declared, scheduleCompletionSignatures])
  | scheduleEventually event =>
    obtain ⟨t, -, hends⟩ := h
    rcases ends_value hends with rfl | ⟨err, rfl, -⟩ | ⟨rfl, -⟩
    all_goals exact Or.inl (by simp [signature, declared, scheduleEventuallyCompletionSignatures])
  | eventually p event ih =>
    refine declared_adaptor ih (fun t ht => List.mem_cons_of_mem _ ht) ?_ h
    intro d ⟨t, _, hends⟩
    exact signature_ends hends
  | request p r ih =>
    refine declared_adaptor ih (fun t ht => List.mem_cons_of_mem _ ht) ?_ h
    intro d hd
    exact signature_request hd
  | read p r ih =>
    refine declared_adaptor ih (fun t ht => List.mem_cons_of_mem _ ht) ?_ h
    intro d ⟨_, _, _, t, _, _, hends⟩
    exact signature_ends hends
  | accept p ih =>
    refine declared_adaptor ih (fun t ht => List.mem_cons_of_mem _ ht) ?_ h
    intro d ⟨_, _, t, a, _, hends⟩
    exact signature_ends hends
  | close p ih =>
    refine declared_adaptor ih (fun t ht => List.mem_cons_of_mem _ ht) ?_ h
    intro d hd
    exact Or.inr (by rw [hd]; rfl)
  | asyncValue p kind body drop ihp ihb =>
    rcases Async.source_of_ends h with hsource | ⟨hvalue, hbody, d', hdrop, hf⟩
    · refine declared_source ihp ihb ?_ (fun _ _ hd hf => declared_failure hd hf)
        (fun args hargs => ⟨args, hargs⟩) (fun hc => hc.elim) ?_ hsource
      · intro t ht
        simp only [subsenders, List.mem_cons, List.mem_append]
        rcases ht with hp | hb
        · exact Or.inr (Or.inl hp)
        · exact Or.inr (Or.inr (Or.inl hb))
      · intro _ _ _ _ hd
        exact hd.elim
    · by_cases hmem : signature d ∈ (asyncValue p kind body drop).declared
      · exact Or.inl hmem
      · obtain ⟨hsig, hne⟩ := signature_failure hf
        rw [hsig] at hmem
        refine Or.inr ⟨by rwa [hsig], _, mem_subsenders _, hvalue, hbody, d', hdrop, ?_, hmem⟩
        intro args he
        exact hne args (by rw [he]; rfl)
  | connectTo p body ihp ihb =>
    have hcode (err : Int) : Declared (connectTo p body).declared (connectTo p body).Overlooked
        (.error (.errc err)) := by
      by_cases hmem : .setErrc ∈ (connectTo p body).declared
      · exact Or.inl hmem
      · exact Or.inr ⟨by simp [signature], _, mem_subsenders _, hmem⟩
    refine declared_source ihp ihb ?_ (fun _ _ hd hf => declared_failure hd hf)
      (fun args hargs => ⟨args, hargs⟩) (fun _ => hcode) ?_ (Socket.source_of_ends h)
    · intro t ht
      exact List.mem_cons_of_mem _ (List.mem_append.mpr ht)
    · intro _ d fin _ hd hf
      rcases requestEnds_cases hd with rfl | ⟨err, rfl⟩
      · cases hf
      · cases hf
        exact hcode err
  | acceptFrom p body ihp ihb =>
    have hcode (err : Int) : Declared (acceptFrom p body).declared (acceptFrom p body).Overlooked
        (.error (.errc err)) := by
      refine Or.inl (mem_kept (mem_extra ?_) (by simp [signature]))
      simp [signature, cancellableAlgorithmCompletionSignatures]
    refine declared_source ihp ihb ?_ (fun _ _ hd hf => declared_kept hd hf)
      (fun args hargs => ⟨.void, mem_setValue hargs (by simp [voidValueCompletionSignatures])⟩)
      (fun _ => hcode) ?_ (Socket.source_of_ends h)
    · intro t ht
      exact List.mem_cons_of_mem _ (List.mem_append.mpr ht)
    · intro _ d fin _ ⟨_, _, t, a, _, hends⟩ hf
      rcases ends_value hends with rfl | ⟨err, rfl, -⟩ | ⟨rfl, -⟩
      · cases hf
      · cases hf
        exact hcode err
      · cases hf
        refine Or.inl (mem_kept (mem_extra ?_) (by simp [signature]))
        simp [signature, cancellableAlgorithmCompletionSignatures]
  | bindTo p body ihp ihb =>
    have hcode (hc : Socket.Code .bindTo p.Completes) (err : Int) :
        Declared (bindTo p body).declared (bindTo p body).Overlooked (.error (.errc err)) := by
      by_cases hmem : .setErrc ∈ (bindTo p body).declared
      · exact Or.inl hmem
      · exact Or.inr ⟨by simp [signature], _, mem_subsenders _, hmem, hc rfl⟩
    refine declared_source ihp ihb ?_ (fun _ _ hd hf => declared_failure hd hf)
      (fun args hargs => ⟨args, hargs⟩) hcode ?_ (Socket.source_of_ends h)
    · intro t ht
      exact List.mem_cons_of_mem _ (List.mem_append.mpr ht)
    · intro _ _ _ _ hd
      exact hd.elim

/-! ### What is overlooked happens -/

section
variable {predecessor body : Signal T → Prop} {request : Disposition Unit T → Prop}

/-- Every stage fails that can. -/
def failing : SocketOp.Outcomes (Args T) T where
  predecessor := .value ()
  init := -1
  connect := none
  request := .stopped
  bind := -1
  fn := none
  connectBody := none
  body := .stopped

theorem init_fails {k : SocketOp.Kind} (hk : k ≠ .bindTo) :
    socketEnds k predecessor request body (.error (.errc (-1))) := by
  have hrun : ((SocketOp.system k failing).exec (SocketOp.initial k) [.run, .run]).map
      SocketOp.State.trace = some [.completed (.error (.errc (-1)) : Signal T)] := by
    cases k with
    | connectTo | acceptFrom => rfl
    | bindTo => exact (hk rfl).elim
  obtain ⟨s, hs, htrace⟩ := Option.map_eq_some_iff.mp hrun
  have hok : ∀ t, ∀ a ∈ [SocketOp.Action.run, .run],
      socketAdmits failing predecessor request body t a := by
    intro t a ha
    have hrun : a = .run := by simpa using ha
    rw [hrun]
    trivial
  exact ⟨failing, s, System.reachableVia_exec _ (.initial rfl) hok hs, by simp [htrace]⟩

theorem bound_fails {args : Args T} (hp : predecessor (.value args)) :
    socketEnds .bindTo predecessor request body (.error (.errc (-1))) := by
  have hrun : ((SocketOp.system .bindTo failing).exec (SocketOp.initial .bindTo)
      [.predecessor, .run, .run]).map SocketOp.State.trace =
      some [.completed (.error (.errc (-1)) : Signal T)] := rfl
  obtain ⟨s, hs, htrace⟩ := Option.map_eq_some_iff.mp hrun
  have hok : ∀ t, ∀ a ∈ [SocketOp.Action.predecessor, .run, .run],
      socketAdmits failing predecessor request body t a := by
    intro t a ha
    have hor : a = .predecessor ∨ a = .run := by simpa using ha
    rcases hor with rfl | rfl
    · exact ⟨_, hp, rfl⟩
    · trivial
  exact ⟨failing, s, System.reachableVia_exec _ (.initial rfl) hok hs, by simp [htrace]⟩

end

/-- Nothing throws, and `drop` is reached. -/
def droppingAfter (fin : Signal T) : AsyncValue.Outcomes (Args T) T where
  predecessor := .value ()
  construct := none
  fn := none
  connectBody := none
  body := fin

def dropReached : List AsyncValue.Action :=
  [.predecessor, .run, .run, .run, .run, .run, .run, .body]

theorem drop_fails {predecessor body drop : Signal T → Prop} (k : AsyncValue.Kind) {args : Args T}
    {fin d : Signal T} (hp : predecessor (.value args)) (hb : body fin) (hd : drop d)
    (hne : ∀ args, d ≠ .value args) : asyncValueEnds k predecessor body drop d := by
  have hrun : ((AsyncValue.system k (droppingAfter fin)).exec {} dropReached).map
      AsyncValue.State.pc = some (.dropping fin) := by
    obtain ⟨stopSource, nothrowFn⟩ := k
    cases stopSource <;> cases nothrowFn <;> rfl
  obtain ⟨s, hs, hpc⟩ := Option.map_eq_some_iff.mp hrun
  have hok : ∀ t, ∀ a ∈ dropReached, asyncValueAdmits (droppingAfter fin) predecessor body drop t a := by
    intro t a ha
    have hor : a = .predecessor ∨ a = .run ∨ a = .body := by simpa [dropReached] using ha
    rcases hor with rfl | rfl | rfl
    · exact ⟨_, hp, rfl⟩
    · trivial
    · exact hb
  have hf : d.failure = some d := by
    cases d with
    | value args => exact (hne args rfl).elim
    | error e => rfl
    | stopped => rfl
  exact ⟨_, s, System.reachableVia_exec _ (.initial rfl) hok hs, Or.inr ⟨fin, d, hpc, hd, hf⟩⟩

theorem unsound_of_overlooks {s : Sender T} (h : s.Overlooks) : ¬s.Sound := by
  intro hs
  cases s with
  | asyncValue p kind body drop =>
    obtain ⟨⟨args, hargs⟩, ⟨fin, hfin⟩, d, hd, hne, hnot⟩ := h
    exact hnot (hs d (drop_fails kind hargs hfin hd hne))
  | connectTo p body => exact h (hs _ (init_fails (by decide)))
  | bindTo p body =>
    obtain ⟨hnot, args, hargs⟩ := h
    exact hnot (hs _ (bound_fails hargs))
  | outside | schedule | scheduleEventually | eventually | request | read | accept | close
  | acceptFrom => exact h

/-- Signature soundness: a sender and all of its parts complete only as they
declare just when no connect_to or bind_to in it overlooks its own `EErrc`, and no
async_value how its `drop` fails. -/
theorem sound_iff (s : Sender T) :
    (∀ t ∈ s.subsenders, t.Sound) ↔ ∀ t ∈ s.subsenders, ¬t.Overlooks := by
  constructor
  · intro hsound t ht hover
    exact unsound_of_overlooks hover (hsound t ht)
  · intro hnone t ht d hd
    rcases completion_declared t d hd with hmem | ⟨-, u, hu, hover⟩
    · exact hmem
    · exact (hnone u (subsenders_trans s ht hu) hover).elim

end Sender

end UvExec.Signatures
