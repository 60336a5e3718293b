import UvExec.Lib.Transition
import UvExec.Execution.Receiver

/-! # Operations of one libuv request (algorithms/*_receiver.hpp)

The receivers of send, send_to, write, connect and shutdown issue a request in
`set_value` and complete in its callback. All of it is done on the thread of the
loop, which calls back when `set_value` has returned. -/

namespace UvExec.RequestOp
open Lib

abbrev Bytes := List UInt8

/-- The overload of `set_value`: a sequence of buffers or one of bytes. -/
inductive Data where
  | buffs (buffs : List Bytes)
  | bytes (buff : Bytes)
  deriving DecidableEq, Repr

inductive Transport where
  | tcp
  | udp
  deriving DecidableEq, Repr

/-- An operation with what its predecessor sends. The endpoints are the elements
of `E`. -/
inductive Operation (E : Type) where
  | send (data : Data)
  | sendTo (data : Data) (ep : E)
  | write (data : Data)
  | connect (transport : Transport) (ep : E)
  | shutdown
  deriving DecidableEq, Repr

/-- A call of libuv with its arguments, of which `nbufs` is cast to `unsigned`. -/
inductive Call (E : Type) where
  | udpSend (bufs : List Bytes) (nbufs : UInt32) (addr : Option E)
  | write (bufs : List Bytes) (nbufs : UInt32)
  | tcpConnect (addr : E)
  | udpConnect (addr : E)
  | shutdown
  deriving DecidableEq, Repr

inductive Pc (E : Type) where
  | setValue
  | forward (buff : Bytes)
  | start (call : Call E)
  | complete (c : Completion Unit)
  | idle
  deriving DecidableEq, Repr

/- `inFlight` counts the requests that libuv is to call back for. `calls` and
`completions` are history. -/
structure State (E : Type) where
  pc : Pc E := .setValue
  inFlight : ℕ := 0
  calls : List (Call E) := []
  completions : List (Completion Unit) := []
  deriving DecidableEq, Repr

inductive Action where
  | run
  | start (err : Int)
  | callback (status : Int)
  deriving DecidableEq, Repr

variable {E : Type}

/-- `set_value` of a sequence of buffers. -/
def Operation.issue (buffs : List Bytes) : Operation E → Call E
  | .send _ => .udpSend buffs (UInt32.ofNat buffs.length) none
  | .sendTo _ ep => .udpSend buffs (UInt32.ofNat buffs.length) (some ep)
  | .write _ => .write buffs (UInt32.ofNat buffs.length)
  | .connect .tcp ep => .tcpConnect ep
  | .connect .udp ep => .udpConnect ep
  | .shutdown => .shutdown

/-- Connecting a datagram socket is no request and has no callback. -/
def Call.synchronous : Call E → Bool
  | .udpConnect _ => true
  | .udpSend _ _ _ | .write _ _ | .tcpConnect _ | .shutdown => false

def outcome (err : Int) : Completion Unit := if isError err then .error err else .value ()

def runStep (op : Operation E) (s : State E) : Option (State E) :=
  match s.pc with
  | .setValue =>
    match op with
    | .send (.bytes buff) =>
      -- no return follows
      some (if buff.isEmpty then
          { s with completions := s.completions ++ [.value ()], pc := .forward buff }
        else { s with pc := .forward buff })
    | .sendTo (.bytes buff) _ | .write (.bytes buff) => some { s with pc := .forward buff }
    | .send (.buffs buffs) | .sendTo (.buffs buffs) _ | .write (.buffs buffs) =>
      some { s with pc := .start (op.issue buffs) }
    | .connect _ _ | .shutdown => some { s with pc := .start (op.issue []) }
  | .forward buff => some { s with pc := .start (op.issue [buff]) }
  | .complete c => some { s with completions := s.completions ++ [c], pc := .idle }
  | .start _ | .idle => none

def step (op : Operation E) (s : State E) : Action → Option (State E)
  | .run => runStep op s
  | .start err =>
    match s.pc with
    | .start call =>
      let s := { s with calls := s.calls ++ [call] }
      some (if isError err || call.synchronous then { s with pc := .complete (outcome err) }
        else { s with inFlight := s.inFlight + 1, pc := .idle })
    | .setValue | .forward _ | .complete _ | .idle => none
  | .callback status =>
    match s.pc with
    | .idle =>
      if 0 < s.inFlight then
        some { s with inFlight := s.inFlight - 1, pc := .complete (outcome status) }
      else none
    | .setValue | .forward _ | .start _ | .complete _ => none

def system (op : Operation E) : System (State E) Action where
  initial s := s = {}
  step := step op

/-! ### Inversion -/

/-- What can be done with the data at once. -/
inductive Step (op : Operation E) (s : State E) : Action → State E → Prop
  | empty : s.pc = .setValue → op = .send (.bytes []) → Step op s .run
      { s with completions := s.completions ++ [.value ()], pc := .forward [] }
  | forward (buff : Bytes) : s.pc = .setValue → op ≠ .send (.bytes []) →
      Step op s .run { s with pc := .forward buff }
  | issue (call : Call E) : s.pc = .setValue ∨ (∃ buff, s.pc = .forward buff) →
      Step op s .run { s with pc := .start call }
  | complete (c : Completion Unit) : s.pc = .complete c →
      Step op s .run { s with completions := s.completions ++ [c], pc := .idle }
  | ended (call : Call E) (err : Int) : s.pc = .start call →
      isError err = true ∨ call.synchronous = true →
      Step op s (.start err) { s with calls := s.calls ++ [call], pc := .complete (outcome err) }
  | start (call : Call E) (err : Int) : s.pc = .start call → isError err = false →
      Step op s (.start err)
        { s with calls := s.calls ++ [call], inFlight := s.inFlight + 1, pc := .idle }
  | callback (status : Int) : s.pc = .idle → 0 < s.inFlight → Step op s (.callback status)
      { s with inFlight := s.inFlight - 1, pc := .complete (outcome status) }

variable {op : Operation E} {s s' : State E} {a : Action}

theorem runStep_cases (h : runStep op s = some s') : Step op s .run s' := by
  simp only [runStep] at h
  cases hp : s.pc with
  | start | idle => simp [hp] at h
  | forward buff => simp only [hp, Option.some.injEq] at h; subst h; exact .issue _ (Or.inr ⟨buff, hp⟩)
  | complete c => simp only [hp, Option.some.injEq] at h; subst h; exact .complete c hp
  | setValue =>
    simp only [hp] at h
    split at h
    next buff =>
      cases buff with
      | nil => cases h; exact .empty hp rfl
      | cons b bs => cases h; exact .forward _ hp (by simp)
    next => cases h; exact .forward _ hp (by simp)
    next => cases h; exact .forward _ hp (by simp)
    all_goals cases h; exact .issue _ (Or.inl hp)

theorem step_cases (h : step op s a = some s') : Step op s a s' := by
  cases a with
  | run => exact runStep_cases h
  | start err =>
    cases hp : s.pc with
    | setValue | forward | complete | idle => simp [step, hp] at h
    | start call =>
      simp only [step, hp, Option.some.injEq] at h
      split at h
      next hor => subst h; exact .ended call err hp (by simpa using hor)
      next hno =>
        subst h
        have hand : isError err = false ∧ call.synchronous = false := by simpa using hno
        exact .start call err hp hand.1
  | callback status =>
    cases hp : s.pc with
    | setValue | forward | start | complete => simp [step, hp] at h
    | idle =>
      simp only [step, hp] at h
      split at h
      · cases h; exact .callback status hp ‹_›
      · cases h

end UvExec.RequestOp
