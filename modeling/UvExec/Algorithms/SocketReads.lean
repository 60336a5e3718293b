import UvExec.Algorithms.ReadCompletion
import Mathlib.Logic.Function.Basic

/-! # Reading operations that share one socket

Any number of the reading operations, the elements of `A`, and a close
(algorithms/close_receiver.hpp) use one handle. Every start writes the handle's
`data` before libuv is asked, and the callbacks take their operation from it.
The code of one operation at a time is on the loop's thread. -/

namespace UvExec.SocketReads
open Lib

inductive Owner (A : Type) where
  | op (a : A)
  | close
  deriving DecidableEq, Repr

/- `callback` is the operation whose class's callbacks the last accepted start
registered, `reading` is whether libuv calls them. `running` is the operation
whose state the loop's thread is on and the one whose class's code it runs.
`closing` and `closed` tell that the close was started and has completed. The
last four fields are history: the data that libuv handed to callbacks, and what
became of them. -/
structure State (A κ α : Type) where
  ops : A → ReadOp.State κ α
  data : Option (Owner A) := none
  callback : Option A := none
  reading : Bool := false
  closing : Bool := false
  closed : Bool := false
  running : Option (A × A) := none
  handed : List (A × ℕ) := []
  delivered : List (A × ℕ) := []
  discarded : List (A × ℕ) := []
  failed : List (A × ℕ) := []

inductive Action (A α : Type) where
  | start (a : A) (err : Int)
  | loop
  | read (nrd : Int) (addr : Option α)
  | apply (a : A)
  | close
  | closed
  | requestStop (a : A)
  | callback (a : A)
  deriving DecidableEq, Repr

variable {A κ α : Type}

/-- The length of the data that a callback's arguments hand over: bytes of a
stream, or a datagram, which may be empty. `read_until` keeps an account of its
own in `ReadTotal`. -/
def datum (k : ReadOp.OpState κ α) (nrd : Int) (addr : Option α) : List ℕ :=
  match k with
  | .readSome => if 0 < nrd then [nrd.toNat] else []
  | .receive | .receiveFrom _ => if 0 ≤ nrd ∧ ¬(addr.isNone ∧ nrd = 0) then [nrd.toNat] else []
  | .readUntil _ _ => []

/-- The data that a completion reports. A stream's `set_value` with no bytes
reports its end. -/
def report (k : ReadOp.OpState κ α) : Completion ℕ → List ℕ
  | .value n =>
    match k with
    | .readSome => if n = 0 then [] else [n]
    | .receive | .receiveFrom _ => [n]
    | .readUntil _ _ => []
  | .error _ | .stopped => []

def delivers (k : ReadOp.OpState κ α) (t : ReadOp.State κ α) : List ℕ :=
  match t.pc with
  | .complete c => report k c
  | _ => []

/-- The data of a callback that finds the flag taken. -/
def discards (k : ReadOp.OpState κ α) (t : ReadOp.State κ α) : List ℕ :=
  match t.pc with
  | .testAndSet nrd addr => if t.op.used then datum k nrd addr else []
  | _ => []

/-- The data of a callback that has taken the flag and reports an error. -/
def fails (k : ReadOp.OpState κ α) (t : ReadOp.State κ α) : List ℕ :=
  match t.pc with
  | .readStop nrd addr =>
    match k.outcome t nrd addr with
    | .error _ => datum k nrd addr
    | .value _ | .stopped => []
  | _ => []

/-- Started with libuv's consent, and not completed. -/
def isActive (t : ReadOp.State κ α) : Bool :=
  match t.pc with
  | .start | .startError _ => false
  | _ => t.completions.isEmpty

namespace State

/-- The operation with the reading state that it shares with the others. -/
def shared (s : State A κ α) (a : A) : ReadOp.State κ α := { s.ops a with reading := s.reading }

variable [DecidableEq A]

def setOp (s : State A κ α) (a : A) (t : ReadOp.State κ α) : State A κ α :=
  { s with ops := Function.update s.ops a t, reading := t.reading }

end State

def isBusy (t : ReadOp.State κ α) : Bool :=
  match t.pc with
  | .start | .idle => false
  | _ => true

variable [DecidableEq A]

def step (k : A → ReadOp.OpState κ α) (s : State A κ α) : Action A α → Option (State A κ α)
  | .start a err =>
    -- libuv refuses to start while it reads, and on a handle that closes
    if s.running = none ∧ (s.reading = true ∨ s.closing = true → isError err = true) then
      (ReadOp.step (k a) (s.shared a) (.start err)).map fun t =>
        { s.setOp a t with
          data := some (.op a)
          callback := if isError err then s.callback else some a
          running := some (a, a) }
    else none
  | .loop =>
    match s.running with
    | some (a, c) =>
      (ReadOp.loopStep (k c) (s.shared a)).map fun t =>
        { s.setOp a t with
          running := if isBusy t then some (a, c) else none
          delivered := s.delivered ++ (delivers (k c) (s.shared a)).map fun n => (a, n)
          discarded := s.discarded ++ (discards (k c) (s.shared a)).map fun n => (a, n)
          failed := s.failed ++ (fails (k c) (s.shared a)).map fun n => (a, n) }
    | none => none
  | .read nrd addr =>
    match s.running, s.callback, s.data with
    -- `GetData` casts the pointer to the class of the registered callback
    | none, some c, some (.op a) =>
      (ReadOp.step (k c) (s.shared a) (.read nrd addr)).map fun t =>
        { s.setOp a t with
          running := some (a, c)
          handed := s.handed ++ (datum (k c) nrd addr).map fun n => (a, n) }
    | _, _, _ => none
  | .apply a =>
    if s.running = none then
      (ReadOp.step (k a) (s.shared a) .apply).map fun t =>
        { s.setOp a t with running := some (a, a) }
    else none
  | .close =>
    if s.running = none ∧ s.closing = false then
      some { s with data := some .close, closing := true, reading := false }
    else none
  | .closed =>
    if s.running = none ∧ s.closing = true ∧ s.closed = false ∧ s.data = some .close then
      some { s with closed := true }
    else none
  | .requestStop a =>
    some { s with ops := Function.update s.ops a { s.ops a with op := (s.ops a).op.requestStop } }
  | .callback a =>
    (s.ops a).op.callbackStep.map fun op =>
      { s with ops := Function.update s.ops a { s.ops a with op := op } }

def system (k : A → ReadOp.OpState κ α) : System (State A κ α) (Action A α) where
  initial s := ∃ c : A → κ, s = { ops := fun a => { conditionState := c a } }
  step := step k

/-! ### Inversion -/

inductive Step (k : A → ReadOp.OpState κ α) (s : State A κ α) : Action A α → State A κ α → Prop
  | start (a : A) (err : Int) (t : ReadOp.State κ α) : s.running = none →
      (s.reading = true ∨ s.closing = true → isError err = true) →
      ReadOp.step (k a) (s.shared a) (.start err) = some t → Step k s (.start a err)
        { s.setOp a t with
          data := some (.op a)
          callback := if isError err then s.callback else some a
          running := some (a, a) }
  | loop (a c : A) (t : ReadOp.State κ α) : s.running = some (a, c) →
      ReadOp.step (k c) (s.shared a) .loop = some t → Step k s .loop
        { s.setOp a t with
          running := if isBusy t then some (a, c) else none
          delivered := s.delivered ++ (delivers (k c) (s.shared a)).map fun n => (a, n)
          discarded := s.discarded ++ (discards (k c) (s.shared a)).map fun n => (a, n)
          failed := s.failed ++ (fails (k c) (s.shared a)).map fun n => (a, n) }
  | read (a c : A) (nrd : Int) (addr : Option α) (t : ReadOp.State κ α) : s.running = none →
      s.callback = some c → s.data = some (.op a) →
      ReadOp.step (k c) (s.shared a) (.read nrd addr) = some t → Step k s (.read nrd addr)
        { s.setOp a t with
          running := some (a, c)
          handed := s.handed ++ (datum (k c) nrd addr).map fun n => (a, n) }
  | apply (a : A) (t : ReadOp.State κ α) : s.running = none →
      ReadOp.step (k a) (s.shared a) .apply = some t →
      Step k s (.apply a) { s.setOp a t with running := some (a, a) }
  | close : s.running = none → s.closing = false →
      Step k s .close { s with data := some .close, closing := true, reading := false }
  | closed : s.running = none → s.closing = true → s.data = some .close →
      Step k s .closed { s with closed := true }
  | requestStop (a : A) : Step k s (.requestStop a)
      { s with ops := Function.update s.ops a { s.ops a with op := (s.ops a).op.requestStop } }
  | callback (a : A) (op : TStopOperation) : (s.ops a).op.callbackStep = some op →
      Step k s (.callback a) { s with ops := Function.update s.ops a { s.ops a with op := op } }

theorem step_cases {k : A → ReadOp.OpState κ α} {s s' : State A κ α} {act : Action A α}
    (h : step k s act = some s') : Step k s act s' := by
  cases act with
  | start a err =>
    simp only [step] at h
    split at h
    next hc =>
      obtain ⟨t, ht, rfl⟩ := Option.map_eq_some_iff.mp h
      exact .start a err t hc.1 hc.2 ht
    next => cases h
  | loop =>
    simp only [step] at h
    split at h
    next a c hr =>
      obtain ⟨t, ht, rfl⟩ := Option.map_eq_some_iff.mp h
      exact .loop a c t hr ht
    next => cases h
  | read nrd addr =>
    simp only [step] at h
    split at h
    next c a hr hc hd =>
      obtain ⟨t, ht, rfl⟩ := Option.map_eq_some_iff.mp h
      exact .read a c nrd addr t hr hc hd ht
    next => cases h
  | apply a =>
    simp only [step] at h
    split at h
    next hr =>
      obtain ⟨t, ht, rfl⟩ := Option.map_eq_some_iff.mp h
      exact .apply a t hr ht
    next => cases h
  | close =>
    simp only [step] at h
    split at h
    next hc => cases h; exact .close hc.1 hc.2
    next => cases h
  | closed =>
    simp only [step] at h
    split at h
    next hc => cases h; exact .closed hc.1 hc.2.1 hc.2.2.2
    next => cases h
  | requestStop a => cases h; exact .requestStop a
  | callback a =>
    obtain ⟨op, hop, rfl⟩ := Option.map_eq_some_iff.mp h
    exact .callback a op hop

end UvExec.SocketReads
