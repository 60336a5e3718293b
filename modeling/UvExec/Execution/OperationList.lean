import UvExec.Lib.Chain
import UvExec.Lib.Transition

/-! # `TLoop::TOperationList`, `Schedule` and `ApplyOperations` (execution/loop.cpp)

Operations are the elements of `O`, by their addresses, and the threads that
call `Schedule` are the elements of `T`; what an `Apply` schedules is scheduled
by the element that stands for the loop's thread. Every access to `Head` or to
a `Next` is a step. -/

namespace UvExec.OperationList
open Lib

/-- Inside `Schedule`: the load of `Head` in `PushBack`, the write of `Next`, the
compare-exchange, and `Fire`. -/
inductive PushPc (O : Type) where
  | idle
  | load (op : O)
  | write (op : O) (curTop : Option O)
  | compareExchange (op : O) (curTop : Option O)
  | fire
  deriving DecidableEq, Repr

/-- Inside `ApplyOperations`: the exchange in `Grab`, its walk, and the loop over
the batch, with `next` read before `Apply` begins. -/
inductive ApplyPc (O : Type) where
  | idle
  | grab
  | walk (cur newTop : Option O)
  | loop (op : Option O)
  | apply (op : O) (next : Option O)
  deriving DecidableEq, Repr

/- The last four fields are history: the calls of `Schedule` and the successful
compare-exchanges in their order, how many of the latter the last exchange had
seen, and the calls of `Apply` in their order. -/
structure State (T O : Type) where
  next : O → Option O
  head : Option O
  push : T → PushPc O
  apply : ApplyPc O
  asyncSignal : Bool
  scheduled : List O
  pushed : List O
  taken : ℕ
  applied : List O

inductive Action (T O : Type) where
  | schedule (t : T) (op : O)
  | push (t : T)
  | failSpuriously (t : T)
  | deliver
  | loop
  | reuse (op : O) (next : Option O)
  deriving DecidableEq, Repr

section
variable {T O : Type} [DecidableEq T] [DecidableEq O]

def initial : State T O where
  next _ := none
  head := none
  push _ := .idle
  apply := .idle
  asyncSignal := false
  scheduled := []
  pushed := []
  taken := 0
  applied := []

/-- Scheduled and not applied since: the operation belongs to the loop. -/
def State.pending (s : State T O) (op : O) : Bool := s.applied.count op < s.scheduled.count op

abbrev State.setPush (s : State T O) (t : T) (p : PushPc O) : State T O :=
  { s with push := Function.update s.push t p }

abbrev State.setNext (s : State T O) (op : O) (next : Option O) : State T O :=
  { s with next := Function.update s.next op next }

/-- The next step of thread `t` in `Schedule`; a failed compare-exchange loads
what it found. -/
def pushStep (s : State T O) (t : T) : Option (State T O) :=
  match s.push t with
  | .idle => none
  | .load op => some (s.setPush t (.write op s.head))
  | .write op curTop => some (s.setNext op curTop |>.setPush t (.compareExchange op curTop))
  | .compareExchange op curTop =>
    if s.head = curTop then
      some ({ s with head := some op, pushed := s.pushed ++ [op] }.setPush t .fire)
    else some (s.setPush t (.write op s.head))
  | .fire => some ({ s with asyncSignal := true }.setPush t .idle)

def applyStep (s : State T O) : Option (State T O) :=
  match s.apply with
  | .idle => none
  | .grab =>
    some { s with head := none, apply := .walk s.head none, taken := s.pushed.length }
  | .walk (some cur) newTop =>
    some ({ s with apply := .walk (s.next cur) (some cur) }.setNext cur newTop)
  | .walk none newTop => some { s with apply := .loop newTop }
  | .loop (some op) => some { s with apply := .apply op (s.next op), applied := s.applied ++ [op] }
  | .loop none => some { s with apply := .idle }
  | .apply _ next => some { s with apply := .loop next }

/-- A caller does not schedule an operation that is pending. Once `Apply` has
begun the storage is the caller's, `reuse` stands for any write to it. -/
def step (s : State T O) : Action T O → Option (State T O)
  | .schedule t op =>
    if s.push t = .idle ∧ s.pending op = false then
      some ({ s with scheduled := s.scheduled ++ [op] }.setPush t (.load op))
    else none
  | .push t => pushStep s t
  | .failSpuriously t =>
    match s.push t with
    | .compareExchange op _ => some (s.setPush t (.write op s.head))
    | _ => none
  | .deliver =>
    if s.apply = .idle ∧ s.asyncSignal = true then
      some { s with asyncSignal := false, apply := .grab }
    else none
  | .loop => applyStep s
  | .reuse op next => if s.pending op = false then some (s.setNext op next) else none

def system : System (State T O) (Action T O) where
  initial s := s = initial
  step := step

end

/-! ### Inversion -/

section
variable {T O : Type} [DecidableEq T] [DecidableEq O]

inductive Step (s : State T O) : Action T O → State T O → Prop
  | schedule (t : T) (op : O) : s.push t = .idle → s.pending op = false →
      Step s (.schedule t op)
        ({ s with scheduled := s.scheduled ++ [op] }.setPush t (.load op))
  | load (t : T) (op : O) : s.push t = .load op → Step s (.push t) (s.setPush t (.write op s.head))
  | write (t : T) (op : O) (curTop : Option O) : s.push t = .write op curTop → Step s (.push t)
      (s.setNext op curTop |>.setPush t (.compareExchange op curTop))
  | exchanged (t : T) (op : O) : s.push t = .compareExchange op s.head → Step s (.push t)
      ({ s with head := some op, pushed := s.pushed ++ [op] }.setPush t .fire)
  | failed (t : T) (op : O) (curTop : Option O) (a : Action T O) :
      s.push t = .compareExchange op curTop → Step s a (s.setPush t (.write op s.head))
  | fire (t : T) : s.push t = .fire → Step s (.push t)
      ({ s with asyncSignal := true }.setPush t .idle)
  | deliver : s.apply = .idle → s.asyncSignal = true → Step s .deliver
      { s with asyncSignal := false, apply := .grab }
  | grab : s.apply = .grab → Step s .loop
      { s with head := none, apply := .walk s.head none, taken := s.pushed.length }
  | walk (cur : O) (newTop : Option O) : s.apply = .walk (some cur) newTop → Step s .loop
      ({ s with apply := .walk (s.next cur) (some cur) }.setNext cur newTop)
  | walked (newTop : Option O) : s.apply = .walk none newTop → Step s .loop
      { s with apply := .loop newTop }
  | apply (op : O) : s.apply = .loop (some op) → Step s .loop
      { s with apply := .apply op (s.next op), applied := s.applied ++ [op] }
  | done : s.apply = .loop none → Step s .loop { s with apply := .idle }
  | applied (op : O) (next : Option O) : s.apply = .apply op next → Step s .loop
      { s with apply := .loop next }
  | reuse (op : O) (next : Option O) : s.pending op = false → Step s (.reuse op next)
      (s.setNext op next)

theorem pushStep_cases {s s' : State T O} {t : T} (h : pushStep s t = some s') :
    Step s (.push t) s' := by
  simp only [pushStep] at h
  split at h
  · cases h
  · cases h; exact .load t _ ‹_›
  · cases h; exact .write t _ _ ‹_›
  · split at h
    next op curTop hp heq =>
      cases h
      exact .exchanged t op (heq ▸ hp)
    next => cases h; exact .failed t _ _ _ ‹_›
  · cases h; exact .fire t ‹_›

theorem applyStep_cases {s s' : State T O} (h : applyStep s = some s') : Step s .loop s' := by
  simp only [applyStep] at h
  split at h
  · cases h
  · cases h; exact .grab ‹_›
  · cases h; exact .walk _ _ ‹_›
  · cases h; exact .walked _ ‹_›
  · cases h; exact .apply _ ‹_›
  · cases h; exact .done ‹_›
  · cases h; exact .applied _ _ ‹_›

theorem step_cases {s s' : State T O} {a : Action T O} (h : step s a = some s') : Step s a s' := by
  cases a with
  | schedule t op =>
    simp only [step] at h
    split at h
    next hc => cases h; exact .schedule t op hc.1 hc.2
    next => cases h
  | push t => exact pushStep_cases h
  | failSpuriously t =>
    simp only [step] at h
    split at h
    · cases h; exact .failed t _ _ _ ‹_›
    · cases h
  | deliver =>
    simp only [step] at h
    split at h
    next hc => cases h; exact .deliver hc.1 hc.2
    next => cases h
  | loop => exact applyStep_cases h
  | reuse op next =>
    simp only [step] at h
    split at h
    · cases h; exact .reuse op next ‹_›
    · cases h

end
end UvExec.OperationList
