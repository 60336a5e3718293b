import UvExec.Lib.Transition
import UvExec.Execution.Receiver
import Mathlib.Data.Nat.Notation

/-! # `TScheduleOpState` (algorithms/schedule_op_state.hpp)

The operation has no stop callback: `Apply` asks the token. -/

namespace UvExec.ScheduleOp
open Lib

/-- Before `start`, on the loop's list, in `Apply` with the completion chosen,
and after it. -/
inductive Pc where
  | init
  | scheduled
  | complete (c : Completion Unit)
  | idle
  deriving DecidableEq, Repr

structure State where
  requested : Bool := false
  pc : Pc := .init
  completions : List (Completion Unit) := []
  deriving DecidableEq, Repr

inductive Action where
  | start
  | apply
  | loop
  | requestStop
  deriving DecidableEq, Repr

def step (s : State) : Action → Option State
  | .start => if s.pc = .init then some { s with pc := .scheduled } else none
  | .apply =>
    if s.pc = .scheduled then
      some { s with pc := .complete (if s.requested then .stopped else .value ()) }
    else none
  | .loop =>
    match s.pc with
    | .complete c => some { s with completions := s.completions ++ [c], pc := .idle }
    | .init | .scheduled | .idle => none
  | .requestStop => some { s with requested := true }

def system : System State Action where
  initial s := s = {}
  step := step

/-! ### Inversion -/

inductive Step (s : State) : Action → State → Prop
  | start : s.pc = .init → Step s .start { s with pc := .scheduled }
  | apply : s.pc = .scheduled →
      Step s .apply { s with pc := .complete (if s.requested then .stopped else .value ()) }
  | complete (c : Completion Unit) : s.pc = .complete c →
      Step s .loop { s with completions := s.completions ++ [c], pc := .idle }
  | requestStop : Step s .requestStop { s with requested := true }

theorem step_cases {s s' : State} {a : Action} (h : step s a = some s') : Step s a s' := by
  cases a with
  | start =>
    simp only [step] at h
    split at h
    · cases h; exact .start ‹_›
    · cases h
  | apply =>
    simp only [step] at h
    split at h
    · cases h; exact .apply ‹_›
    · cases h
  | loop =>
    simp only [step] at h
    split at h
    · cases h; exact .complete _ ‹_›
    all_goals cases h
  | requestStop => cases h; exact .requestStop

end UvExec.ScheduleOp
