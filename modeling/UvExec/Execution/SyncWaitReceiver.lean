import UvExec.Execution.Receiver
import Mathlib.Data.Nat.Notation

/-! # The receiver of `sync_wait` (execution/sync_wait_receiver.hpp) -/

namespace UvExec

/-- The completion a sender delivers. `value true` stands for `set_value` with
arguments whose decay-copy into `Destination` throws. -/
inductive Signal where
  | value (copyThrows : Bool)
  | error
  | stopped
  deriving DecidableEq, Repr

/-- `TSyncWaitReceiver::TState` by its index: `std::monostate`, the tuple of
values, `set_stopped_t` and `std::exception_ptr`. -/
inductive Destination where
  | monostate
  | values
  | stopped
  | exception
  deriving DecidableEq, Repr

inductive Outcome where
  | values
  | nullopt
  | rethrow
  | badVariantAccess
  deriving DecidableEq, Repr

/-- The `emplace` of `set_value`, `set_error` and `set_stopped`; a throwing copy
reaches `set_error(std::current_exception())`. -/
def emplaceResult : Signal → Destination
  | .value false => .values
  | .value true => .exception
  | .error => .exception
  | .stopped => .stopped

/-- `set_value` calls `set_error`, which invokes `Wakeup`, and then invokes
`Wakeup` again on the path of a throwing copy. -/
def wakeups : Signal → ℕ
  | .value true => 2
  | _ => 1

def unwrapSyncWaitReceiverState : Destination → Outcome
  | .exception => .rethrow
  | .stopped => .nullopt
  | .values => .values
  | .monostate => .badVariantAccess

theorem emplaceResult_ne_monostate (sig : Signal) : emplaceResult sig ≠ .monostate := by
  rcases sig with (_ | _) | _ | _ <;> decide

theorem wakeups_pos (sig : Signal) : 0 < wakeups sig := by
  rcases sig with (_ | _) | _ | _ <;> decide

theorem unwrap_ne_bad (d : Destination) :
    unwrapSyncWaitReceiverState d = .badVariantAccess ↔ d = .monostate := by
  cases d <;> decide

/-! ### The receiver with its data

`T` is the decayed tuple of values and `X` the type of what is thrown. -/

inductive ExceptionPtr (X : Type) where
  | object (x : X)
  | systemError (err : Int)
  deriving DecidableEq, Repr

/-- `TState`; an `emplace` that throws leaves it without a value. -/
inductive TState (T X : Type) where
  | monostate
  | values (v : T)
  | stopped
  | exception (p : ExceptionPtr X)
  | valueless
  deriving DecidableEq, Repr

/-- What `UnwrapSyncWaitReceiverState` returns or throws. -/
inductive Unwrapped (T X : Type) where
  | values (v : T)
  | nullopt
  | thrown (p : ExceptionPtr X)
  | badVariantAccess
  deriving DecidableEq, Repr

def TState.unwrap {T X : Type} : TState T X → Unwrapped T X
  | .exception p => .thrown p
  | .stopped => .nullopt
  | .values v => .values v
  | .monostate | .valueless => .badVariantAccess

namespace TSyncWaitReceiver
variable {T X : Type}

inductive Statement (T X : Type) where
  | emplace (state : TState T X)
  | wakeup
  deriving DecidableEq, Repr

def exceptionPtr : Error X → ExceptionPtr X
  | .exception x => .object x
  | .errc err => .systemError err
  | .other x => .object x

def setError (err : Error X) : List (Statement T X) :=
  [.emplace (.exception (exceptionPtr err)), .wakeup]

/-- The argument is the tuple that the decay-copies make, or what they throw. -/
def setValue : Except X T → List (Statement T X)
  | .ok v => [.emplace (.values v), .wakeup]
  | .error x => .emplace .valueless :: setError (.exception x) ++ [.wakeup]

def setStopped : List (Statement T X) := [.emplace .stopped, .wakeup]

def complete : Disposition (Except X T) X → List (Statement T X)
  | .value copied => setValue copied
  | .error err => setError err
  | .stopped => setStopped

/-- `Destination` after the statements. -/
def written : List (Statement T X) → TState T X → TState T X
  | [], d => d
  | .emplace d :: ss, _ => written ss d
  | .wakeup :: ss, d => written ss d

def invocations : List (Statement T X) → ℕ
  | [] => 0
  | .emplace _ :: ss => invocations ss
  | .wakeup :: ss => invocations ss + 1

end TSyncWaitReceiver

/-! ### The receiver without its data -/

section
variable {T X : Type}

def signal : Disposition (Except X T) X → Signal
  | .value (.ok _) => .value false
  | .value (.error _) => .value true
  | .error _ => .error
  | .stopped => .stopped

/-- The index of the alternative, where the variant has one. -/
def TState.index : TState T X → Destination
  | .monostate | .valueless => .monostate
  | .values _ => .values
  | .stopped => .stopped
  | .exception _ => .exception

def Unwrapped.outcome : Unwrapped T X → Outcome
  | .values _ => .values
  | .nullopt => .nullopt
  | .thrown _ => .rethrow
  | .badVariantAccess => .badVariantAccess

theorem unwrap_outcome (d : TState T X) :
    d.unwrap.outcome = unwrapSyncWaitReceiverState d.index := by
  cases d <;> rfl

theorem written_index (c : Disposition (Except X T) X) (d : TState T X) :
    (TSyncWaitReceiver.written (TSyncWaitReceiver.complete c) d).index = emplaceResult (signal c) := by
  rcases c with (x | v) | err | _ <;> rfl

theorem invocations_complete (c : Disposition (Except X T) X) :
    TSyncWaitReceiver.invocations (TSyncWaitReceiver.complete c) = wakeups (signal c) := by
  rcases c with (x | v) | err | _ <;> rfl

end

end UvExec
