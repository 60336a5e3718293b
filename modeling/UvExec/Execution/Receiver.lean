/-! # Result codes and receivers (uv_util/errors.cpp)

What the operation states share: libuv's result codes, the signals that complete
a receiver, and where an operation keeps its receiver. -/

namespace UvExec

/-- `NUvUtil::IsError`. -/
def isError (err : Int) : Bool := err < 0

/-- `UV_EOF`. -/
def uvEof : Int := -4095

inductive Completion (β : Type) where
  | value (b : β)
  | error (err : Int)
  | stopped
  deriving DecidableEq, Repr

/- `adaptor` is the receiver that is connected to the predecessor. -/
inductive ReceiverSlot where
  | adaptor
  | member
  | moved
  deriving DecidableEq, Repr

/-- What `set_error` is called with: an `EErrc`, an `exception_ptr`, or the error
of a sender that comes from outside. -/
inductive Error (E : Type) where
  | errc (err : Int)
  | exception (x : E)
  | other (e : E)
  deriving DecidableEq, Repr

inductive Disposition (β E : Type) where
  | value (b : β)
  | error (e : Error E)
  | stopped
  deriving DecidableEq, Repr

def Disposition.failure {α β E : Type} : Disposition α E → Option (Disposition β E)
  | .value _ => none
  | .error e => some (.error e)
  | .stopped => some .stopped

theorem Disposition.failure_eq_none {α β E : Type} {p : Disposition α E} :
    p.failure (β := β) = none ↔ ∃ b, p = .value b := by
  cases p <;> simp [Disposition.failure]

end UvExec
