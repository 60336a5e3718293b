import Mathlib.Data.Option.Basic

/-! # A stop token and the callback registered with it

The body of the callback is run by another component, `π` are its program
points. A request invokes a registered callback on the requesting thread, a
callback constructed after the request is invoked by its constructor, and the
destructor waits for an invocation that is still running. -/

namespace UvExec.Lib

/-- Where the callback object stands; `inline` tells that its own constructor
runs the body. -/
inductive Registration (π : Type) where
  | absent
  | registered
  | running (inline : Bool) (point : π)
  | executed
  deriving DecidableEq, Repr

structure StopToken (π : Type) where
  requested : Bool := false
  callback : Registration π := .absent
  deriving DecidableEq, Repr

namespace StopToken
variable {π : Type}

def request (entry : π) (t : StopToken π) : StopToken π where
  requested := true
  callback :=
    match t.callback with
    | .registered => .running false entry
    | c => c

def construct (entry : π) (t : StopToken π) : StopToken π :=
  { t with callback := if t.requested then .running true entry else .registered }

/-- The destructor, not enabled while the callback is running. -/
def destroy (t : StopToken π) : Option (StopToken π) :=
  match t.callback with
  | .running _ _ => none
  | _ => some { t with callback := .absent }

theorem request_cases (entry : π) (t : StopToken π) :
    (t.callback = .registered ∧ (t.request entry).callback = .running false entry) ∨
    (t.callback ≠ .registered ∧ (t.request entry).callback = t.callback) := by
  cases h : t.callback <;> simp [request, h]

theorem destroy_eq_some {t t' : StopToken π} (h : t.destroy = some t') :
    (∀ i p, t.callback ≠ .running i p) ∧ t' = { t with callback := .absent } := by
  simp only [destroy] at h
  split at h
  · cases h
  next hc => exact ⟨hc, (Option.some.inj h).symm⟩

end StopToken
end UvExec.Lib
