import UvExec.Execution.StopOperation

/-! # A stop operation whose stop is requested before `Setup`

The constructor of the stop callback runs it to its end, so what the stop
operation goes through does not depend on any other thread. -/

namespace UvExec
open Lib

/-- How far it has come: constructed, with the callback inside of its own
constructor, after that, with `Setup` over, taken off the loop's list, and with
the callback object destroyed. -/
inductive InlineStop where
  | constructed
  | running (p : StopCallbackPc)
  | executed
  | engaged
  | applied
  | reset

namespace InlineStop

def op : InlineStop → TStopOperation
  | .constructed => { token := { requested := true } }
  | .running .testAndSet => { token := { requested := true, callback := .running true .testAndSet } }
  | .running .schedule =>
    { token := { requested := true, callback := .running true .schedule }
      used := true, taker := some .stop }
  | .running .exit =>
    { token := { requested := true, callback := .running true .exit }
      used := true, queued := 1, pushes := 1, taker := some .stop }
  | .executed =>
    { token := { requested := true, callback := .executed }
      used := true, queued := 1, pushes := 1, taker := some .stop }
  | .engaged =>
    { token := { requested := true, callback := .executed }
      used := true, engaged := true, queued := 1, pushes := 1, taker := some .stop }
  | .applied =>
    { token := { requested := true, callback := .executed }
      used := true, engaged := true, pushes := 1, taker := some .stop }
  | .reset => { token := { requested := true }, used := true, pushes := 1, taker := some .stop }

variable {i : InlineStop} {op : TStopOperation}

theorem requestStop_op (i : InlineStop) : i.op.requestStop = i.op := by
  cases i with
  | running p => cases p <;> rfl
  | _ => rfl

theorem setup_op : constructed.op.setup = (running .testAndSet).op := rfl

theorem callbackStep_op (h : i.op.callbackStep = some op) :
    (∃ p, i = .running p) ∧ (op = executed.op ∨ ∃ p, op = (running p).op) := by
  cases i with
  | running p =>
    refine ⟨⟨p, rfl⟩, ?_⟩
    cases p with
    | testAndSet =>
      cases h
      exact Or.inr ⟨.schedule, rfl⟩
    | schedule =>
      cases h
      exact Or.inr ⟨.exit, rfl⟩
    | exit =>
      cases h
      exact Or.inl rfl
  | _ => cases h

theorem executed_of_setupDone (h : ∀ q, i.op.token.callback ≠ .running true q)
    (hi : i = .executed ∨ ∃ p, i = .running p) : i = .executed := by
  rcases hi with rfl | ⟨p, rfl⟩
  · rfl
  · cases p <;> exact (h _ rfl).elim

theorem resetCallback_op : applied.op.resetCallback = some reset.op := rfl

end InlineStop
end UvExec
