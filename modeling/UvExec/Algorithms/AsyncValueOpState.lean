import UvExec.Execution.Receiver
import UvExec.Lib.Slots
import UvExec.Lib.StopToken
import UvExec.Lib.Transition

/-! # async_value (algorithms/async_value_op_state.hpp)

The value is constructed in the operation state, its stop callback may run on
another thread at any point between two steps, and the body's completion waits
for `uvexec::drop` and for the two resets of `TDestroyer`. -/

namespace UvExec.AsyncValue
open Lib

/-- `IsValueStopSource`, and `std::is_nothrow_invocable_v` of the user's function. -/
structure Kind where
  stopSource : Bool
  nothrowFn : Bool
  deriving DecidableEq, Repr

/- `construct`, `fn` and `connectBody` are the exceptions, if any, of the value's
constructor, of the user's function and of connecting its sender. -/
structure Outcomes (β E : Type) where
  predecessor : Disposition Unit E
  construct : Option E
  fn : Option E
  connectBody : Option E
  body : Disposition β E
  deriving DecidableEq, Repr

/-- The alternatives of `OpState`. -/
inductive Slot where
  | inner
  | out
  deriving DecidableEq, Repr

/-- `TStopCallback`: the call of `request_stop`, from the access to `Value` to its
return, and the way out. -/
inductive CallbackPc where
  | requestStop
  | exit
  deriving DecidableEq, Repr

inductive Pc (β E : Type) where
  | predecessor
  | emplaceValue
  | emplaceCallback
  | callbackEmplaced
  | emplaceBody
  | invokeFn
  | connectBody
  | caught (x : E)
  | body
  | dropping (fin : Disposition β E)
  | resetValue (fin : Disposition β E)
  | resetCallback (fin : Disposition β E)
  | complete (slot : Slot) (fin : Disposition β E)
  | done
  | terminated
  | swallowed
  | destroyValue
  | destroyed
  deriving DecidableEq, Repr

inductive Event (β E : Type) where
  | constructed
  | dropStarted
  | dropped
  | valueReset
  | callbackReset
  | completed (fin : Disposition β E)
  deriving DecidableEq, Repr

/- `value` tells that `Value` is engaged. `trace` is history, up to the
completion. -/
structure State (β E : Type) where
  pc : Pc β E := .predecessor
  slots : Slots Slot := .single .inner
  value : Bool := false
  token : StopToken CallbackPc := {}
  trace : List (Event β E) := []

/- `run` is the operation's own code. `destroy` ends the operation state once its
receiver has been completed. -/
inductive Action where
  | run
  | predecessor
  | body
  | dropped
  | destroy
  | requestStop
  | callback
  deriving DecidableEq, Repr

variable {β E : Type}

namespace State

abbrev goto (s : State β E) (slots : Slots Slot) (pc : Pc β E) : State β E :=
  { s with slots := slots, pc := pc }

abbrev emit (s : State β E) (e : Event β E) (pc : Pc β E) : State β E :=
  { s with trace := s.trace ++ [e], pc := pc }

end State

def Kind.entry (k : Kind) : CallbackPc := if k.stopSource then .requestStop else .exit

def runStep (k : Kind) (o : Outcomes β E) (s : State β E) : Option (State β E) :=
  match s.pc with
  | .emplaceValue =>
    match o.construct with
    -- `set_value` is noexcept, and its try block comes later
    | some _ => some { s with pc := .terminated }
    | none => some (State.emit { s with value := true } .constructed .emplaceCallback)
  | .emplaceCallback =>
    some { s with slots := s.slots.access .inner, token := s.token.construct k.entry, pc := .callbackEmplaced }
  | .callbackEmplaced =>
    match s.token.callback with
    | .running true _ => none
    | _ => some { s with pc := .emplaceBody }
  | .emplaceBody => some (s.goto (s.slots.destroy .inner) .invokeFn)
  | .invokeFn =>
    match (if k.nothrowFn then none else o.fn) with
    | some x => some { s with pc := .caught x }
    | none => some { s with pc := .connectBody }
  | .connectBody =>
    match o.connectBody with
    | some x => some { s with pc := .caught x }
    | none => some (s.goto (s.slots.move .inner .out) .body)
  | .caught x =>
    some { s with pc := if k.nothrowFn then .swallowed else .complete .inner (.error (.exception x)) }
  | .resetValue fin => some (State.emit { s with value := false } .valueReset (.resetCallback fin))
  | .resetCallback fin =>
    s.token.destroy.map fun token => State.emit { s with token := token } .callbackReset (.complete .out fin)
  | .complete slot fin =>
    some (State.emit { s with slots := s.slots.access slot } (.completed fin) .done)
  | .destroyValue => some { s with value := false, pc := .destroyed }
  | .predecessor | .body | .dropping _ | .done | .terminated | .swallowed | .destroyed => none

def callbackStep (s : State β E) : Option (State β E) :=
  match s.token.callback with
  | .running i .requestStop => some { s with token := { s.token with callback := .running i .exit } }
  | .running _ .exit => some { s with token := { s.token with callback := .executed } }
  | .absent | .registered | .executed => none

def step (k : Kind) (o : Outcomes β E) (s : State β E) : Action → Option (State β E)
  | .run => runStep k o s
  | .predecessor =>
    if s.pc matches .predecessor then
      some (s.goto (s.slots.access .inner) (match o.predecessor.failure with
        | none => .emplaceValue
        | some fin => .complete .inner fin))
    else none
  | .body => if s.pc matches .body then some (s.emit .dropStarted (.dropping o.body)) else none
  | .dropped =>
    match s.pc with
    | .dropping fin => some (s.emit .dropped (.resetValue fin))
    | _ => none
  -- the members go in the reverse order of their declaration
  | .destroy =>
    if s.pc matches .done then
      s.token.destroy.map fun token => { s with token := token, pc := .destroyValue }
    else none
  | .requestStop => some { s with token := s.token.request k.entry }
  | .callback => callbackStep s

def system (k : Kind) (o : Outcomes β E) : System (State β E) Action where
  initial s := s = {}
  step := step k o

/-! ### Inversion -/

inductive Step (k : Kind) (o : Outcomes β E) (s : State β E) : Action → State β E → Prop
  | constructThrew (x : E) : s.pc = .emplaceValue → o.construct = some x →
      Step k o s .run { s with pc := .terminated }
  | emplaceValue : s.pc = .emplaceValue → o.construct = none →
      Step k o s .run (State.emit { s with value := true } .constructed .emplaceCallback)
  | emplaceCallback : s.pc = .emplaceCallback → Step k o s .run
      { s with slots := s.slots.access .inner, token := s.token.construct k.entry, pc := .callbackEmplaced }
  | callbackEmplaced : s.pc = .callbackEmplaced → (∀ p, s.token.callback ≠ .running true p) →
      Step k o s .run { s with pc := .emplaceBody }
  | emplaceBody : s.pc = .emplaceBody →
      Step k o s .run (s.goto (s.slots.destroy .inner) .invokeFn)
  | fnThrew (x : E) : s.pc = .invokeFn → k.nothrowFn = false → o.fn = some x →
      Step k o s .run { s with pc := .caught x }
  | invokeFn : s.pc = .invokeFn → k.nothrowFn = true ∨ o.fn = none →
      Step k o s .run { s with pc := .connectBody }
  | connectBodyThrew (x : E) : s.pc = .connectBody → o.connectBody = some x →
      Step k o s .run { s with pc := .caught x }
  | connectBody : s.pc = .connectBody → o.connectBody = none →
      Step k o s .run (s.goto (s.slots.move .inner .out) .body)
  | swallowed (x : E) : s.pc = .caught x → k.nothrowFn = true →
      Step k o s .run { s with pc := .swallowed }
  | caught (x : E) : s.pc = .caught x → k.nothrowFn = false →
      Step k o s .run { s with pc := .complete .inner (.error (.exception x)) }
  | resetValue (fin : Disposition β E) : s.pc = .resetValue fin → Step k o s .run
      (State.emit { s with value := false } .valueReset (.resetCallback fin))
  | resetCallback (fin : Disposition β E) : s.pc = .resetCallback fin →
      (∀ i p, s.token.callback ≠ .running i p) → Step k o s .run
        (State.emit { s with token := { s.token with callback := .absent } } .callbackReset
          (.complete .out fin))
  | complete (slot : Slot) (fin : Disposition β E) : s.pc = .complete slot fin → Step k o s .run
      (State.emit { s with slots := s.slots.access slot } (.completed fin) .done)
  | destroyValue : s.pc = .destroyValue →
      Step k o s .run { s with value := false, pc := .destroyed }
  | predecessor : s.pc = .predecessor → o.predecessor.failure (β := β) = none →
      Step k o s .predecessor (s.goto (s.slots.access .inner) .emplaceValue)
  | predecessorFailed (fin : Disposition β E) : s.pc = .predecessor →
      o.predecessor.failure = some fin →
      Step k o s .predecessor (s.goto (s.slots.access .inner) (.complete .inner fin))
  | body : s.pc = .body → Step k o s .body (s.emit .dropStarted (.dropping o.body))
  | dropped (fin : Disposition β E) : s.pc = .dropping fin →
      Step k o s .dropped (s.emit .dropped (.resetValue fin))
  | destroy : s.pc = .done → (∀ i p, s.token.callback ≠ .running i p) → Step k o s .destroy
      { s with token := { s.token with callback := .absent }, pc := .destroyValue }
  | requestStop : Step k o s .requestStop { s with token := s.token.request k.entry }
  | callRequestStop (i : Bool) : s.token.callback = .running i .requestStop →
      Step k o s .callback { s with token := { s.token with callback := .running i .exit } }
  | callbackExit (i : Bool) : s.token.callback = .running i .exit →
      Step k o s .callback { s with token := { s.token with callback := .executed } }

variable {k : Kind} {o : Outcomes β E} {s s' : State β E}

theorem runStep_cases (h : runStep k o s = some s') : Step k o s .run s' := by
  simp only [runStep] at h
  cases hp : s.pc with
  | predecessor | body | dropping | done | terminated | swallowed | destroyed => simp [hp] at h
  | emplaceValue =>
    simp only [hp] at h
    split at h
    next x hx => cases h; exact .constructThrew x hp hx
    next hx => cases h; exact .emplaceValue hp hx
  | emplaceCallback => simp only [hp, Option.some.injEq] at h; subst h; exact .emplaceCallback hp
  | callbackEmplaced =>
    simp only [hp] at h
    split at h
    · cases h
    next hrun => cases h; exact .callbackEmplaced hp hrun
  | emplaceBody => simp only [hp, Option.some.injEq] at h; subst h; exact .emplaceBody hp
  | invokeFn =>
    simp only [hp] at h
    cases hk : k.nothrowFn with
    | true =>
      simp only [hk, if_true, Option.some.injEq] at h
      subst h
      exact .invokeFn hp (Or.inl hk)
    | false =>
      simp only [hk, Bool.false_eq_true, if_false] at h
      split at h
      next x hx => cases h; exact .fnThrew x hp hk hx
      next hx => cases h; exact .invokeFn hp (Or.inr hx)
  | connectBody =>
    simp only [hp] at h
    split at h
    next x hx => cases h; exact .connectBodyThrew x hp hx
    next hx => cases h; exact .connectBody hp hx
  | caught x =>
    simp only [hp, Option.some.injEq] at h
    subst h
    cases hk : k.nothrowFn with
    | true => exact .swallowed x hp hk
    | false => exact .caught x hp hk
  | resetValue fin => simp only [hp, Option.some.injEq] at h; subst h; exact .resetValue fin hp
  | resetCallback fin =>
    simp only [hp, Option.map_eq_some_iff] at h
    obtain ⟨token, ht, rfl⟩ := h
    obtain ⟨hrun, rfl⟩ := StopToken.destroy_eq_some ht
    exact .resetCallback fin hp hrun
  | complete slot fin =>
    simp only [hp, Option.some.injEq] at h
    subst h
    exact .complete slot fin hp
  | destroyValue => simp only [hp, Option.some.injEq] at h; subst h; exact .destroyValue hp

theorem step_cases {a : Action} (h : step k o s a = some s') : Step k o s a s' := by
  cases a with
  | run => exact runStep_cases h
  | predecessor =>
    cases hp : s.pc <;> simp only [step, hp, if_true, if_false, Bool.false_eq_true, reduceCtorEq,
      Option.some.injEq] at h
    subst h
    split
    next hn => exact .predecessor hp hn
    next fin hf => exact .predecessorFailed fin hp hf
  | body =>
    cases hp : s.pc <;> simp only [step, hp, if_true, if_false, Bool.false_eq_true, reduceCtorEq,
      Option.some.injEq] at h
    subst h
    exact .body hp
  | dropped =>
    cases hp : s.pc <;> simp only [step, hp, reduceCtorEq, Option.some.injEq] at h
    subst h
    exact .dropped _ hp
  | destroy =>
    cases hp : s.pc <;> simp only [step, hp, if_true, if_false, Bool.false_eq_true, reduceCtorEq] at h
    obtain ⟨token, ht, rfl⟩ := Option.map_eq_some_iff.mp h
    obtain ⟨hrun, rfl⟩ := StopToken.destroy_eq_some ht
    exact .destroy hp hrun
  | requestStop => cases h; exact .requestStop
  | callback =>
    simp only [step, callbackStep] at h
    split at h
    next i hc => cases h; exact .callRequestStop i hc
    next i hc => cases h; exact .callbackExit i hc
    all_goals cases h

end UvExec.AsyncValue
