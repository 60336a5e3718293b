import UvExec.Execution.Receiver
import UvExec.Lib.Slots
import UvExec.Lib.Transition

/-! # connect_to, accept_from and bind_to (algorithms/*_op_state.hpp)

The three operation states lead one receiver through nested operation states,
the alternatives of a variant. `emplace` ends the alternative that is held and
only then runs the function it was given. The outcome of every stage is a
parameter, and the pauses are those for senders that complete later. -/

namespace UvExec.SocketOp
open Lib

inductive Kind where
  | connectTo
  | acceptFrom
  | bindTo
  deriving DecidableEq, Repr

/- `init` and `bind` are the `EErrc` of the socket's constructor and of `Bind`,
`request` is how the connect or accept ends. `connect`, `fn` and `connectBody`
are the exceptions, if any, that come from connecting the first stage, from the
user's function and from connecting its sender. -/
structure Outcomes (β E : Type) where
  predecessor : Disposition Unit E
  init : Int
  connect : Option E
  request : Disposition Unit E
  bind : Int
  fn : Option E
  connectBody : Option E
  body : Disposition β E
  deriving DecidableEq, Repr

/-- Where the receiver can be: the member `Receiver`, a local copy, and the
alternatives for the stages before the body, for the body and for a close. -/
inductive Slot where
  | member
  | local
  | inner
  | out
  | close
  deriving DecidableEq, Repr

inductive Pc (β E : Type) where
  | init
  | makeReceiver
  | connectIn
  | predecessor
  | request
  | bind
  | emplaceBody
  | invokeFn
  | connectBody
  | caught (x : E)
  | startClose (fin : Disposition β E)
  | emplaceClose (fin : Disposition β E)
  | connectClose (fin : Disposition β E)
  | closing (fin : Disposition β E)
  | body
  | closingBody (fin : Disposition β E)
  | complete (slot : Slot) (fin : Disposition β E)
  | done
  deriving DecidableEq, Repr

/-- What can be seen of an operation. `opened` is a constructor of the socket that
reported no error. -/
inductive Event (β E : Type) where
  | opened
  | bodyStarted
  | closeStarted
  | closed
  | completed (fin : Disposition β E)
  deriving DecidableEq, Repr

/- `trace` is history. -/
structure State (β E : Type) where
  pc : Pc β E
  slots : Slots Slot
  trace : List (Event β E) := []

/-- `run` is the code up to the next pause, in pieces; the others are the ends of
the pauses. -/
inductive Action where
  | run
  | predecessor
  | request
  | body
  | closed
  deriving DecidableEq, Repr

/-- The slot that holds the receiver when the operation is connected. -/
def Kind.home : Kind → Slot
  | .connectTo | .acceptFrom => .member
  | .bindTo => .inner

/-- `EmplaceAndStartClose` of connect_to has its receiver parameter by value. -/
def Kind.byValue : Kind → Bool
  | .connectTo => true
  | .acceptFrom | .bindTo => false

variable {β E : Type}

namespace State

abbrev goto (s : State β E) (slots : Slots Slot) (pc : Pc β E) : State β E :=
  { s with slots := slots, pc := pc }

abbrev emit (s : State β E) (slots : Slots Slot) (e : Event β E) (pc : Pc β E) : State β E :=
  { s with slots := slots, trace := s.trace ++ [e], pc := pc }

end State

def runStep (k : Kind) (o : Outcomes β E) (s : State β E) : Option (State β E) :=
  match s.pc with
  | .init =>
    -- `get_env` of the receiver comes first
    some (if o.init ≠ 0 then s.goto (s.slots.access k.home) (.complete k.home (.error (.errc o.init)))
      else s.emit (s.slots.access k.home) .opened (if k = .bindTo then .bind else .makeReceiver))
  | .makeReceiver => some (s.goto (s.slots.move .member .local) .connectIn)
  | .connectIn =>
    match o.connect with
    | some x => some (s.goto (s.slots.destroy .local) (.complete .member (.error (.exception x))))
    | none => some (s.goto ((s.slots.move .local .inner).destroy .local) .predecessor)
  | .bind =>
    some (s.goto (s.slots.access .inner)
      (if o.bind ≠ 0 then .startClose (.error (.errc o.bind)) else .emplaceBody))
  | .emplaceBody => some (s.goto (s.slots.destroy .inner) .invokeFn)
  | .invokeFn =>
    match o.fn with
    | some x => some { s with pc := .caught x }
    | none => some { s with pc := .connectBody }
  | .connectBody =>
    match o.connectBody with
    | some x => some { s with pc := .caught x }
    | none => some (s.emit (s.slots.move .inner .out) .bodyStarted .body)
  | .caught x =>
    match k with
    | .connectTo => some { s with pc := .startClose (.error (.exception x)) }
    -- `set_error` of the stage's receiver loads `OpState`
    | .acceptFrom => some (s.goto (s.slots.access .inner) (.startClose (.error (.exception x))))
    | .bindTo => some { s with pc := .complete .inner (.error (.exception x)) }
  | .startClose fin =>
    some (s.goto (if k.byValue then s.slots.move .inner .local else s.slots) (.emplaceClose fin))
  | .emplaceClose fin => some (s.goto (s.slots.destroy .inner) (.connectClose fin))
  | .connectClose fin =>
    some (s.emit (if k.byValue then (s.slots.move .local .close).destroy .local
      else s.slots.move .inner .close) .closeStarted (.closing fin))
  | .complete slot fin =>
    some (s.emit (s.slots.access slot) (.completed fin) .done)
  | .predecessor | .request | .closing _ | .body | .closingBody _ | .done => none

def step (k : Kind) (o : Outcomes β E) (s : State β E) : Action → Option (State β E)
  | .run => runStep k o s
  | .predecessor =>
    if s.pc matches .predecessor then
      some (s.goto (s.slots.access .inner) (match o.predecessor.failure with
        | none => if k = .bindTo then .init else .request
        | some fin => if k = .bindTo then .complete .inner fin else .startClose fin))
    else none
  | .request =>
    if s.pc matches .request then
      some (s.goto (s.slots.access .inner) (match o.request.failure with
        | none => .emplaceBody
        | some fin => .startClose fin))
    else none
  | .body =>
    -- `exec::finally` keeps the body's completion and starts the close
    if s.pc matches .body then some (s.emit s.slots .closeStarted (.closingBody o.body)) else none
  | .closed =>
    match s.pc with
    | .closing fin => some (s.emit s.slots .closed (.complete .close fin))
    | .closingBody fin => some (s.emit s.slots .closed (.complete .out fin))
    | _ => none

def initial (k : Kind) : State β E where
  pc := if k = .bindTo then .predecessor else .init
  slots := .single k.home

def system (k : Kind) (o : Outcomes β E) : System (State β E) Action where
  initial s := s = initial k
  step := step k o

/-! ### Inversion -/

inductive Step (k : Kind) (o : Outcomes β E) (s : State β E) : Action → State β E → Prop
  | initFailed : s.pc = .init → o.init ≠ 0 → Step k o s .run
      (s.goto (s.slots.access k.home) (.complete k.home (.error (.errc o.init))))
  | init : s.pc = .init → o.init = 0 → Step k o s .run
      (s.emit (s.slots.access k.home) .opened (if k = .bindTo then .bind else .makeReceiver))
  | makeReceiver : s.pc = .makeReceiver →
      Step k o s .run (s.goto (s.slots.move .member .local) .connectIn)
  | connectThrew (x : E) : s.pc = .connectIn → o.connect = some x → Step k o s .run
      (s.goto (s.slots.destroy .local) (.complete .member (.error (.exception x))))
  | connectIn : s.pc = .connectIn → o.connect = none → Step k o s .run
      (s.goto ((s.slots.move .local .inner).destroy .local) .predecessor)
  | bindFailed : s.pc = .bind → o.bind ≠ 0 → Step k o s .run
      (s.goto (s.slots.access .inner) (.startClose (.error (.errc o.bind))))
  | bind : s.pc = .bind → o.bind = 0 →
      Step k o s .run (s.goto (s.slots.access .inner) .emplaceBody)
  | emplaceBody : s.pc = .emplaceBody →
      Step k o s .run (s.goto (s.slots.destroy .inner) .invokeFn)
  | fnThrew (x : E) : s.pc = .invokeFn → o.fn = some x →
      Step k o s .run { s with pc := .caught x }
  | invokeFn : s.pc = .invokeFn → o.fn = none → Step k o s .run { s with pc := .connectBody }
  | connectBodyThrew (x : E) : s.pc = .connectBody → o.connectBody = some x →
      Step k o s .run { s with pc := .caught x }
  | connectBody : s.pc = .connectBody → o.connectBody = none → Step k o s .run
      (s.emit (s.slots.move .inner .out) .bodyStarted .body)
  | caughtBind (x : E) : s.pc = .caught x → k = .bindTo →
      Step k o s .run { s with pc := .complete .inner (.error (.exception x)) }
  | caught (x : E) (slots : Slots Slot) : s.pc = .caught x → k ≠ .bindTo →
      (slots = s.slots ∨ slots = s.slots.access .inner) →
      Step k o s .run (s.goto slots (.startClose (.error (.exception x))))
  | startClose (fin : Disposition β E) : s.pc = .startClose fin → Step k o s .run
      (s.goto (if k.byValue then s.slots.move .inner .local else s.slots) (.emplaceClose fin))
  | emplaceClose (fin : Disposition β E) : s.pc = .emplaceClose fin →
      Step k o s .run (s.goto (s.slots.destroy .inner) (.connectClose fin))
  | connectClose (fin : Disposition β E) : s.pc = .connectClose fin → Step k o s .run
      (s.emit (if k.byValue then (s.slots.move .local .close).destroy .local
        else s.slots.move .inner .close) .closeStarted (.closing fin))
  | complete (slot : Slot) (fin : Disposition β E) : s.pc = .complete slot fin → Step k o s .run
      (s.emit (s.slots.access slot) (.completed fin) .done)
  | predecessor : s.pc = .predecessor → o.predecessor.failure (β := β) = none →
      Step k o s .predecessor
        (s.goto (s.slots.access .inner) (if k = .bindTo then .init else .request))
  | predecessorFailed (fin : Disposition β E) : s.pc = .predecessor →
      o.predecessor.failure = some fin → Step k o s .predecessor
        (s.goto (s.slots.access .inner) (if k = .bindTo then .complete .inner fin else .startClose fin))
  | request : s.pc = .request → o.request.failure (β := β) = none →
      Step k o s .request (s.goto (s.slots.access .inner) .emplaceBody)
  | requestFailed (fin : Disposition β E) : s.pc = .request → o.request.failure = some fin →
      Step k o s .request (s.goto (s.slots.access .inner) (.startClose fin))
  | body : s.pc = .body → Step k o s .body (s.emit s.slots .closeStarted (.closingBody o.body))
  | closed (fin : Disposition β E) : s.pc = .closing fin →
      Step k o s .closed (s.emit s.slots .closed (.complete .close fin))
  | closedBody (fin : Disposition β E) : s.pc = .closingBody fin →
      Step k o s .closed (s.emit s.slots .closed (.complete .out fin))

variable {k : Kind} {o : Outcomes β E} {s s' : State β E}

theorem runStep_cases (h : runStep k o s = some s') : Step k o s .run s' := by
  simp only [runStep] at h
  cases hp : s.pc with
  | predecessor | request | closing | body | closingBody | done => simp [hp] at h
  | init =>
    simp only [hp, Option.some.injEq] at h
    split at h
    next hne => subst h; exact .initFailed hp hne
    next heq => subst h; exact .init hp (not_not.mp heq)
  | makeReceiver => simp only [hp, Option.some.injEq] at h; subst h; exact .makeReceiver hp
  | connectIn =>
    simp only [hp] at h
    split at h
    next x hx => cases h; exact .connectThrew x hp hx
    next hx => cases h; exact .connectIn hp hx
  | bind =>
    simp only [hp, Option.some.injEq] at h
    subst h
    split
    next hne => exact .bindFailed hp hne
    next heq => exact .bind hp (not_not.mp heq)
  | emplaceBody => simp only [hp, Option.some.injEq] at h; subst h; exact .emplaceBody hp
  | invokeFn =>
    simp only [hp] at h
    split at h
    next x hx => cases h; exact .fnThrew x hp hx
    next hx => cases h; exact .invokeFn hp hx
  | connectBody =>
    simp only [hp] at h
    split at h
    next x hx => cases h; exact .connectBodyThrew x hp hx
    next hx => cases h; exact .connectBody hp hx
  | caught x =>
    simp only [hp] at h
    cases k with
    | connectTo => cases h; exact .caught x _ hp (by simp) (Or.inl rfl)
    | acceptFrom => cases h; exact .caught x _ hp (by simp) (Or.inr rfl)
    | bindTo => cases h; exact .caughtBind x hp rfl
  | startClose fin => simp only [hp, Option.some.injEq] at h; subst h; exact .startClose fin hp
  | emplaceClose fin => simp only [hp, Option.some.injEq] at h; subst h; exact .emplaceClose fin hp
  | connectClose fin => simp only [hp, Option.some.injEq] at h; subst h; exact .connectClose fin hp
  | complete slot fin =>
    simp only [hp, Option.some.injEq] at h
    subst h
    exact .complete slot fin hp

theorem step_cases {a : Action} (h : step k o s a = some s') : Step k o s a s' := by
  cases a with
  | run => exact runStep_cases h
  | predecessor =>
    cases hp : s.pc <;> simp only [step, hp, if_true, if_false, Bool.false_eq_true, reduceCtorEq,
      Option.some.injEq] at h
    subst h
    split
    next hn => exact .predecessor hp hn
    next fin hf => exact .predecessorFailed fin hp hf
  | request =>
    cases hp : s.pc <;> simp only [step, hp, if_true, if_false, Bool.false_eq_true, reduceCtorEq,
      Option.some.injEq] at h
    subst h
    split
    next hn => exact .request hp hn
    next fin hf => exact .requestFailed fin hp hf
  | body =>
    cases hp : s.pc <;> simp only [step, hp, if_true, if_false, Bool.false_eq_true, reduceCtorEq,
      Option.some.injEq] at h
    subst h
    exact .body hp
  | closed =>
    cases hp : s.pc <;> simp only [step, hp, reduceCtorEq, Option.some.injEq] at h
    next fin => subst h; exact .closed fin hp
    next fin => subst h; exact .closedBody fin hp

end UvExec.SocketOp
