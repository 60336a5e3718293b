import UvExec.Lib.Transition
import UvExec.Execution.StopOperation

/-! # Reading operations (algorithms/read_some_op_state.hpp, read_until_op_state.hpp,
receive_op_state.hpp)

`read_some` and `read_until` on a stream, `receive` and `receive_from` on a
datagram socket, each the only one that reads. They share their start and their
`StopCallback`; their read callbacks differ in what they look at first and in
the completion they choose. `κ` is the state of the user's condition, `α` the
type of peer addresses and `size` the number of values of `std::size_t`. -/

namespace UvExec.ReadOp
open Lib

inductive OpState (κ α : Type) where
  | readSome
  | readUntil (size : ℕ) (condition : κ → ℕ → Bool × κ)
  | receive
  | receiveFrom (copyAddress : α → Int)

/-- The loop's thread in the start, in the read callback, with its arguments,
and in `StopCallback`. -/
inductive Pc (α : Type) where
  | start
  | startError (err : Int)
  | emplace
  | setup
  | setupDone
  | idle
  | readCallback (nrd : Int) (addr : Option α)
  | condition (nrd : Int) (addr : Option α)
  | testAndSet (nrd : Int) (addr : Option α)
  | reset (nrd : Int) (addr : Option α)
  | readStop (nrd : Int) (addr : Option α)
  | resetUnsafe
  | stopReadStop
  | complete (c : Completion ℕ)
  deriving DecidableEq, Repr

/- `reading` is libuv's: read callbacks come from `ReadStart` to `ReadStop`. The
last three fields are history: what the receiver was completed with, how often
the stop operation was applied, and whether a callback came that decides the
operation. -/
structure State (κ α : Type) where
  op : TStopOperation := {}
  pc : Pc α := .start
  reading : Bool := false
  receiver : ReceiverSlot := .adaptor
  conditionState : κ
  readTotal : ℕ := 0
  completions : List (Completion ℕ) := []
  applied : ℕ := 0
  decided : Bool := false

inductive Action (α : Type) where
  | start (err : Int)
  | loop
  | read (nrd : Int) (addr : Option α)
  | apply
  | requestStop
  | callback
  deriving DecidableEq, Repr

section
variable {κ α : Type}

abbrev State.complete (s : State κ α) (c : Completion ℕ) : State κ α :=
  { s with receiver := .moved, completions := s.completions ++ [c], pc := .idle }

namespace OpState

def readCallback (k : OpState κ α) (s : State κ α) (nrd : Int) (addr : Option α) : Pc α :=
  match k with
  | .readSome => if nrd = 0 then .idle else .testAndSet nrd addr
  | .readUntil _ _ => if s.op.unused then .condition nrd addr else .idle
  | .receive | .receiveFrom _ =>
    if addr.isNone ∧ nrd = 0 then .idle else .testAndSet nrd addr

/-- What `read_until` does with a chunk before it takes the flag. -/
def condition (k : OpState κ α) (s : State κ α) (nrd : Int) (addr : Option α) : State κ α :=
  match k with
  | .readUntil size cond =>
    if nrd < 0 then { s with pc := .testAndSet nrd addr }
    else if 0 < nrd then
      let (enough, c) := cond s.conditionState nrd.toNat
      { s with
        readTotal := (s.readTotal + nrd.toNat) % size
        conditionState := c
        pc := if enough then .testAndSet nrd addr else .idle }
    else { s with pc := .idle }
  | .readSome | .receive | .receiveFrom _ => { s with pc := .idle }

/-- The completion chosen by a read callback that has taken the flag. libuv
leaves out the address only when nothing was received. -/
def outcome (k : OpState κ α) (s : State κ α) (nrd : Int) (addr : Option α) : Completion ℕ :=
  match k with
  | .readSome =>
    if nrd < 0 then if nrd = uvEof then .value 0 else .error nrd
    else .value nrd.toNat
  | .readUntil _ _ =>
    if nrd < 0 then if nrd = uvEof then .value s.readTotal else .error nrd
    else .value s.readTotal
  | .receive => if nrd < 0 then .error nrd else .value nrd.toNat
  | .receiveFrom copyAddress =>
    if nrd < 0 then .error nrd
    else
      let err := addr.elim 0 copyAddress
      if isError err then .error err else .value nrd.toNat

/-- Callbacks that decide the operation whatever the user's condition says: an
error, the end of the stream and, but for `read_until`, a datum. -/
def decisive (k : OpState κ α) (nrd : Int) (addr : Option α) : Bool :=
  match k with
  | .readSome => nrd ≠ 0
  | .readUntil _ _ => nrd < 0
  | .receive | .receiveFrom _ => nrd ≠ 0 || addr.isSome

end OpState

def loopStep (k : OpState κ α) (s : State κ α) : Option (State κ α) :=
  match s.pc with
  | .start | .idle => none
  | .startError err => some (s.complete (.error err))
  | .emplace => some { s with receiver := .member, pc := .setup }
  | .setup => some { s with op := s.op.setup, pc := .setupDone }
  | .setupDone => s.op.setupDone.map fun op => { s with op := op, pc := .idle }
  | .readCallback nrd addr => some { s with pc := k.readCallback s nrd addr }
  | .condition nrd addr => some (k.condition s nrd addr)
  | .testAndSet nrd addr =>
    let (op, used) := s.op.testAndSet .completion
    some { s with op := op, pc := if used then .idle else .reset nrd addr }
  | .reset nrd addr =>
    s.op.resetCallback.map fun op => { s with op := op, pc := .readStop nrd addr }
  | .readStop nrd addr => some { s with reading := false, pc := .complete (k.outcome s nrd addr) }
  | .resetUnsafe => s.op.resetCallback.map fun op => { s with op := op, pc := .stopReadStop }
  | .stopReadStop => some { s with reading := false, pc := .complete .stopped }
  | .complete c => some (s.complete c)

def step (k : OpState κ α) (s : State κ α) : Action α → Option (State κ α)
  | .start err =>
    match s.pc with
    | .start =>
      some (if isError err then { s with pc := .startError err }
        else { s with reading := true, pc := .emplace })
    | _ => none
  | .loop => loopStep k s
  | .read nrd addr =>
    match s.pc with
    | .idle =>
      if s.reading then
        some { s with decided := s.decided || k.decisive nrd addr, pc := .readCallback nrd addr }
      else none
    | _ => none
  | .apply =>
    match s.pc with
    | .idle =>
      s.op.beginApply.map fun op => { s with op := op, applied := s.applied + 1, pc := .resetUnsafe }
    | _ => none
  | .requestStop => some { s with op := s.op.requestStop }
  | .callback => s.op.callbackStep.map fun op => { s with op := op }

def system (k : OpState κ α) : System (State κ α) (Action α) where
  initial s := ∃ c, s = { conditionState := c }
  step := step k

/-! ### Inversion -/

inductive Step (k : OpState κ α) (s : State κ α) : Action α → State κ α → Prop
  | startFailed (err : Int) : s.pc = .start → isError err = true →
      Step k s (.start err) { s with pc := .startError err }
  | start (err : Int) : s.pc = .start → isError err = false →
      Step k s (.start err) { s with reading := true, pc := .emplace }
  | startError (err : Int) : s.pc = .startError err → Step k s .loop (s.complete (.error err))
  | emplace : s.pc = .emplace → Step k s .loop { s with receiver := .member, pc := .setup }
  | setup : s.pc = .setup → Step k s .loop { s with op := s.op.setup, pc := .setupDone }
  | setupDone : s.pc = .setupDone → (∀ p, s.op.token.callback ≠ .running true p) →
      Step k s .loop { s with op := { s.op with engaged := true }, pc := .idle }
  | readCallback (nrd : Int) (addr : Option α) : s.pc = .readCallback nrd addr →
      Step k s .loop { s with pc := k.readCallback s nrd addr }
  | condition (nrd : Int) (addr : Option α) : s.pc = .condition nrd addr →
      Step k s .loop (k.condition s nrd addr)
  | lost (nrd : Int) (addr : Option α) : s.pc = .testAndSet nrd addr → s.op.used = true →
      Step k s .loop { s with pc := .idle }
  | won (nrd : Int) (addr : Option α) : s.pc = .testAndSet nrd addr → s.op.used = false →
      Step k s .loop
        { s with op := { s.op with used := true, taker := some .completion }, pc := .reset nrd addr }
  | reset (nrd : Int) (addr : Option α) (op : TStopOperation) : s.pc = .reset nrd addr →
      s.op.resetCallback = some op → Step k s .loop { s with op := op, pc := .readStop nrd addr }
  | readStop (nrd : Int) (addr : Option α) : s.pc = .readStop nrd addr → Step k s .loop
      { s with reading := false, pc := .complete (k.outcome s nrd addr) }
  | resetUnsafe (op : TStopOperation) : s.pc = .resetUnsafe → s.op.resetCallback = some op →
      Step k s .loop { s with op := op, pc := .stopReadStop }
  | stopReadStop : s.pc = .stopReadStop → Step k s .loop
      { s with reading := false, pc := .complete .stopped }
  | complete (c : Completion ℕ) : s.pc = .complete c → Step k s .loop (s.complete c)
  | read (nrd : Int) (addr : Option α) : s.pc = .idle → s.reading = true →
      Step k s (.read nrd addr)
        { s with decided := s.decided || k.decisive nrd addr, pc := .readCallback nrd addr }
  | apply : s.pc = .idle → 0 < s.op.queued → Step k s .apply
      { s with
        op := { s.op with queued := s.op.queued - 1 }, applied := s.applied + 1, pc := .resetUnsafe }
  | requestStop : Step k s .requestStop { s with op := s.op.requestStop }
  | callback (op : TStopOperation) : s.op.callbackStep = some op →
      Step k s .callback { s with op := op }

theorem loopStep_cases {k : OpState κ α} {s s' : State κ α} (h : loopStep k s = some s') :
    Step k s .loop s' := by
  simp only [loopStep] at h
  cases hp : s.pc with
  | start | idle => simp [hp] at h
  | startError err => simp only [hp, Option.some.injEq] at h; subst h; exact .startError err hp
  | emplace => simp only [hp, Option.some.injEq] at h; subst h; exact .emplace hp
  | setup => simp only [hp, Option.some.injEq] at h; subst h; exact .setup hp
  | setupDone =>
    simp only [hp, Option.map_eq_some_iff] at h
    obtain ⟨op, hop, rfl⟩ := h
    obtain ⟨hrun, rfl⟩ := TStopOperation.setupDone_eq_some hop
    exact .setupDone hp hrun
  | readCallback nrd addr =>
    simp only [hp, Option.some.injEq] at h
    subst h
    exact .readCallback nrd addr hp
  | condition nrd addr =>
    simp only [hp, Option.some.injEq] at h
    subst h
    exact .condition nrd addr hp
  | testAndSet nrd addr =>
    simp only [hp, Option.some.injEq] at h
    rcases s.op.testAndSet_cases .completion with ⟨hu, ht⟩ | ⟨hu, ht⟩
    · rw [ht] at h
      subst h
      exact .lost nrd addr hp hu
    · rw [ht] at h
      subst h
      exact .won nrd addr hp hu
  | reset nrd addr =>
    simp only [hp, Option.map_eq_some_iff] at h
    obtain ⟨op, hop, rfl⟩ := h
    exact .reset nrd addr op hp hop
  | readStop nrd addr =>
    simp only [hp, Option.some.injEq] at h
    subst h
    exact .readStop nrd addr hp
  | resetUnsafe =>
    simp only [hp, Option.map_eq_some_iff] at h
    obtain ⟨op, hop, rfl⟩ := h
    exact .resetUnsafe op hp hop
  | stopReadStop => simp only [hp, Option.some.injEq] at h; subst h; exact .stopReadStop hp
  | complete c => simp only [hp, Option.some.injEq] at h; subst h; exact .complete c hp

theorem step_cases {k : OpState κ α} {s s' : State κ α} {a : Action α}
    (h : step k s a = some s') : Step k s a s' := by
  cases a with
  | start err =>
    simp only [step] at h
    split at h
    · split at h
      · cases h; exact .startFailed err ‹_› ‹_›
      · cases h; exact .start err ‹_› (Bool.eq_false_iff.mpr ‹_›)
    · cases h
  | loop => exact loopStep_cases h
  | read nrd addr =>
    simp only [step] at h
    split at h
    · split at h
      · cases h; exact .read nrd addr ‹_› ‹_›
      · cases h
    · cases h
  | apply =>
    simp only [step] at h
    split at h
    · obtain ⟨op, hop, rfl⟩ := Option.map_eq_some_iff.mp h
      obtain ⟨hq, rfl⟩ := TStopOperation.beginApply_eq_some hop
      exact .apply ‹_› hq
    · cases h
  | requestStop => cases h; exact .requestStop
  | callback =>
    obtain ⟨op, hop, rfl⟩ := Option.map_eq_some_iff.mp h
    exact .callback op hop

/-! ### The parts of a read callback -/

namespace OpState

theorem readCallback_cases (k : OpState κ α) (s : State κ α) (nrd : Int) (addr : Option α) :
    (k.readCallback s nrd addr = .idle ∧ (k.decisive nrd addr = true → s.op.used = true)) ∨
    k.readCallback s nrd addr = .condition nrd addr ∨
    k.readCallback s nrd addr = .testAndSet nrd addr := by
  cases k with
  | readSome =>
    by_cases h : nrd = 0 <;> simp [readCallback, decisive, h]
  | readUntil size cond =>
    cases h : s.op.used <;> simp [readCallback, TStopOperation.unused, h]
  | receive | receiveFrom copyAddress =>
    by_cases h : addr.isNone ∧ nrd = 0
    · simp_all [readCallback, decisive]
    · exact Or.inr (Or.inr (if_neg h))

/-- The user's condition changes nothing but its own state and the total, and
a decisive callback goes on to take the flag. -/
theorem condition_cases (k : OpState κ α) (s : State κ α) (nrd : Int) (addr : Option α) :
    ∃ p c t, (p = .testAndSet nrd addr ∨
      p = .idle ∧ ((∃ size cond, k = .readUntil size cond) → k.decisive nrd addr = false)) ∧
      k.condition s nrd addr = { s with pc := p, conditionState := c, readTotal := t } := by
  cases k with
  | readUntil size cond =>
    by_cases hneg : nrd < 0
    · exact ⟨_, s.conditionState, s.readTotal, Or.inl rfl, by simp [condition, hneg]⟩
    · have hdec : decisive (.readUntil size cond : OpState κ α) nrd addr = false := by
        simp [decisive, hneg]
      by_cases hpos : 0 < nrd
      · rcases hcond : cond s.conditionState nrd.toNat with ⟨enough, c⟩
        refine ⟨if enough then .testAndSet nrd addr else .idle, c, (s.readTotal + nrd.toNat) % size,
          ?_, ?_⟩
        · cases enough
          · exact Or.inr ⟨rfl, fun _ => hdec⟩
          · exact Or.inl rfl
        · simp [condition, hneg, hpos, hcond]
      · exact ⟨.idle, s.conditionState, s.readTotal, Or.inr ⟨rfl, fun _ => hdec⟩,
          by simp [condition, hneg, hpos]⟩
  | readSome | receive | receiveFrom copyAddress =>
    exact ⟨.idle, s.conditionState, s.readTotal, Or.inr ⟨rfl, by simp⟩, rfl⟩

end OpState

end
end UvExec.ReadOp
