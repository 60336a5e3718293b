import UvExec.Algorithms.DataAccounting
import UvExec.Algorithms.ReadStages
import UvExec.Lib.Memory
import Mathlib.Data.Set.Defs

/-! # The bytes of a stream (algorithms/read_some_op_state.hpp, read_until_op_state.hpp)

One reading operation after another on a stream, with the memory that
`AllocateBuf` hands to libuv and the bytes that libuv writes there. The user's
condition and the code between the callbacks may change the memory and the
span. `size` is the number of values of `std::size_t`. -/

namespace UvExec.StreamBytes
open Lib

abbrev Bytes := List UInt8

/-- `std::span<std::byte>`. -/
structure Span where
  data : ℕ
  size : ℕ
  deriving DecidableEq, Repr

/-- The user's memory, the span that the predecessor sends, and what else the
user's code keeps. -/
structure Buffers (κ : Type) where
  memory : ℕ → UInt8
  buff : Span
  rest : κ

/-- `read_until` holds a reference to the span, so that its condition can move it. -/
inductive Algorithm (κ : Type) where
  | readSome
  | readUntil (condition : Buffers κ → ℕ → Bool × Buffers κ)

abbrev Op (κ : Type) := ReadOp.State (Buffers κ) Unit

/-- An operation that has completed. -/
structure Report where
  readSome : Bool
  completions : List (Completion ℕ)
  shown : List Bytes
  dropped : List Bytes
  deriving DecidableEq, Repr

/- `buf` is the member of `TReadSomeOpState`, and `incoming` what libuv can read.
`shown` is what the memory holds where the program is told of a chunk. `arrived`,
`inFlight`, `dropped` and `past` are history: all the bytes, the chunk of the
running callback that nobody has been told of, those that nobody will be told of,
and the operations before this one. -/
structure State (κ : Type) where
  algorithm : Algorithm κ
  op : Op κ
  buf : Span := ⟨0, 0⟩
  incoming : Bytes := []
  arrived : Bytes := []
  inFlight : Option Bytes := none
  shown : List Bytes := []
  dropped : List Bytes := []
  past : List Report := []

/- `touch` is the user's code on the loop's thread, outside of the library's
callbacks. `fail` is a callback without data. -/
inductive Action (κ : Type) where
  | arrive (bytes : Bytes)
  | touch (b : Buffers κ)
  | read (n : ℕ)
  | fail (err : Int)
  | op (a : ReadOp.Action Unit)
  | next (algorithm : Algorithm κ)

/-- `UV_ENOBUFS`. -/
def uvEnobufs : Int := -105

variable {κ : Type}

namespace Algorithm

def opState (size : ℕ) : Algorithm κ → ReadOp.OpState (Buffers κ) Unit
  | .readSome => .readSome
  | .readUntil condition => .readUntil size condition

def isSome : Algorithm κ → Bool
  | .readSome => true
  | .readUntil _ => false

end Algorithm

/-- `AllocateBuf`. -/
def allocateBuf (s : State κ) : Span :=
  match s.algorithm with
  | .readSome => s.buf
  | .readUntil _ => s.op.conditionState.buff

/-- The first `n` bytes of the span. -/
def seen (s : State κ) (n : ℕ) : Bytes :=
  Memory.load s.op.conditionState.memory (allocateBuf s).data n

/-- libuv has written the chunk to the span. -/
def write (s : State κ) (chunk : Bytes) (t : Op κ) : Op κ :=
  { t with conditionState := { t.conditionState with
      memory := Memory.store t.conditionState.memory (allocateBuf s).data chunk } }

namespace State

abbrev drop (s : State κ) (t : Op κ) : State κ :=
  { s with op := t, dropped := s.dropped ++ s.inFlight.toList, inFlight := none }

abbrev tell (s : State κ) (n : ℕ) (t : Op κ) : State κ :=
  { s with op := t, shown := s.shown ++ (if n = 0 then [] else [seen s n]), inFlight := none }

abbrev move (s : State κ) (t : Op κ) : State κ := { s with op := t }

end State

/-- Where the program is told of a chunk, or is not: `read_until` calls its
condition, `read_some` completes with the length. -/
def afterLoop (s : State κ) (t : Op κ) : State κ :=
  match s.op.pc with
  | .readCallback _ _ => if t.pc = .idle then s.drop t else s.move t
  | .condition nrd _ => s.tell nrd.toNat t
  | .testAndSet _ _ => if s.op.op.used then s.drop t else s.move t
  | .complete (.value n) => if s.algorithm.isSome then s.tell n t else s.move t
  | _ => s.move t

def afterStep (s : State κ) (a : ReadOp.Action Unit) (t : Op κ) : State κ :=
  match a with
  | .start _ => { s.move t with buf := s.op.conditionState.buff }
  | .loop => afterLoop s t
  | .read _ _ | .apply | .requestStop | .callback => s.move t

def report (s : State κ) : Report where
  readSome := s.algorithm.isSome
  completions := s.op.completions
  shown := s.shown
  dropped := s.dropped

/-- What a callback carries is libuv's to say, and not that of `.op`. -/
def isRead : ReadOp.Action Unit → Bool
  | .read _ _ => true
  | .start _ | .loop | .apply | .requestStop | .callback => false

def step (size : ℕ) (s : State κ) : Action κ → Option (State κ)
  | .arrive bytes =>
    some { s with incoming := s.incoming ++ bytes, arrived := s.arrived ++ bytes }
  | .touch b =>
    if s.op.pc = .idle ∨ s.op.pc = .start then
      some (s.move { s.op with conditionState := b })
    else none
  | .read n =>
    if (allocateBuf s).size = 0 then
      (ReadOp.step (s.algorithm.opState size) s.op (.read uvEnobufs none)).map s.move
    else if 0 < n ∧ n ≤ (allocateBuf s).size ∧ n ≤ s.incoming.length then
      (ReadOp.step (s.algorithm.opState size) s.op (.read n none)).map fun t =>
        { s with
          op := write s (s.incoming.take n) t
          incoming := s.incoming.drop n
          inFlight := some (s.incoming.take n) }
    else none
  | .fail err =>
    if err ≤ 0 then (ReadOp.step (s.algorithm.opState size) s.op (.read err none)).map s.move else none
  | .op a =>
    if isRead a then none
    else (ReadOp.step (s.algorithm.opState size) s.op a).map (afterStep s a)
  | .next algorithm =>
    if s.op.completions ≠ [] ∧ s.op.pc = .idle then
      some { s with
        algorithm := algorithm
        op := { conditionState := s.op.conditionState }
        shown := []
        dropped := []
        past := s.past ++ [report s] }
    else none

def system (size : ℕ) : System (State κ) (Action κ) where
  initial s := ∃ algorithm c, s = { algorithm := algorithm, op := { conditionState := c } }
  step := step size

/-! ### Inversion -/

inductive Step (size : ℕ) (s : State κ) : Action κ → State κ → Prop
  | arrive (bytes : Bytes) : Step size s (.arrive bytes)
      { s with incoming := s.incoming ++ bytes, arrived := s.arrived ++ bytes }
  | touch (b : Buffers κ) : s.op.pc = .idle ∨ s.op.pc = .start →
      Step size s (.touch b) (s.move { s.op with conditionState := b })
  | noBuffers (n : ℕ) (t : Op κ) : (allocateBuf s).size = 0 →
      ReadOp.Step (s.algorithm.opState size) s.op (.read uvEnobufs none) t → Step size s (.read n) (s.move t)
  | read (n : ℕ) (t : Op κ) : 0 < n → n ≤ (allocateBuf s).size → n ≤ s.incoming.length →
      ReadOp.Step (s.algorithm.opState size) s.op (.read n none) t → Step size s (.read n)
        { s with
          op := write s (s.incoming.take n) t
          incoming := s.incoming.drop n
          inFlight := some (s.incoming.take n) }
  | fail (err : Int) (t : Op κ) : err ≤ 0 →
      ReadOp.Step (s.algorithm.opState size) s.op (.read err none) t → Step size s (.fail err) (s.move t)
  | op (a : ReadOp.Action Unit) (t : Op κ) : isRead a = false →
      ReadOp.Step (s.algorithm.opState size) s.op a t → Step size s (.op a) (afterStep s a t)
  | next (algorithm : Algorithm κ) : s.op.completions ≠ [] → s.op.pc = .idle →
      Step size s (.next algorithm)
        { s with
          algorithm := algorithm
          op := { conditionState := s.op.conditionState }
          shown := []
          dropped := []
          past := s.past ++ [report s] }

variable {size : ℕ} {s s' : State κ} {a : Action κ}

theorem step_cases (h : step size s a = some s') : Step size s a s' := by
  cases a with
  | arrive bytes =>
    cases h
    exact .arrive bytes
  | touch b =>
    simp only [step, Option.ite_none_right_eq_some, Option.some.injEq] at h
    obtain ⟨hor, rfl⟩ := h
    exact .touch b hor
  | read n =>
    simp only [step] at h
    split at h
    next hsize =>
      obtain ⟨t, ht, rfl⟩ := Option.map_eq_some_iff.mp h
      exact .noBuffers n t hsize (ReadOp.step_cases ht)
    next =>
      split at h
      next hn =>
        obtain ⟨t, ht, rfl⟩ := Option.map_eq_some_iff.mp h
        exact .read n t hn.1 hn.2.1 hn.2.2 (ReadOp.step_cases ht)
      next => cases h
  | fail err =>
    simp only [step, Option.ite_none_right_eq_some] at h
    obtain ⟨herr, h⟩ := h
    obtain ⟨t, ht, rfl⟩ := Option.map_eq_some_iff.mp h
    exact .fail err t herr (ReadOp.step_cases ht)
  | op a =>
    simp only [step] at h
    split at h
    next => cases h
    next ha =>
      obtain ⟨t, ht, rfl⟩ := Option.map_eq_some_iff.mp h
      exact .op a t (by simpa using ha) (ReadOp.step_cases ht)
  | next algorithm =>
    simp only [step, Option.ite_none_right_eq_some, Option.some.injEq] at h
    obtain ⟨⟨hcomp, hp⟩, rfl⟩ := h
    exact .next algorithm hcomp hp

/-! ### What the program is told -/

/-- The bytes that the thread carries from the callback to the place where the
program is told of them. -/
def carried (k : Algorithm κ) : ReadOp.Pc Unit → ℕ
  | .readCallback nrd _ | .condition nrd _ => nrd.toNat
  | .testAndSet nrd _ | .reset nrd _ | .readStop nrd _ => if k.isSome then nrd.toNat else 0
  | .complete (.value n) => if k.isSome then n else 0
  | .complete (.error _) | .complete .stopped | .start | .startError _ | .emplace | .setup
  | .setupDone | .idle | .resetUnsafe | .stopReadStop => 0

/-- The lengths that a completion of `read_some` tells of. -/
def told : Completion ℕ → List ℕ
  | .value n => if n = 0 then [] else [n]
  | .error _ | .stopped => []

def Report.chunks (r : Report) : List Bytes := r.shown ++ r.dropped

/-- The lengths add up, as far as `ReadTotal` holds their sum, and chunks are
dropped by an operation that is stopped. -/
structure Report.Honest (size : ℕ) (r : Report) : Prop where
  single : r.readSome = true → r.shown.map List.length = r.completions.flatMap told
  sum : r.readSome = false → ∀ n, .value n ∈ r.completions → n = (r.shown.map List.length).sum % size
  dropped : r.dropped ≠ [] → r.completions = [.stopped]

/-- The bytes beside the operation that is at work. -/
structure BytesInv (size : ℕ) (s : State κ) : Prop where
  stream : s.arrived =
    (s.past.flatMap Report.chunks ++ s.shown ++ s.dropped ++ s.inFlight.toList).flatten ++ s.incoming
  flight : s.inFlight = if carried s.algorithm s.op.pc = 0 then none
    else some (seen s (carried s.algorithm s.op.pc))
  total : s.algorithm.isSome = false → s.op.readTotal = (s.shown.map List.length).sum % size
  value : s.algorithm.isSome = false → ∀ n,
    s.op.pc = .complete (.value n) ∨ .value n ∈ s.op.completions → n = s.op.readTotal
  single : s.algorithm.isSome = true → s.shown.map List.length = s.op.completions.flatMap told
  unasked : s.algorithm.isSome = true → ∀ nrd addr, s.op.pc ≠ .condition nrd addr
  asking : ∀ nrd addr, s.op.pc = .condition nrd addr → s.dropped = []
  unstarted : s.op.pc = .start → s.op.reading = false
  stop : s.dropped ≠ [] → s.op.op.used = true ∧ s.op.op.taker = some .stop
  past : ∀ r ∈ s.past, r.Honest size

theorem afterStep_op (s : State κ) (a : ReadOp.Action Unit) (t : Op κ) : (afterStep s a t).op = t := by
  cases a with
  | loop =>
    simp only [afterStep, afterLoop]
    repeat' split
    all_goals rfl
  | _ => rfl

theorem stage_step (hst : ReadOp.Stage s.op) (hun : s.op.pc = .start → s.op.reading = false)
    (h : Step size s a s') : ReadOp.Stage s'.op := by
  cases h with
  | arrive bytes => exact hst
  | touch b hp => exact hst.condition b
  | noBuffers n t hsize ht => exact ReadOp.stage_step hst hun ht
  | read n t hpos hsize hin ht => exact (ReadOp.stage_step hst hun ht).condition _
  | fail err t herr ht => exact ReadOp.stage_step hst hun ht
  | op act t ha ht =>
    rw [afterStep_op]
    exact ReadOp.stage_step hst hun ht
  | next algorithm hcomp hp => exact ReadOp.stage_initial _

/-! ### One step of the operation -/

section
variable {t : Op κ}

/-- The thread neither picks up a chunk nor tells of one. -/
theorem BytesInv.move (hi : BytesInv size s) (hbuf : t.conditionState = s.op.conditionState)
    (hcar : carried s.algorithm t.pc = carried s.algorithm s.op.pc)
    (htotal : t.readTotal = s.op.readTotal)
    (hvalue : s.algorithm.isSome = false → ∀ n, t.pc = .complete (.value n) ∨ .value n ∈ t.completions →
      n = t.readTotal)
    (hsingle : s.algorithm.isSome = true → t.completions.flatMap told = s.op.completions.flatMap told)
    (hask : s.algorithm.isSome = true → ∀ nrd addr, t.pc ≠ .condition nrd addr)
    (hasking : ∀ nrd addr, t.pc = .condition nrd addr → s.dropped = []) (hun : t.pc = .start → t.reading = false)
    (hkept : s.op.op.used = true → t.op.used = true ∧ t.op.taker = s.op.op.taker) :
    BytesInv size (s.move t) := by
  have hseen : ∀ n, seen (s.move t) n = seen s n := by
    intro n
    simp only [seen, allocateBuf, hbuf]
  refine ⟨hi.stream, ?_, ?_, hvalue, ?_, hask, hasking, hun, ?_, hi.past⟩
  · rw [hseen]
    simp only [hcar]
    exact hi.flight
  · intro hk
    exact htotal.trans (hi.total hk)
  · intro hk
    exact (hi.single hk).trans (hsingle hk).symm
  · intro hd
    obtain ⟨hu, ht⟩ := hi.stop hd
    obtain ⟨hu', ht'⟩ := hkept hu
    exact ⟨hu', ht'.trans ht⟩

/-- The thread leaves the callback without telling of its chunk. -/
theorem BytesInv.drop (hi : BytesInv size s) (hp : t.pc = .idle) (htotal : t.readTotal = s.op.readTotal)
    (hcomp : t.completions = s.op.completions)
    (hkept : s.op.op.used = true → t.op.used = true ∧ t.op.taker = s.op.op.taker)
    (hstop : s.inFlight ≠ none → t.op.used = true ∧ t.op.taker = some .stop) :
    BytesInv size (s.drop t) := by
  refine ⟨?_, by simp [hp, carried], ?_, ?_, ?_, by simp [hp], by simp [hp], by simp [hp], ?_, hi.past⟩
  · simpa using hi.stream
  · intro hk
    exact htotal.trans (hi.total hk)
  · intro hk n hor
    rw [htotal]
    refine hi.value hk n (Or.inr ?_)
    simpa [hp, hcomp] using hor
  · intro hk
    rw [hcomp]
    exact hi.single hk
  · intro hd
    cases hf : s.inFlight with
    | some chunk => exact hstop (by simp [hf])
    | none =>
      obtain ⟨hu, ht⟩ := hi.stop (by simpa [hf] using hd)
      obtain ⟨hu', ht'⟩ := hkept hu
      exact ⟨hu', ht'.trans ht⟩

/-- The thread tells of the chunk that it carries. -/
theorem BytesInv.tell_stream (hi : BytesInv size s) {n : ℕ} (hn : carried s.algorithm s.op.pc = n)
    (hdrop : s.dropped = []) : s.arrived = (s.past.flatMap Report.chunks ++
      (s.shown ++ if n = 0 then [] else [seen s n]) ++ s.dropped).flatten ++ s.incoming := by
  have hflight := hi.flight
  rw [hn] at hflight
  rw [hi.stream, hflight, hdrop]
  by_cases h0 : n = 0
  · simp [h0]
  · simp [h0]

theorem BytesInv.tell_lengths (s : State κ) (n : ℕ) :
    (s.shown ++ if n = 0 then [] else [seen s n]).map List.length =
      s.shown.map List.length ++ if n = 0 then [] else [n] := by
  by_cases h0 : n = 0
  · simp [h0]
  · simp [h0, seen]

theorem not_dropped (hi : BytesInv size s) (hst : ReadOp.Stage s.op) {n : ℕ}
    (hp : s.op.pc = .complete (.value n)) : s.dropped = [] := by
  by_contra hd
  have hstop := (hi.stop hd).2
  rw [hst.taker_of_complete hp] at hstop
  cases hstop

theorem readCallback_some (s : State κ) (t : Op κ) (hk : s.algorithm.isSome = true) (nrd : Int)
    (addr : Option Unit) : (s.algorithm.opState size).readCallback t nrd addr =
      if nrd = 0 then .idle else .testAndSet nrd addr := by
  cases halg : s.algorithm with
  | readSome => rfl
  | readUntil cond => simp [halg, Algorithm.isSome] at hk

theorem readCallback_until (s : State κ) (t : Op κ) (hk : s.algorithm.isSome = false) (nrd : Int)
    (addr : Option Unit) : (s.algorithm.opState size).readCallback t nrd addr =
      if t.op.unused then .condition nrd addr else .idle := by
  cases halg : s.algorithm with
  | readSome => simp [halg, Algorithm.isSome] at hk
  | readUntil cond => rfl

/-- The callback begins: `read_some` takes up every chunk, `read_until` none once
the flag is taken. -/
theorem bytesInv_readCallback {nrd : Int} {addr : Option Unit} (hi : BytesInv size s) (hst : ReadOp.Stage s.op)
    (hp : s.op.pc = .readCallback nrd addr) : BytesInv size (afterLoop s
      { s.op with pc := (s.algorithm.opState size).readCallback s.op nrd addr }) := by
  have hflight := hi.flight
  have hcomp := hst.uncompleted (by simp [hp])
  simp only [afterLoop, hp]
  cases hk : s.algorithm.isSome with
  | true =>
    rw [readCallback_some s s.op hk]
    by_cases h0 : nrd = 0
    · rw [if_pos h0, if_pos rfl]
      refine hi.drop rfl rfl rfl (fun hu => ⟨hu, rfl⟩) (fun hne => (hne ?_).elim)
      simpa [hp, carried, h0] using hflight
    · rw [if_neg h0, if_neg (by simp)]
      refine hi.move rfl ?_ rfl (by simp [hk]) (fun _ => rfl) (by simp) (by simp) (by simp)
        (fun hu => ⟨hu, rfl⟩)
      simp [hp, carried, hk]
  | false =>
    cases hu : s.op.op.used with
    | true =>
      have hstop := hst.stop_of_used (by rw [hp]; rfl) hu
      have hidle : (s.algorithm.opState size).readCallback s.op nrd addr = .idle := by
        rw [readCallback_until s s.op hk]
        simp [TStopOperation.unused, hu]
      rw [hidle, if_pos rfl]
      exact hi.drop rfl rfl rfl (fun hu => ⟨hu, rfl⟩) (fun _ => ⟨hu, hstop⟩)
    | false =>
      have hdrop : s.dropped = [] := by
        by_contra hd
        have hstop := (hi.stop hd).1
        simp [hu] at hstop
      have hask : (s.algorithm.opState size).readCallback s.op nrd addr = .condition nrd addr := by
        rw [readCallback_until s s.op hk]
        simp [TStopOperation.unused, hu]
      rw [hask, if_neg (by simp)]
      refine hi.move rfl ?_ rfl ?_ (fun _ => rfl) (by simp [hk]) (fun _ _ _ => hdrop) (by simp)
        (fun hu => ⟨hu, rfl⟩)
      · simp [hp, carried]
      · intro _ n hor
        simp [hcomp] at hor

theorem condition_total (s : State κ) (t : Op κ) (hk : s.algorithm.isSome = false) (nrd : Int)
    (addr : Option Unit) {total : ℕ} (ht : t.readTotal = total % size) :
    ((s.algorithm.opState size).condition t nrd addr).readTotal = (total + nrd.toNat) % size := by
  cases halg : s.algorithm with
  | readSome => simp [halg, Algorithm.isSome] at hk
  | readUntil cond =>
    simp only [Algorithm.opState, ReadOp.OpState.condition]
    by_cases hpos : 0 < nrd
    · have hneg : ¬nrd < 0 := by omega
      rw [if_neg hneg, if_pos hpos]
      change (t.readTotal + nrd.toNat) % size = (total + nrd.toNat) % size
      rw [ht, Nat.mod_add_mod]
    · have hzero : nrd.toNat = 0 := by omega
      rw [hzero, Nat.add_zero]
      split
      · exact ht
      · exact ht

/-- The condition of `read_until` is asked about the chunk. -/
theorem bytesInv_condition {nrd : Int} {addr : Option Unit} (hi : BytesInv size s) (hst : ReadOp.Stage s.op)
    (hp : s.op.pc = .condition nrd addr) : BytesInv size (afterLoop s
      ((s.algorithm.opState size).condition s.op nrd addr)) := by
  have hk : s.algorithm.isSome = false := by
    by_contra hne
    exact hi.unasked (by simpa using hne) nrd addr hp
  have hcomp := hst.uncompleted (by simp [hp])
  have hdrop := hi.asking nrd addr hp
  have hstream := hi.tell_stream (n := nrd.toNat) (by rw [hp]; rfl) hdrop
  have hn := condition_total s s.op hk nrd addr (hi.total hk)
  obtain ⟨p, c, n, hpc, he⟩ := (s.algorithm.opState size).condition_cases s.op nrd addr
  have hcar : carried s.algorithm p = 0 ∧ (∀ d, p ≠ .complete d) ∧ (∀ m b, p ≠ .condition m b) ∧
      p ≠ .start := by
    rcases hpc with rfl | ⟨rfl, -⟩
    · simp [carried, hk]
    · simp [carried]
  rw [he] at hn
  simp only [afterLoop, hp, he]
  refine ⟨?_, ?_, ?_, ?_, by simp [hk], by simp [hk], ?_, ?_, ?_, hi.past⟩
  · simpa using hstream
  · simp [hcar.1]
  · intro _
    rw [BytesInv.tell_lengths, List.sum_append]
    by_cases h0 : nrd.toNat = 0
    · rw [if_pos h0]
      simpa [h0] using hn
    · rw [if_neg h0]
      simpa using hn
  · intro _ m hor
    simp [hcomp, hcar.2.1] at hor
  · intro m b hask
    exact (hcar.2.2.1 m b hask).elim
  · intro hstart
    exact (hcar.2.2.2 hstart).elim
  · intro hd
    exact (hd hdrop).elim

/-- A statement that only moves the thread, or the stop operation. -/
theorem BytesInv.plain {act : ReadOp.Action Unit} (hi : BytesInv size s)
    (h : ReadOp.Step (s.algorithm.opState size) s.op act t) (hbuf : t.conditionState = s.op.conditionState)
    (hcar : carried s.algorithm t.pc = carried s.algorithm s.op.pc)
    (htotal : t.readTotal = s.op.readTotal) (hcomp : t.completions = s.op.completions)
    (hvalue : ∀ n, t.pc = .complete (.value n) → s.op.pc = .complete (.value n))
    (hask : ∀ nrd addr, t.pc = .condition nrd addr → s.op.pc = .condition nrd addr)
    (hun : t.pc = .start → s.op.pc = .start ∧ t.reading = s.op.reading) : BytesInv size (s.move t) := by
  refine hi.move hbuf hcar htotal ?_ ?_ ?_ ?_ ?_ (SocketReads.kept_of_step h).used
  · intro hk n hor
    rw [htotal]
    refine hi.value hk n ?_
    rw [hcomp] at hor
    rcases hor with hp | hmem
    · exact Or.inl (hvalue n hp)
    · exact Or.inr hmem
  · intro _
    rw [hcomp]
  · intro hk nrd addr hp
    exact hi.unasked hk nrd addr (hask nrd addr hp)
  · intro nrd addr hp
    exact hi.asking nrd addr (hask nrd addr hp)
  · intro hp
    obtain ⟨hstart, hread⟩ := hun hp
    exact hread.trans (hi.unstarted hstart)

theorem outcome_some (s : State κ) (t : Op κ) (hk : s.algorithm.isSome = true) (nrd : Int)
    (addr : Option Unit) : carried s.algorithm (.complete ((s.algorithm.opState size).outcome t nrd addr)) =
      nrd.toNat := by
  cases halg : s.algorithm with
  | readUntil cond => simp [halg, Algorithm.isSome] at hk
  | readSome =>
    simp only [Algorithm.opState, ReadOp.OpState.outcome]
    by_cases hneg : nrd < 0
    · have hzero : nrd.toNat = 0 := by omega
      rw [if_pos hneg, hzero]
      by_cases heof : nrd = uvEof
      · rw [if_pos heof]
        rfl
      · rw [if_neg heof]
        rfl
    · rw [if_neg hneg]
      rfl

theorem outcome_until (s : State κ) (t : Op κ) (hk : s.algorithm.isSome = false) {nrd : Int}
    {addr : Option Unit} {n : ℕ} (h : (s.algorithm.opState size).outcome t nrd addr = .value n) :
    n = t.readTotal := by
  cases halg : s.algorithm with
  | readSome => simp [halg, Algorithm.isSome] at hk
  | readUntil cond =>
    rw [halg] at h
    simp only [Algorithm.opState, ReadOp.OpState.outcome] at h
    split at h
    · split at h
      · cases h
        rfl
      · cases h
    · cases h
      rfl

theorem bytesInv_readStop {nrd : Int} {addr : Option Unit} (hi : BytesInv size s)
    (hcomp : s.op.completions = [])
    (hp : s.op.pc = .readStop nrd addr) : BytesInv size (s.move
      { s.op with reading := false, pc := .complete ((s.algorithm.opState size).outcome s.op nrd addr) }) := by
  refine hi.move rfl ?_ rfl ?_ (fun _ => rfl) (by simp) (by simp) (by simp) (fun hu => ⟨hu, rfl⟩)
  · cases hk : s.algorithm.isSome with
    | true =>
      rw [outcome_some s s.op hk, hp]
      simp [carried, hk]
    | false =>
      rw [hp]
      simp only [carried, hk]
      split <;> simp_all
  · intro hk n hor
    rcases hor with hout | hmem
    · exact outcome_until s s.op hk (by simpa using hout)
    · simp [hcomp] at hmem

theorem bytesInv_complete {c : Completion ℕ} (hi : BytesInv size s) (hst : ReadOp.Stage s.op)
    (hp : s.op.pc = .complete c) : BytesInv size (afterLoop s (s.op.complete c)) := by
  have hcomp := hst.uncompleted (by simp [hp])
  have hmove (hcar : carried s.algorithm s.op.pc = 0)
      (htold : s.algorithm.isSome = true → told c = []) : BytesInv size (s.move (s.op.complete c)) := by
    refine hi.move rfl hcar.symm rfl ?_ ?_ (by simp) (by simp) (by simp)
      (fun hu => ⟨hu, rfl⟩)
    · intro hk n hor
      refine hi.value hk n (Or.inl ?_)
      have hc : .value n = c := by simpa [hcomp] using hor
      rw [hp, hc]
    · intro hk
      simp [htold hk]
  cases c with
  | error err =>
    simp only [afterLoop, hp]
    exact hmove (by simp [hp, carried]) (fun _ => rfl)
  | stopped =>
    simp only [afterLoop, hp]
    exact hmove (by simp [hp, carried]) (fun _ => rfl)
  | value n =>
    simp only [afterLoop, hp]
    cases hk : s.algorithm.isSome with
    | false =>
      rw [if_neg (by simp)]
      exact hmove (by simp [hp, carried, hk]) (by simp [hk])
    | true =>
      rw [if_pos rfl]
      have hdrop := not_dropped hi hst hp
      have hstream := hi.tell_stream (n := n) (by simp [hp, carried, hk]) hdrop
      refine ⟨?_, by simp [carried], by simp [hk], by simp [hk], ?_, by simp, by simp, by simp, ?_, hi.past⟩
      · simpa using hstream
      · intro _
        rw [BytesInv.tell_lengths, hi.single hk]
        simp [told]
      · intro hd
        exact (hd hdrop).elim

/-- A start, with the span that `read_some` keeps. -/
theorem BytesInv.start (hi : BytesInv size s) (hp : s.op.pc = .start)
    (h : BytesInv size (s.move t)) (hcar : carried s.algorithm t.pc = 0) (b : Span) :
    BytesInv size { s.move t with buf := b } := by
  have hnone : s.inFlight = none := by
    simpa [hp, carried] using hi.flight
  refine ⟨h.stream, ?_, h.total, h.value, h.single, h.unasked, h.asking, h.unstarted, h.stop, h.past⟩
  simp [hnone, hcar]

theorem bytesInv_op {act : ReadOp.Action Unit} (hi : BytesInv size s) (hst : ReadOp.Stage s.op)
    (ha : isRead act = false) (h : ReadOp.Step (s.algorithm.opState size) s.op act t) :
    BytesInv size (afterStep s act t) := by
  have hstep := h
  cases h with
  | startFailed err hp he =>
    have hmove := hi.plain hstep rfl (by simp [hp, carried]) rfl rfl (by simp) (by simp) (by simp)
    exact hi.start hp hmove (by simp [carried]) _
  | start err hp he =>
    have hmove := hi.plain hstep rfl (by simp [hp, carried]) rfl rfl (by simp) (by simp) (by simp)
    exact hi.start hp hmove (by simp [carried]) _
  | startError err hp =>
    have hcomp := hst.uncompleted (by simp [hp])
    have hafter : afterStep s .loop (s.op.complete (.error err)) = s.move (s.op.complete (.error err)) := by
      simp [afterStep, afterLoop, hp]
    rw [hafter]
    refine hi.move rfl (by simp [hp, carried]) rfl ?_ ?_ (by simp) (by simp) (by simp)
      (SocketReads.kept_of_step hstep).used
    · intro _ n hor
      simp [hcomp] at hor
    · intro _
      simp [hcomp, told]
  | emplace hp | setup hp | setupDone hp | resetUnsafe op hp | stopReadStop hp =>
    have hafter (t : Op κ) : afterStep s .loop t = s.move t := by simp [afterStep, afterLoop, hp]
    rw [hafter]
    exact hi.plain hstep rfl (by simp [hp, carried]) rfl rfl (by simp) (by simp) (by simp)
  | readCallback nrd addr hp => exact bytesInv_readCallback hi hst hp
  | condition nrd addr hp => exact bytesInv_condition hi hst hp
  | lost nrd addr hp hu =>
    have hafter (t : Op κ) : afterStep s .loop t = s.drop t := by
      simp [afterStep, afterLoop, hp, hu]
    rw [hafter]
    exact hi.drop rfl rfl rfl (fun hu => ⟨hu, rfl⟩) (fun _ => ⟨hu, hst.stop_of_used (by rw [hp]; rfl) hu⟩)
  | won nrd addr hp hu =>
    have hafter (t : Op κ) : afterStep s .loop t = s.move t := by
      simp [afterStep, afterLoop, hp, hu]
    rw [hafter]
    exact hi.plain hstep rfl (by simp [hp, carried]) rfl rfl (by simp) (by simp) (by simp)
  | reset nrd addr op hp hr =>
    have hafter (t : Op κ) : afterStep s .loop t = s.move t := by simp [afterStep, afterLoop, hp]
    rw [hafter]
    exact hi.plain hstep rfl (by simp [hp, carried]) rfl rfl (by simp) (by simp) (by simp)
  | readStop nrd addr hp =>
    have hafter (t : Op κ) : afterStep s .loop t = s.move t := by simp [afterStep, afterLoop, hp]
    rw [hafter]
    exact bytesInv_readStop hi (hst.uncompleted (by simp [hp])) hp
  | complete c hp => exact bytesInv_complete hi hst hp
  | read nrd addr hp hread => cases ha
  | apply hp hq => exact hi.plain hstep rfl (by simp [hp, carried]) rfl rfl (by simp) (by simp) (by simp)
  | requestStop => exact hi.plain hstep rfl rfl rfl rfl (fun _ hp => hp) (fun _ _ hp => hp) (fun hp => ⟨hp, rfl⟩)
  | callback op hop =>
    exact hi.plain hstep rfl rfl rfl rfl (fun _ hp => hp) (fun _ _ hp => hp) (fun hp => ⟨hp, rfl⟩)

/-! ### One step of the stream -/

/-- A callback without data. -/
theorem bytesInv_fail {err : Int} (hi : BytesInv size s) (herr : err ≤ 0)
    (h : ReadOp.Step (s.algorithm.opState size) s.op (.read err none) t) : BytesInv size (s.move t) := by
  have hstep := h
  cases h with
  | read _ _ hp hread =>
    have hzero : err.toNat = 0 := by omega
    exact hi.plain hstep rfl (by simp [hp, carried, hzero]) rfl rfl (by simp) (by simp) (by simp)

/-- libuv hands over a chunk that it has written to the span. -/
theorem bytesInv_read {n : ℕ} (hi : BytesInv size s) (hpos : 0 < n) (hin : n ≤ s.incoming.length)
    (h : ReadOp.Step (s.algorithm.opState size) s.op (.read n none) t) : BytesInv size
      { s with
        op := write s (s.incoming.take n) t
        incoming := s.incoming.drop n
        inFlight := some (s.incoming.take n) } := by
  have hkept := (SocketReads.kept_of_step h).used
  cases h with
  | read _ _ hp hread =>
    have hnone : s.inFlight = none := by
      simpa [hp, carried] using hi.flight
    have hlen : (s.incoming.take n).length = n := by
      rw [List.length_take]
      omega
    refine ⟨?_, ?_, hi.total, ?_, hi.single, by simp [write], by simp [write], by simp [write], ?_, hi.past⟩
    · have hstream := hi.stream
      rw [hnone] at hstream
      rw [hstream]
      simp
    · have hne : n ≠ 0 := by omega
      have hload : seen { s with op := write s (s.incoming.take n) s.op } n = s.incoming.take n := by
        have hstored := Memory.load_store s.op.conditionState.memory (allocateBuf s).data
          (s.incoming.take n)
        rw [hlen] at hstored
        cases halg : s.algorithm with
        | readSome => simpa [seen, write, allocateBuf, halg] using hstored
        | readUntil cond => simpa [seen, write, allocateBuf, halg] using hstored
      have hcar : carried s.algorithm (.readCallback (n : Int) (none : Option Unit)) = n := by
        simp [carried]
      change some (s.incoming.take n) = if carried s.algorithm (.readCallback (n : Int) none) = 0 then none
        else some (seen { s with op := write s (s.incoming.take n) s.op }
          (carried s.algorithm (.readCallback (n : Int) none)))
      rw [hcar, if_neg hne, hload]
    · intro hk m hor
      refine hi.value hk m (Or.inr ?_)
      simpa [write] using hor
    · intro hd
      obtain ⟨hu, ht⟩ := hi.stop hd
      obtain ⟨hu', ht'⟩ := hkept hu
      exact ⟨hu', ht'.trans ht⟩

/-- An operation that has completed has told the program the truth. -/
theorem honest_report (hi : BytesInv size s) (hst : ReadOp.Stage s.op) (hcomp : s.op.completions ≠ []) :
    (report s).Honest size := by
  refine ⟨hi.single, ?_, ?_⟩
  · intro hk n hn
    rw [hi.value hk n (Or.inr hn)]
    exact hi.total hk
  · intro hd
    exact hst.completions_of_stop hcomp (hi.stop hd).2

theorem BytesInv.arrive (hi : BytesInv size s) (bytes : Bytes) :
    BytesInv size { s with incoming := s.incoming ++ bytes, arrived := s.arrived ++ bytes } := by
  refine ⟨?_, hi.flight, hi.total, hi.value, hi.single, hi.unasked, hi.asking, hi.unstarted, hi.stop, hi.past⟩
  have hstream := hi.stream
  simp only [← List.append_assoc, hstream]

/-- The user's code between the callbacks finds no chunk on its way. -/
theorem BytesInv.touch (hi : BytesInv size s) (hp : s.op.pc = .idle ∨ s.op.pc = .start) (b : Buffers κ) :
    BytesInv size (s.move { s.op with conditionState := b }) := by
  have hzero : carried s.algorithm s.op.pc = 0 := by
    rcases hp with hidle | hstart
    · rw [hidle]
      rfl
    · rw [hstart]
      rfl
  refine ⟨hi.stream, ?_, hi.total, hi.value, hi.single, hi.unasked, hi.asking, hi.unstarted, hi.stop, hi.past⟩
  have hflight := hi.flight
  rw [hzero] at hflight
  simp only [hzero]
  exact hflight

/-- The next operation finds the bytes that the one before it has left. -/
theorem BytesInv.next (hi : BytesInv size s) (hst : ReadOp.Stage s.op) (hcomp : s.op.completions ≠ [])
    (hp : s.op.pc = .idle) (algorithm : Algorithm κ) : BytesInv size
      { s with
        algorithm := algorithm
        op := { conditionState := s.op.conditionState }
        shown := []
        dropped := []
        past := s.past ++ [report s] } := by
  have hnone : s.inFlight = none := by simpa [hp, carried] using hi.flight
  refine ⟨?_, ?_, fun _ => rfl, by simp, fun _ => rfl, by simp, fun _ _ _ => rfl, fun _ => rfl,
    by simp, ?_⟩
  · rw [hi.stream, hnone]
    simp [Report.chunks, report]
  · exact hnone
  · intro r hr
    rcases List.mem_append.mp hr with hmem | hlast
    · exact hi.past r hmem
    · rw [List.mem_singleton.mp hlast]
      exact honest_report hi hst hcomp

theorem bytesInv_step (hi : BytesInv size s) (hst : ReadOp.Stage s.op) (h : Step size s a s') : BytesInv size s' := by
  cases h with
  | arrive bytes => exact hi.arrive bytes
  | touch b hp => exact hi.touch hp b
  | noBuffers n t hsize ht => exact bytesInv_fail hi (by decide) ht
  | read n t hpos hsize hin ht => exact bytesInv_read hi hpos hin ht
  | fail err t herr ht => exact bytesInv_fail hi herr ht
  | op act t ha ht => exact bytesInv_op hi hst ha ht
  | next algorithm hcomp hp => exact hi.next hst hcomp hp algorithm

end

/-! ### The whole stream -/

/-- Nothing is lost, made up or moved: the bytes that have arrived are those that
the program was told of, in the order of their arrival, with the chunks that
stopped operations have dropped, and the rest is still to be read. -/
structure Intact (size : ℕ) (s : State κ) : Prop where
  stream : s.arrived =
    (s.past.flatMap Report.chunks ++ s.shown ++ s.dropped ++ s.inFlight.toList).flatten ++ s.incoming
  honest : ∀ r ∈ s.past, r.Honest size
  current : s.op.completions ≠ [] → (report s).Honest size
  kept : (∀ r ∈ s.past, r.completions ≠ [.stopped]) → s.op.op.taker ≠ some .stop →
    (s.past.flatMap Report.shown ++ s.shown).flatten <+: s.arrived

theorem reachable_bytesInv (h : (system size : System (State κ) (Action κ)).Reachable s) :
    BytesInv size s ∧ ReadOp.Stage s.op := by
  refine System.Reachable.invariant (I := fun s => BytesInv size s ∧ ReadOp.Stage s.op) ?_ ?_ h
  · rintro s ⟨algorithm, c, rfl⟩
    refine ⟨⟨rfl, rfl, fun _ => rfl, by simp, fun _ => rfl, by simp, fun _ _ _ => rfl, fun _ => rfl,
      by simp, by simp⟩, ReadOp.stage_initial c⟩
  · intro s a s' ⟨hi, hst⟩ hstep
    have hs := step_cases hstep
    exact ⟨bytesInv_step hi hst hs, stage_step hst hi.unstarted hs⟩

theorem chunks_of_undropped {past : List Report} (h : ∀ r ∈ past, r.Honest size)
    (hstopped : ∀ r ∈ past, r.completions ≠ [.stopped]) :
    past.flatMap Report.chunks = past.flatMap Report.shown := by
  induction past with
  | nil => rfl
  | cons r past ih =>
    have hnil : r.dropped = [] := by
      by_contra hd
      exact hstopped r (by simp) ((h r (by simp)).dropped hd)
    have htail := ih (fun q hq => h q (by simp [hq])) (fun q hq => hstopped q (by simp [hq]))
    rw [List.flatMap_cons, List.flatMap_cons, htail, Report.chunks, hnil, List.append_nil]

/-- Reading a stream with any operations, however they end. -/
theorem stream_intact (h : (system size : System (State κ) (Action κ)).Reachable s) : Intact size s := by
  obtain ⟨hi, hst⟩ := reachable_bytesInv h
  refine ⟨hi.stream, hi.past, honest_report hi hst, ?_⟩
  intro hpast htaker
  have hdrop : s.dropped = [] := by
    by_contra hd
    exact htaker (hi.stop hd).2
  have hstream := hi.stream
  rw [chunks_of_undropped hi.past hpast, hdrop] at hstream
  refine ⟨s.inFlight.toList.flatten ++ s.incoming, ?_⟩
  rw [hstream]
  simp

/-- `read_until` counts the bytes down from its span, and never has enough. -/
def untilFull : Algorithm Unit :=
  .readUntil fun b n => (false, { b with buff := ⟨b.buff.data + n, b.buff.size - n⟩ })

def fourBytes : State Unit where
  algorithm := .readSome
  op := { conditionState := ⟨fun _ => 0, ⟨16, 4⟩, ()⟩ }

/-- Two bytes are read by `read_some`. `read_until` is told of the third one, and
drops the fourth as it is stopped. -/
def stoppedReading : List (Action Unit) :=
  .arrive [1, 2, 3, 4, 5] :: .op (.start 0) :: List.replicate 3 (.op .loop) ++
    .read 2 :: List.replicate 5 (.op .loop) ++
    .next untilFull :: .op (.start 0) :: List.replicate 3 (.op .loop) ++
    .read 1 :: List.replicate 2 (.op .loop) ++
    .read 1 :: .op .requestStop :: List.replicate 3 (.op .callback) ++
    .op .loop :: .op .apply :: List.replicate 3 (.op .loop)

theorem stream_intact_stopped : ∃ s : State Unit, (system UInt64.size).exec fourBytes stoppedReading = some s ∧
    s.past.map Report.shown = [[[1, 2]]] ∧ s.shown = [[3]] ∧ s.dropped = [[4]] ∧ Intact UInt64.size s := by
  have hrun : ((system UInt64.size).exec fourBytes stoppedReading).map
      (fun s => (s.past.map Report.shown, s.shown, s.dropped)) =
      some ([[[1, 2]]], [[3]], [[4]]) := by decide +kernel
  obtain ⟨s, hs, hout⟩ := Option.map_eq_some_iff.mp hrun
  obtain ⟨hpast, hshown, hdropped⟩ : s.past.map Report.shown = [[[1, 2]]] ∧ s.shown = [[3]] ∧
      s.dropped = [[4]] := by
    simpa only [Prod.mk.injEq] using hout
  have hinit : (system UInt64.size : System (State Unit) (Action Unit)).initial fourBytes := ⟨_, _, rfl⟩
  have hreach := System.reachable_exec _ (.initial hinit) hs
  exact ⟨s, hs, hpast, hshown, hdropped, stream_intact hreach⟩

/-! ### Where libuv writes -/

def Span.Within (region : Set ℕ) (b : Span) : Prop :=
  ∀ i, b.data ≤ i → i < b.data + b.size → i ∈ region

/-- The user's code moves the span inside the region, and writes only there. -/
structure Buffers.Keeps (region : Set ℕ) (b b' : Buffers κ) : Prop where
  buff : b.buff.Within region → b'.buff.Within region
  memory : ∀ i, i ∉ region → b'.memory i = b.memory i

def Algorithm.Keeps (region : Set ℕ) : Algorithm κ → Prop
  | .readSome => True
  | .readUntil condition => ∀ (b : Buffers κ) n, b.Keeps region (condition b n).2

/-- The assumption on the user's code that runs in a step. -/
def Confined (region : Set ℕ) (s : State κ) : Action κ → Prop
  | .touch b => s.op.conditionState.Keeps region b
  | .next algorithm => algorithm.Keeps region
  | .arrive _ | .read _ | .fail _ | .op _ => True

/-- `read_some` writes through its own copy of the span. -/
structure Guarded (region : Set ℕ) (s : State κ) : Prop where
  algorithm : s.algorithm.Keeps region
  buff : s.op.conditionState.buff.Within region
  buf : s.buf.Within region

variable {region : Set ℕ}

theorem Buffers.Keeps.refl (b : Buffers κ) : b.Keeps region b := ⟨id, fun _ _ => rfl⟩

theorem Guarded.within (hg : Guarded region s) : (allocateBuf s).Within region := by
  unfold allocateBuf
  split
  · exact hg.buf
  · exact hg.buff

theorem keeps_op {k : Algorithm κ} {t t' : Op κ} {act : ReadOp.Action Unit} (hk : k.Keeps region)
    (h : ReadOp.Step (k.opState size) t act t') : t.conditionState.Keeps region t'.conditionState := by
  cases h with
  | condition nrd addr hp =>
    cases k with
    | readSome => exact .refl _
    | readUntil cond =>
      simp only [Algorithm.opState, ReadOp.OpState.condition]
      split
      · exact .refl _
      · split
        · exact hk _ _
        · exact .refl _
  | _ => exact .refl _

theorem keeps_step (hg : Guarded region s) (hok : Confined region s a) (h : Step size s a s') :
    Guarded region s' ∧ ∀ i, i ∉ region → s'.op.conditionState.memory i = s.op.conditionState.memory i := by
  have hmove {t : Op κ} (ht : s.op.conditionState.Keeps region t.conditionState) :
      Guarded region (s.move t) :=
    ⟨hg.algorithm, ht.buff hg.buff, hg.buf⟩
  cases h with
  | arrive bytes => exact ⟨⟨hg.algorithm, hg.buff, hg.buf⟩, fun _ _ => rfl⟩
  | touch b hp => exact ⟨hmove hok, hok.memory⟩
  | noBuffers n t hsize ht | fail err t herr ht =>
    have hkeeps := keeps_op hg.algorithm ht
    exact ⟨hmove hkeeps, hkeeps.memory⟩
  | read n t hpos hsize hin ht =>
    have hkeeps := keeps_op hg.algorithm ht
    refine ⟨⟨hg.algorithm, hkeeps.buff hg.buff, hg.buf⟩, ?_⟩
    intro i hi
    have hlen : (s.incoming.take n).length = n := by
      rw [List.length_take]
      omega
    have hout : i < (allocateBuf s).data ∨ (allocateBuf s).data + (s.incoming.take n).length ≤ i := by
      by_contra hne
      exact hi (hg.within i (by omega) (by omega))
    have hframe := Memory.store_outside t.conditionState.memory (allocateBuf s).data _ hout
    exact hframe.trans (hkeeps.memory i hi)
  | op act t ha ht =>
    have hkeeps := keeps_op hg.algorithm ht
    refine ⟨?_, ?_⟩
    · cases act with
      | start err => exact ⟨hg.algorithm, hkeeps.buff hg.buff, hg.buff⟩
      | loop =>
        simp only [afterStep, afterLoop]
        repeat' split
        all_goals exact ⟨hg.algorithm, hkeeps.buff hg.buff, hg.buf⟩
      | _ => exact hmove hkeeps
    · rw [afterStep_op]
      exact hkeeps.memory
  | next algorithm hcomp hp => exact ⟨⟨hok, hg.buff, hg.buf⟩, fun _ _ => rfl⟩

/-- Memory safety: where the user's code keeps its spans inside a region, libuv
never writes outside of it, however the operations follow each other. -/
theorem writes_confined (as : List (Action κ)) (hg : Guarded region s)
    (hok : (system size).Admitted (Confined region) s as) (h : (system size).exec s as = some s') :
    ∀ i, i ∉ region → s'.op.conditionState.memory i = s.op.conditionState.memory i := by
  have hrun : Guarded region s' ∧
      ∀ i, i ∉ region → s'.op.conditionState.memory i = s.op.conditionState.memory i := by
    refine System.exec_labels_via (S := system size) (I := fun _ u => Guarded region u ∧
      ∀ i, i ∉ region → u.op.conditionState.memory i = s.op.conditionState.memory i) ?_ as
      ⟨hg, fun _ _ => rfl⟩ hok h
    intro _ u a u' ⟨hgu, hmem⟩ hoku hu
    obtain ⟨hgu', hmem'⟩ := keeps_step hgu hoku (step_cases hu)
    exact ⟨hgu', fun i hi => (hmem' i hi).trans (hmem i hi)⟩
  exact hrun.2

def fourAddresses : Set ℕ := {i | 16 ≤ i ∧ i < 20}

theorem untilFull_keeps : untilFull.Keeps region := by
  intro b n
  refine ⟨?_, fun _ _ => rfl⟩
  intro hin i hlo hhi
  exact hin i (by simp only at hlo; omega) (by simp only at hlo hhi; omega)

theorem writes_confined_stopped : ∃ s : State Unit, (system UInt64.size).exec fourBytes stoppedReading = some s ∧
    Memory.load s.op.conditionState.memory 16 4 = [3, 4, 0, 0] ∧
    ∀ i, i ∉ fourAddresses → s.op.conditionState.memory i = 0 := by
  have hrun : ((system UInt64.size).exec fourBytes stoppedReading).map
      (fun s => Memory.load s.op.conditionState.memory 16 4) = some [3, 4, 0, 0] := by decide +kernel
  obtain ⟨s, hs, hload⟩ := Option.map_eq_some_iff.mp hrun
  have hguard : Guarded fourAddresses fourBytes := by
    refine ⟨trivial, ?_, ?_⟩
    · intro i hlo hhi
      exact ⟨hlo, hhi⟩
    · intro i hlo hhi
      exact absurd hhi (Nat.not_lt.mpr hlo)
  have hok : (system UInt64.size).Admitted (Confined fourAddresses) fourBytes stoppedReading := by
    refine System.Admitted.of_forall ?_ fourBytes
    intro a ha t
    cases a with
    | touch b => simp [stoppedReading] at ha
    | next algorithm =>
      have halg : algorithm = untilFull := by simpa [stoppedReading] using ha
      rw [halg]
      exact untilFull_keeps
    | arrive bytes | read n | fail err | op act => trivial
  exact ⟨s, hs, hload, writes_confined stoppedReading hguard hok hs⟩

end UvExec.StreamBytes
