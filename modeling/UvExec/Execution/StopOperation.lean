import UvExec.Execution.Receiver
import UvExec.Lib.StopToken
import Mathlib.Data.Nat.Notation

/-! # `TLoop::TStopOperation` (execution/loop.hpp)

The flag `Used` decides between the completion of an operation and its stop
callback, which queues the stop operation on the loop. Each access to the flag
or to the callback object is a function of its own. -/

namespace UvExec
open Lib

inductive StopCallbackPc where
  | testAndSet
  | schedule
  | exit
  deriving DecidableEq, Repr

inductive Taker where
  | completion
  | stop
  deriving DecidableEq, Repr

/-- Who completes a receiver with that signal. -/
def Completion.taker {β : Type} : Completion β → Taker
  | .stopped => .stop
  | .value _ | .error _ => .completion

/- `queued` counts the occurrences in the loop's operation list, whose `Apply`
has not begun. `pushes` and `taker` are history: the calls of `Schedule`, and
whose `test_and_set` found the flag clear. -/
structure TStopOperation where
  token : StopToken StopCallbackPc := {}
  used : Bool := false
  engaged : Bool := false
  queued : ℕ := 0
  pushes : ℕ := 0
  taker : Option Taker := none
  deriving DecidableEq, Repr

namespace TStopOperation

def requestStop (op : TStopOperation) : TStopOperation :=
  { op with token := op.token.request .testAndSet }

/-- `Setup`, up to the end of the callback's constructor. -/
def setup (op : TStopOperation) : TStopOperation :=
  { op with token := op.token.construct .testAndSet }

/-- The end of `Setup`, after the constructor has returned. -/
def setupDone (op : TStopOperation) : Option TStopOperation :=
  match op.token.callback with
  | .running true _ => none
  | _ => some { op with engaged := true }

def testAndSet (op : TStopOperation) (t : Taker) : TStopOperation × Bool :=
  if op.used then (op, true) else ({ op with used := true, taker := some t }, false)

def resetCallback (op : TStopOperation) : Option TStopOperation :=
  if op.engaged then op.token.destroy.map fun t => { op with token := t, engaged := false }
  else some op

def unused (op : TStopOperation) : Bool := !op.used

def setCallback (op : TStopOperation) (c : Registration StopCallbackPc) : TStopOperation :=
  { op with token := { op.token with callback := c } }

def callbackStep (op : TStopOperation) : Option TStopOperation :=
  match op.token.callback with
  | .running i .testAndSet =>
    let (op, used) := op.testAndSet .stop
    some (op.setCallback (.running i (if used then .exit else .schedule)))
  | .running i .schedule =>
    some ({ op with queued := op.queued + 1, pushes := op.pushes + 1 }.setCallback (.running i .exit))
  | .running _ .exit => some (op.setCallback .executed)
  | _ => none

/-- `ApplyOperations` takes the operation off the list and begins `Apply`. -/
def beginApply (op : TStopOperation) : Option TStopOperation :=
  if 0 < op.queued then some { op with queued := op.queued - 1 } else none

/-! ### Who takes the flag -/

/-- The callback has taken the flag and has yet to queue the operation. -/
def scheduling (op : TStopOperation) : Bool :=
  match op.token.callback with
  | .running _ .schedule => true
  | .running _ .testAndSet | .running _ .exit | .absent | .registered | .executed => false

/-- `Used` is taken once, and the operation is queued once by the callback if it
was the callback that took it, and never otherwise. -/
structure Inv (op : TStopOperation) : Prop where
  used : op.used = true ↔ op.taker ≠ none
  pushed : op.taker = some .stop → op.pushes = if op.scheduling then 0 else 1
  clear : op.taker ≠ some .stop → op.pushes = 0 ∧ op.scheduling = false
  queued : op.queued ≤ op.pushes
  requested : op.taker = some .stop → op.token.requested = true
  invoked : ∀ i p, op.token.callback = .running i p → op.token.requested = true

variable {op op' : TStopOperation}

theorem Inv.initial : Inv {} := by
  constructor <;> simp [scheduling]

theorem Inv.pushes_le (h : Inv op) : op.pushes ≤ 1 := by
  by_cases ht : op.taker = some .stop
  · rw [h.pushed ht]
    split <;> omega
  · have hc := (h.clear ht).1
    omega

theorem scheduling_requestStop (op : TStopOperation) : op.requestStop.scheduling = op.scheduling := by
  unfold scheduling requestStop
  rcases op.token.request_cases .testAndSet with ⟨h, h'⟩ | ⟨-, h'⟩
  · simp [h, h']
  · simp [h']

theorem Inv.requestStop (h : Inv op) : Inv op.requestStop := by
  obtain ⟨hu, hp, hc, hq, -, -⟩ := h
  rw [← scheduling_requestStop] at hp hc
  exact ⟨hu, hp, hc, hq, fun _ => rfl, fun _ _ _ => rfl⟩

theorem Inv.setup (h : Inv op) (habs : op.token.callback = .absent) : Inv op.setup := by
  obtain ⟨hu, hp, hc, hq, hr, hi⟩ := h
  have hold : op.scheduling = false := by simp [scheduling, habs]
  have hnew : op.setup.scheduling = false := by
    simp only [TStopOperation.setup, scheduling, StopToken.construct]
    cases op.token.requested <;> rfl
  rw [hold] at hp hc
  refine ⟨hu, ?_, ?_, hq, hr, ?_⟩
  · rw [hnew]
    exact hp
  · rw [hnew]
    exact hc
  · intro i p hrun
    simp only [TStopOperation.setup, StopToken.construct] at hrun ⊢
    split at hrun
    · assumption
    · cases hrun

theorem setupDone_eq_some (h : op.setupDone = some op') :
    (∀ p, op.token.callback ≠ .running true p) ∧ op' = { op with engaged := true } := by
  simp only [setupDone] at h
  split at h
  · cases h
  next hc => exact ⟨hc, (Option.some.inj h).symm⟩

theorem Inv.engage (h : Inv op) : Inv { op with engaged := true } :=
  ⟨h.used, h.pushed, h.clear, h.queued, h.requested, h.invoked⟩

theorem Inv.taker_none (h : Inv op) (hu : op.used = false) : op.taker = none := by
  by_contra hne
  simp [h.used.mpr hne] at hu

theorem testAndSet_cases (op : TStopOperation) (t : Taker) :
    (op.used = true ∧ op.testAndSet t = (op, true)) ∨
    (op.used = false ∧ op.testAndSet t = ({ op with used := true, taker := some t }, false)) := by
  cases h : op.used <;> simp [testAndSet, h]

theorem Inv.testAndSet (h : Inv op) : Inv (op.testAndSet .completion).1 := by
  rcases op.testAndSet_cases .completion with ⟨-, ht⟩ | ⟨hu, ht⟩
  · rw [ht]
    exact h
  · have hclear := h.clear (by simp [h.taker_none hu])
    rw [ht]
    exact ⟨by simp, by simp, fun _ => hclear, h.queued, by simp, h.invoked⟩

theorem resetCallback_cases (h : op.resetCallback = some op') :
    (op.engaged = false ∧ op' = op) ∨
    (op.engaged = true ∧ (∀ i p, op.token.callback ≠ .running i p) ∧
      op' = { op with token := { op.token with callback := .absent }, engaged := false }) := by
  simp only [resetCallback] at h
  split at h
  · obtain ⟨t, ht, rfl⟩ := Option.map_eq_some_iff.mp h
    obtain ⟨hrun, rfl⟩ := StopToken.destroy_eq_some ht
    exact Or.inr ⟨‹_›, hrun, rfl⟩
  next hne => exact Or.inl ⟨by simpa using hne, (Option.some.inj h).symm⟩

theorem resetCallback_taker (h : op.resetCallback = some op') : op'.taker = op.taker := by
  rcases resetCallback_cases h with ⟨-, rfl⟩ | ⟨-, -, rfl⟩ <;> rfl

theorem Inv.resetCallback (h : Inv op) (hs : op.resetCallback = some op') : Inv op' := by
  rcases resetCallback_cases hs with ⟨-, rfl⟩ | ⟨-, hrun, rfl⟩
  · exact h
  · obtain ⟨hu, hp, hc, hq, hr, hi⟩ := h
    have hold : op.scheduling = false := by
      unfold scheduling
      split
      · exact (hrun _ _ ‹_›).elim
      all_goals rfl
    rw [hold] at hp hc
    exact ⟨hu, hp, hc, hq, hr, by simp⟩

theorem callbackStep_cases (h : op.callbackStep = some op') : ∃ i,
    (op.token.callback = .running i .testAndSet ∧ op.used = true ∧
      op' = op.setCallback (.running i .exit)) ∨
    (op.token.callback = .running i .testAndSet ∧ op.used = false ∧
      op' = { op with used := true, taker := some .stop }.setCallback (.running i .schedule)) ∨
    (op.token.callback = .running i .schedule ∧
      op' = { op with queued := op.queued + 1, pushes := op.pushes + 1 }.setCallback
        (.running i .exit)) ∨
    (op.token.callback = .running i .exit ∧ op' = op.setCallback .executed) := by
  simp only [callbackStep] at h
  split at h
  next i hc =>
    rcases op.testAndSet_cases .stop with ⟨hu, ht⟩ | ⟨hu, ht⟩
    · rw [ht] at h
      exact ⟨i, Or.inl ⟨hc, hu, (Option.some.inj h).symm⟩⟩
    · rw [ht] at h
      exact ⟨i, Or.inr (Or.inl ⟨hc, hu, (Option.some.inj h).symm⟩)⟩
  next i hc => exact ⟨i, Or.inr (Or.inr (Or.inl ⟨hc, (Option.some.inj h).symm⟩))⟩
  next i hc => exact ⟨i, Or.inr (Or.inr (Or.inr ⟨hc, (Option.some.inj h).symm⟩))⟩
  · cases h

theorem callbackStep_isSome {i : Bool} {p : StopCallbackPc}
    (h : op.token.callback = .running i p) : op.callbackStep.isSome := by
  cases p <;> simp [callbackStep, h]

theorem setupDone_progress (op : TStopOperation) : op.setupDone.isSome ∨ op.callbackStep.isSome := by
  cases hc : op.token.callback with
  | running i p => exact Or.inr (callbackStep_isSome hc)
  | _ => exact Or.inl (by simp [setupDone, hc])

theorem resetCallback_progress (op : TStopOperation) :
    op.resetCallback.isSome ∨ op.callbackStep.isSome := by
  cases hc : op.token.callback with
  | running i p => exact Or.inr (callbackStep_isSome hc)
  | _ =>
    left
    cases he : op.engaged <;> simp [resetCallback, StopToken.destroy, hc, he]

theorem callbackStep_taker (h : op.callbackStep = some op') :
    op'.taker = op.taker ∨ op'.taker = some .stop := by
  obtain ⟨i, hcase⟩ := callbackStep_cases h
  rcases hcase with ⟨-, -, rfl⟩ | ⟨-, -, rfl⟩ | ⟨-, rfl⟩ | ⟨-, rfl⟩
  · exact Or.inl rfl
  · exact Or.inr rfl
  · exact Or.inl rfl
  · exact Or.inl rfl

/-- The callback runs inside of a callback object, which it leaves where it is. -/
theorem callbackStep_frame (h : op.callbackStep = some op') :
    op.token.callback ≠ .absent ∧ op'.token.callback ≠ .absent ∧ op'.engaged = op.engaged := by
  obtain ⟨i, hcase⟩ := callbackStep_cases h
  rcases hcase with ⟨hpc, -, rfl⟩ | ⟨hpc, -, rfl⟩ | ⟨hpc, rfl⟩ | ⟨hpc, rfl⟩ <;>
    simp [hpc, setCallback]

theorem requestStop_absent (h : op.token.callback = .absent) :
    op.requestStop.token.callback = .absent := by
  simp [TStopOperation.requestStop, StopToken.request, h]

theorem Inv.callbackStep (h : Inv op) (hs : op.callbackStep = some op') : Inv op' := by
  obtain ⟨hu, hp, hc, hq, hr, hi⟩ := id h
  obtain ⟨i, hcase⟩ := callbackStep_cases hs
  rcases hcase with ⟨hpc, hused, rfl⟩ | ⟨hpc, hused, rfl⟩ | ⟨hpc, rfl⟩ | ⟨hpc, rfl⟩
  · simp only [scheduling, hpc] at hp hc
    exact ⟨hu, by simpa [setCallback, scheduling] using hp,
      by simpa [setCallback, scheduling] using hc, hq, hr, fun _ _ _ => hi _ _ hpc⟩
  · have hclear := hc (by simp [h.taker_none hused])
    refine ⟨by simp [setCallback], fun _ => ?_, by simp [setCallback], hq, fun _ => hi _ _ hpc,
      fun _ _ _ => hi _ _ hpc⟩
    simpa [setCallback, scheduling] using hclear.1
  · have hstop : op.taker = some .stop := by
      by_contra hne
      have hno := (hc hne).2
      simp [scheduling, hpc] at hno
    have hzero : op.pushes = 0 := by
      rw [hp hstop]
      simp [scheduling, hpc]
    refine ⟨hu, fun _ => ?_, fun hne => (hne hstop).elim, Nat.succ_le_succ hq, hr,
      fun _ _ _ => hi _ _ hpc⟩
    simp [setCallback, scheduling, hzero]
  · simp only [scheduling, hpc] at hp hc
    exact ⟨hu, by simpa [setCallback, scheduling] using hp,
      by simpa [setCallback, scheduling] using hc, hq, hr, by simp [setCallback]⟩

theorem beginApply_eq_some (h : op.beginApply = some op') :
    0 < op.queued ∧ op' = { op with queued := op.queued - 1 } := by
  simp only [beginApply] at h
  split at h
  · exact ⟨‹_›, (Option.some.inj h).symm⟩
  · cases h

theorem Inv.beginApply (h : Inv op) (hs : op.beginApply = some op') : Inv op' := by
  obtain ⟨-, rfl⟩ := beginApply_eq_some hs
  exact ⟨h.used, h.pushed, h.clear, Nat.le_trans (Nat.sub_le _ _) h.queued, h.requested, h.invoked⟩

theorem Inv.of_queued (h : Inv op) (hq : 0 < op.queued) :
    op.taker = some .stop ∧ op.scheduling = false ∧ op.pushes = 1 ∧ op.queued = 1 := by
  have hle := h.queued
  have ht : op.taker = some .stop := by
    by_contra hne
    have hc := (h.clear hne).1
    omega
  have hp := h.pushed ht
  cases hs : op.scheduling with
  | true =>
    simp only [hs, if_true] at hp
    omega
  | false =>
    simp only [hs, Bool.false_eq_true, if_false] at hp
    exact ⟨ht, rfl, hp, by omega⟩

theorem Inv.of_completion (h : Inv op) (ht : op.taker = some .completion) :
    op.queued = 0 ∧ op.scheduling = false := by
  have hc := h.clear (by simp [ht])
  have hle := h.queued
  exact ⟨by omega, hc.2⟩

/-- The flag is taken, and the stop callback has nothing left to queue. -/
structure Spent (op : TStopOperation) : Prop where
  used : op.used = true
  queued : op.queued = 0
  quiet : op.scheduling = false

theorem Spent.setup (h : Spent op) : Spent op.setup where
  used := h.used
  queued := h.queued
  quiet := by
    simp only [TStopOperation.setup, scheduling, StopToken.construct]
    cases op.token.requested <;> rfl

theorem Spent.requestStop (h : Spent op) : Spent op.requestStop :=
  ⟨h.used, h.queued, by rw [scheduling_requestStop]; exact h.quiet⟩

theorem Spent.resetCallback (h : Spent op) (hs : op.resetCallback = some op') : Spent op' := by
  rcases resetCallback_cases hs with ⟨-, rfl⟩ | ⟨-, -, rfl⟩
  · exact h
  · exact ⟨h.used, h.queued, rfl⟩

theorem Spent.callbackStep (h : Spent op) (hs : op.callbackStep = some op') : Spent op' := by
  obtain ⟨i, hcase⟩ := callbackStep_cases hs
  rcases hcase with ⟨-, -, rfl⟩ | ⟨-, hused, -⟩ | ⟨hpc, -⟩ | ⟨-, rfl⟩
  · exact ⟨h.used, h.queued, rfl⟩
  · simp [h.used] at hused
  · have hquiet := h.quiet
    simp [scheduling, hpc] at hquiet
  · exact ⟨h.used, h.queued, rfl⟩

theorem Inv.spent_of_taken (h : Inv op) (hu : op.used = false) :
    Spent { op with used := true, taker := some .completion } := by
  have hclear := h.clear (by simp [h.taker_none hu])
  exact ⟨rfl, Nat.le_zero.mp (hclear.1 ▸ h.queued), hclear.2⟩

theorem Inv.spent_of_queued (h : Inv op) (hq : 0 < op.queued) :
    Spent { op with queued := op.queued - 1 } := by
  obtain ⟨ht, hquiet, -, hone⟩ := h.of_queued hq
  exact ⟨h.used.mpr (by simp [ht]), by simp [hone], hquiet⟩

/-! ### Steps of other threads -/

/-- What a step of another thread can do: a stop callback that runs may take the
flag, and it queues nothing once another has taken it. -/
structure Foreign (op op' : TStopOperation) : Prop where
  taker : op'.taker = op.taker ∨ op.taker = none ∧ op'.taker = some .stop ∧
    op.token.callback ≠ .absent
  engaged : op'.engaged = op.engaged
  absent : op'.token.callback = .absent ↔ op.token.callback = .absent
  spent : Spent op → Spent op'

theorem requestStop_foreign (op : TStopOperation) : Foreign op op.requestStop := by
  refine ⟨Or.inl rfl, rfl, ⟨fun h => ?_, requestStop_absent⟩, Spent.requestStop⟩
  by_contra hne
  rcases op.token.request_cases .testAndSet with ⟨-, hrun⟩ | ⟨-, heq⟩
  · simp [TStopOperation.requestStop, hrun] at h
  · exact hne (heq ▸ h)

theorem Inv.callbackStep_foreign (h : Inv op) (hs : op.callbackStep = some op') : Foreign op op' := by
  obtain ⟨hne, hne', heng⟩ := callbackStep_frame hs
  refine ⟨?_, heng, iff_of_false hne' hne, fun hspent => hspent.callbackStep hs⟩
  obtain ⟨i, hcase⟩ := callbackStep_cases hs
  rcases hcase with ⟨-, -, rfl⟩ | ⟨-, hu, rfl⟩ | ⟨-, rfl⟩ | ⟨-, rfl⟩
  · exact Or.inl rfl
  · exact Or.inr ⟨h.taker_none hu, rfl, hne⟩
  · exact Or.inl rfl
  · exact Or.inl rfl

theorem Foreign.taker_some {t : Taker} (h : Foreign op op') (ht : op.taker = some t) :
    op'.taker = some t := by
  rcases h.taker with heq | ⟨hnone, -⟩
  · exact heq.trans ht
  · simp [hnone] at ht

theorem Foreign.completion (h : Foreign op op') (ht : op'.taker = some .completion) :
    op.taker = some .completion := by
  rcases h.taker with heq | ⟨-, hstop, -⟩
  · exact heq.symm.trans ht
  · simp [hstop] at ht

theorem Foreign.taker_of_absent (h : Foreign op op') (habs : op.token.callback = .absent) :
    op'.taker = op.taker := by
  rcases h.taker with heq | ⟨-, -, hne⟩
  · exact heq
  · exact (hne habs).elim

theorem Inv.spent (h : Inv op) {t : Taker} (ht : op.taker = some t) (hq : op.queued = 0)
    (hs : op.scheduling = false) : Spent op :=
  ⟨h.used.mpr (by simp [ht]), hq, hs⟩

/-! ### What comes of a request -/

/-- A registered callback has not been asked for, and one that has been gets the flag
taken. -/
structure Told (op : TStopOperation) : Prop where
  registered : op.token.callback = .registered → op.token.requested = false
  begun : ∀ i p, op.token.callback = .running i p → p = .testAndSet ∨ op.used = true
  executed : op.token.callback = .executed → op.used = true

theorem Told.initial : Told {} := by
  constructor <;> simp

theorem Told.requestStop (h : Told op) : Told op.requestStop := by
  rcases op.token.request_cases .testAndSet with ⟨-, hrun⟩ | ⟨hne, hkept⟩
  · have hcb : op.requestStop.token.callback = .running false .testAndSet := hrun
    refine ⟨by simp [hcb], fun i p hp => ?_, by simp [hcb]⟩
    rw [hcb] at hp
    cases hp
    exact Or.inl rfl
  · have hcb : op.requestStop.token.callback = op.token.callback := hkept
    refine ⟨fun hreg => (hne (hcb ▸ hreg)).elim, fun i p hp => h.begun i p (hcb ▸ hp),
      fun hex => h.executed (hcb ▸ hex)⟩

theorem Told.setup (op : TStopOperation) : Told op.setup := by
  cases hr : op.token.requested with
  | false => constructor <;> simp [TStopOperation.setup, StopToken.construct, hr]
  | true =>
    have hcb : op.setup.token.callback = .running true .testAndSet := by
      simp [TStopOperation.setup, StopToken.construct, hr]
    refine ⟨by simp [hcb], fun i p hp => ?_, by simp [hcb]⟩
    rw [hcb] at hp
    cases hp
    exact Or.inl rfl

theorem Told.take (h : Told op) (t : Taker) : Told { op with used := true, taker := some t } :=
  ⟨h.registered, fun _ _ _ => Or.inr rfl, fun _ => rfl⟩

theorem Told.resetCallback (h : Told op) (hs : op.resetCallback = some op') : Told op' := by
  rcases resetCallback_cases hs with ⟨-, rfl⟩ | ⟨-, -, rfl⟩
  · exact h
  · constructor <;> simp

theorem Told.callbackStep (h : Told op) (hs : op.callbackStep = some op') : Told op' := by
  obtain ⟨i, hcase⟩ := callbackStep_cases hs
  rcases hcase with ⟨-, hu, rfl⟩ | ⟨-, -, rfl⟩ | ⟨hpc, rfl⟩ | ⟨hpc, rfl⟩
  · exact ⟨by simp [setCallback], fun _ _ _ => Or.inr hu, fun _ => hu⟩
  · exact ⟨by simp [setCallback], fun _ _ _ => Or.inr rfl, fun _ => rfl⟩
  · have hu : op.used = true := (h.begun _ _ hpc).resolve_left (by simp)
    exact ⟨by simp [setCallback], fun _ _ _ => Or.inr hu, fun _ => hu⟩
  · have hu : op.used = true := (h.begun _ _ hpc).resolve_left (by simp)
    exact ⟨by simp [setCallback], fun _ _ _ => Or.inr hu, fun _ => hu⟩

/-- A stop operation that its callback has handed to the loop, and the loop to `Apply`. -/
def Handed (op : TStopOperation) : Prop :=
  op.taker = some .stop ∧ op.queued = 0 ∧ op.scheduling = false

theorem handed_requestStop (h : Handed op.requestStop) : Handed op :=
  ⟨h.1, h.2.1, (scheduling_requestStop op).symm.trans h.2.2⟩

theorem handed_callbackStep (hs : op.callbackStep = some op') (h : Handed op') : Handed op := by
  obtain ⟨ht, hq, hsched⟩ := h
  obtain ⟨i, hcase⟩ := callbackStep_cases hs
  rcases hcase with ⟨hpc, -, rfl⟩ | ⟨-, -, rfl⟩ | ⟨-, rfl⟩ | ⟨hpc, rfl⟩
  · exact ⟨ht, hq, by simp [scheduling, hpc]⟩
  · simp [setCallback, scheduling] at hsched
  · simp [setCallback] at hq
  · exact ⟨ht, hq, by simp [scheduling, hpc]⟩

theorem scheduling_of_not_running (hrun : ∀ i p, op.token.callback ≠ .running i p) :
    op.scheduling = false := by
  unfold scheduling
  split
  next i hc => exact (hrun _ _ hc).elim
  all_goals rfl

/-- Without a callback that runs or waits to be asked for, someone has taken the flag. -/
theorem Told.registered_or_taken (h : Told op) (hi : op.Inv) (hne : op.token.callback ≠ .absent)
    (hrun : ∀ i p, op.token.callback ≠ .running i p) :
    op.token.callback = .registered ∧ op.token.requested = false ∨ ∃ t, op.taker = some t := by
  cases hc : op.token.callback with
  | absent => exact (hne hc).elim
  | registered => exact Or.inl ⟨rfl, h.registered hc⟩
  | running i p => exact (hrun i p hc).elim
  | executed => exact Or.inr (Option.ne_none_iff_exists'.mp (hi.used.mp (h.executed hc)))

end TStopOperation
end UvExec
