import UvExec.Execution.Receiver
import UvExec.Execution.StopFlag

/-! # The destructor of `TLoop` (execution/loop.cpp)

The loop together with what libuv keeps of its handles. Those other than `Async`
are the elements of `H`; their owners open and close them at any time. -/

namespace UvExec.Loop
open Lib

inductive Handle (H : Type) where
  | async
  | other (h : H)
  deriving DecidableEq, Repr

/-- `queue` are the handles from their `uv_*_init` to their close callback,
`closing` those among them that `uv_close` was called for, and `active` those that
are started and referenced. -/
structure UvHandles (H : Type) where
  queue : List (Handle H) := []
  closing : List (Handle H) := []
  active : List (Handle H) := []
  deriving Repr

namespace UvHandles
variable {H : Type} [DecidableEq H]

def init (u : UvHandles H) (h : Handle H) : UvHandles H := { u with queue := h :: u.queue }

def setActive (u : UvHandles H) (h : Handle H) (b : Bool) : UvHandles H :=
  { u with active := if b then u.active.insert h else u.active.erase h }

def close (u : UvHandles H) (h : Handle H) : UvHandles H :=
  { u.setActive h false with closing := h :: u.closing }

/-- The end of an iteration, with the close callbacks. -/
def runClosing (u : UvHandles H) : UvHandles H :=
  { u with queue := u.queue.filter (· ∉ u.closing), closing := [] }

def alive (u : UvHandles H) : Bool := !u.active.isEmpty || !u.closing.isEmpty

/-- Whether the poll of an iteration waits for an event, where no timer is due. -/
def waits (u : UvHandles H) : Bool := !u.active.isEmpty && u.closing.isEmpty

/-- `uv_run(UV_RUN_ONCE)`, `none` where it waits. -/
def runOnce (u : UvHandles H) (stopFlag : Bool) : Option (UvHandles H) :=
  if u.alive && !stopFlag then if u.waits then none else some u.runClosing else some u

/-- `uv_loop_close`, with `UV_EBUSY` while there is a handle. -/
def loopClose (u : UvHandles H) : Int := if u.queue.isEmpty then 0 else -16

end UvHandles

inductive Destruction where
  | completed
  | panicked
  | waiting
  deriving DecidableEq, Repr

structure Handled (C H : Type) extends State C where
  handles : UvHandles H

namespace Handled

inductive Action (C H : Type) where
  | loop (a : Loop.Action C)
  | init (h : H)
  | setActive (h : H) (b : Bool)
  | close (h : H)
  deriving DecidableEq, Repr

section
variable {C H : Type} [DecidableEq C] [DecidableEq H]

/-- What the constructor of `TLoop` leaves. -/
def initial : Handled C H :=
  { toState := Loop.initial, handles := (UvHandles.init {} .async).setActive .async true }

def endsIteration (s : Handled C H) : Loop.Action C → Bool
  | .thread c => s.pc c = .uv .events
  | _ => false

def step (s : Handled C H) : Action C H → Option (Handled C H)
  | .loop a => (Loop.step s.toState a).map fun t =>
    { toState := t, handles := if s.endsIteration a then s.handles.runClosing else s.handles }
  | .init h =>
    if .other h ∉ s.handles.queue then some { s with handles := s.handles.init (.other h) } else none
  | .setActive h b =>
    if .other h ∈ s.handles.queue ∧ .other h ∉ s.handles.closing then
      some { s with handles := s.handles.setActive (.other h) b }
    else none
  | .close h =>
    if .other h ∈ s.handles.queue ∧ .other h ∉ s.handles.closing then
      some { s with handles := s.handles.close (.other h) }
    else none

def system : System (Handled C H) (Action C H) where
  initial s := s = initial
  step := step

/-- `~TLoop`: the close of `Async`, one iteration, and `Panic`. -/
def destroy (s : Handled C H) : Destruction :=
  match (s.handles.close .async).runOnce s.stopFlag with
  | none => .waiting
  | some u => if isError u.loopClose then .panicked else .completed

/-- The loop's owner may destroy it: the calls have returned, and the close
callbacks of the handles other than `Async` have run. -/
structure Left (s : Handled C H) : Prop where
  calls : ∀ c, s.pc c = .idle ∨ ∃ r, s.pc c = .returned r
  wakeups : ∀ c, s.wake c = .idle ∨ s.wake c = .done
  closed : ∀ h, .other h ∉ s.handles.queue

/-! ### The handles of a run -/

/-- Only the destructor closes `Async`. -/
structure AsyncOpen (u : UvHandles H) : Prop where
  queue : .async ∈ u.queue
  closing : .async ∉ u.closing

theorem AsyncOpen.runClosing {u : UvHandles H} (h : AsyncOpen u) : AsyncOpen u.runClosing where
  queue := by
    simp only [UvHandles.runClosing, List.mem_filter, decide_eq_true_eq]
    exact ⟨h.queue, h.closing⟩
  closing := List.not_mem_nil

variable {s s' : Handled C H}

theorem asyncOpen_step {a : Action C H} (hi : AsyncOpen s.handles) (h : step s a = some s') :
    AsyncOpen s'.handles := by
  cases a with
  | loop a =>
    obtain ⟨t, -, rfl⟩ := Option.map_eq_some_iff.mp h
    by_cases hend : s.endsIteration a = true
    · simpa only [hend, if_true] using hi.runClosing
    · simpa only [if_neg hend] using hi
  | init x | setActive x b | close x =>
    simp only [step, Option.ite_none_right_eq_some, Option.some.injEq] at h
    obtain ⟨-, rfl⟩ := h
    refine ⟨?_, ?_⟩
    · simpa [UvHandles.init, UvHandles.setActive, UvHandles.close] using hi.queue
    · simpa [UvHandles.init, UvHandles.setActive, UvHandles.close] using hi.closing

theorem reachable_asyncOpen (h : system.Reachable s) : AsyncOpen s.handles := by
  refine System.Reachable.invariant (I := fun s => AsyncOpen s.handles) ?_ ?_ h
  · rintro _ rfl
    exact ⟨List.mem_cons_self, List.not_mem_nil⟩
  · exact fun s a s' hi hs => asyncOpen_step hi hs

/-! ### The one iteration -/

omit [DecidableEq C]

/-- With the handle that closes `uv_run` has an iteration to do, unless it is
stopped, and does not wait in it. -/
theorem runOnce_close (u : UvHandles H) (h : Handle H) (stopFlag : Bool) :
    (u.close h).runOnce stopFlag =
      some (if stopFlag then u.close h else (u.close h).runClosing) := by
  cases stopFlag <;> simp [UvHandles.runOnce, UvHandles.alive, UvHandles.waits, UvHandles.close]

omit [DecidableEq H] in
theorem isError_loopClose (u : UvHandles H) : isError u.loopClose = true ↔ u.queue ≠ [] := by
  unfold UvHandles.loopClose
  cases u.queue <;> simp [isError]

theorem queue_runClosing (hc : ∀ h, .other h ∉ s.handles.queue) :
    ((s.handles.close .async).runClosing).queue = [] := by
  rw [List.eq_nil_iff_forall_not_mem]
  intro x hx
  simp only [UvHandles.runClosing, List.mem_filter, decide_eq_true_eq] at hx
  cases x with
  | async => exact hx.2 List.mem_cons_self
  | other h => exact hc h hx.1

theorem destroy_eq (hi : AsyncOpen s.handles) (hc : ∀ h, .other h ∉ s.handles.queue) :
    destroy s = if s.stopFlag then .panicked else .completed := by
  rw [destroy, runOnce_close]
  cases hs : s.stopFlag with
  | false =>
    have hfree : ¬ isError ((s.handles.close .async).runClosing).loopClose = true := by
      rw [isError_loopClose, queue_runClosing hc]
      exact fun hne => hne rfl
    simp [hfree]
  | true =>
    have hbusy : isError (s.handles.close .async).loopClose = true := by
      rw [isError_loopClose]
      exact List.ne_nil_of_mem hi.queue
    simp [hbusy]

end
section
variable {C H : Type} [DecidableEq C] [DecidableEq H] {s : Handled C H}

/-- The destructor completes exactly if no stop is left behind. -/
theorem destructor_completes (h : system.Reachable s) (hl : Left s) :
    destroy s = .completed ↔ s.stopFlag = false := by
  rw [destroy_eq (reachable_asyncOpen h) hl.closed]
  cases s.stopFlag <;> simp

/-! ### Runs -/

/-- A `drain` that another handle is closed in. -/
def drained : List (Action Unit Unit) :=
  [.init (), .setActive () true, .loop (.call () .drain), .loop (.thread ()), .loop (.thread ()),
   .loop (.thread ()), .loop (.thread ()), .loop (.thread ()), .close (), .loop (.thread ()),
   .loop (.thread ()), .loop (.thread ()), .loop (.thread ()), .loop (.thread ()),
   .loop (.thread ())]

theorem left_of_returned {s : Handled Unit Unit} {r : Outcome} (hc : s.pc () = .returned r)
    (hw : s.wake () = .idle) (hq : s.handles.queue = [.async]) : Left s where
  calls _ := Or.inr ⟨r, hc⟩
  wakeups _ := Or.inl hw
  closed h := by simp [hq]

theorem destructor_completes_drained : ∃ s : Handled Unit Unit, system.Reachable s ∧ Left s ∧
    s.pc () = .returned .values ∧ s.stopFlag = false ∧ destroy s = .completed := by
  have hrun : (system.exec initial drained).map
      (fun s => (s.pc (), s.wake (), s.handles.queue, s.stopFlag)) =
      some (.returned .values, .idle, [.async], false) := by decide
  obtain ⟨s, hs, heq⟩ := Option.map_eq_some_iff.mp hrun
  simp only [Prod.mk.injEq] at heq
  obtain ⟨hc, hw, hq, hf⟩ := heq
  have hreach := System.reachable_exec _ (.initial rfl) hs
  have hl := left_of_returned hc hw hq
  exact ⟨s, hreach, hl, hc, hf, (destructor_completes hreach hl).mpr hf⟩

/-- A finish() comes after the loop has been left. -/
theorem destructor_panics : ¬ ∀ s : Handled Unit Unit, system.Reachable s → Left s →
    destroy s = .completed := by
  intro hall
  have hrun : (system.exec initial (drained ++ [.loop .finish])).map
      (fun s => (s.pc (), s.wake (), s.handles.queue, destroy s)) =
      some (.returned .values, .idle, [.async], .panicked) := by decide
  obtain ⟨s, hs, heq⟩ := Option.map_eq_some_iff.mp hrun
  simp only [Prod.mk.injEq] at heq
  obtain ⟨hc, hw, hq, hd⟩ := heq
  have hdone := hall s (System.reachable_exec _ (.initial rfl) hs) (left_of_returned hc hw hq)
  simp [hd] at hdone

/-! ### Who leaves a stop behind -/

/-- A user's finish() raises the flag, and both are cleared together. -/
theorem reachable_userStop {s : State C} (h : Loop.system.Reachable s) :
    s.userStop = true → s.stopFlag = true := by
  refine System.Reachable.invariant (I := fun s : State C => s.userStop = true → s.stopFlag = true)
    ?_ ?_ h
  · rintro _ rfl hu
    exact hu
  · intro s a s' hi hs
    cases step_cases hs with
    | uvExit | wakeFinishLoop | finish => simp
    | _ => exact hi

/-- The steps of the loop are those of `Loop`. -/
theorem reachableVia_loop {ok : State C → Loop.Action C → Prop}
    (h : system.ReachableVia (fun s a => ∀ b, a = .loop b → ok s.toState b) s) :
    Loop.system.ReachableVia ok s.toState := by
  refine h.simulate (fun s => s.toState) ?_ ?_
  · rintro _ rfl
    rfl
  · intro s a s' hok (hs : step s a = some s')
    cases a with
    | loop b =>
      obtain ⟨t, ht, rfl⟩ := Option.map_eq_some_iff.mp hs
      exact Or.inr ⟨b, hok b rfl, ht⟩
    | init x | setActive x b | close x =>
      simp only [step, Option.ite_none_right_eq_some, Option.some.injEq] at hs
      obtain ⟨-, rfl⟩ := hs
      exact Or.inl rfl

/-- In a run without a stale `Acq` only a user's finish() that no run has taken
keeps the destructor from completing. -/
theorem completes_iff_no_userStop
    (h : system.ReachableVia (fun s a => ∀ b, a = .loop b → AcqFresh s.toState b) s)
    (hl : Left s) : destroy s = .completed ↔ s.userStop = false := by
  have hloop := reachableVia_loop h
  have hraised := (reachableVia_stopInv hloop).raised
  have hstop : s.stopFlag = s.userStop := by
    rw [Bool.eq_iff_iff]
    refine ⟨fun hf => (hraised hf).resolve_right ?_, reachable_userStop hloop.reachable⟩
    rintro ⟨c, -, p, hp⟩
    rcases hl.calls c with hidle | ⟨r, hret⟩
    · simp [hp] at hidle
    · simp [hp] at hret
  rw [destroy_eq (reachable_asyncOpen h.reachable) hl.closed, hstop]
  cases s.userStop <;> simp

end
end Handled
end UvExec.Loop
