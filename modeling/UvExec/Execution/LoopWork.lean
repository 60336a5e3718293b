import UvExec.Execution.ApplyProgress
import UvExec.Execution.StopFlag
import UvExec.Lib.Views

/-! # `TLoop` with the operations scheduled on it

The calls that run the loop and the calls of `Schedule` meet in the async handle:
`Fire` signals it, and the thread inside `uv_run` that finds it signalled in its
poll runs `ApplyOperations` among the events of that iteration. -/

namespace UvExec.TLoop
open Lib

structure State (C T O : Type) where
  calls : Loop.State C
  list : OperationList.State T O

inductive Action (C T O : Type) where
  | calls (a : Loop.Action C)
  | list (a : OperationList.Action T O)
  | fire (t : T)
  | deliver (c : C)
  | apply (c : C)
  deriving DecidableEq, Repr

section
variable {C T O : Type} [DecidableEq C] [DecidableEq T] [DecidableEq O]

/-- The steps of the calls that the list has no part in. A poll that returns
delivers the signal if there is one, and `uv_run` does not leave the events of an
iteration before the async callback has returned. -/
def State.ownsCall (s : State C T O) : Loop.Action C → Bool
  | .fire => false
  | .thread c =>
    match s.calls.pc c with
    | .uv (.poll _) => !s.calls.asyncSignal
    | .uv .events => s.list.apply = .idle
    | _ => true
  | .event _ => !s.calls.asyncSignal
  | .call _ _ | .spurious _ | .complete _ _ | .wake _ | .finish => true

/-- The steps of `Schedule` and of the operations that the async handle has no part in. -/
def State.ownsList (s : State C T O) : OperationList.Action T O → Bool
  | .push t => s.list.push t ≠ .fire
  | .deliver | .loop => false
  | .schedule _ _ | .failSpuriously _ | .reuse _ _ => true

def step (s : State C T O) : Action C T O → Option (State C T O)
  | .calls a => if s.ownsCall a then (Loop.step s.calls a).map fun k => { s with calls := k } else none
  | .list a =>
    if s.ownsList a then (OperationList.step s.list a).map fun l => { s with list := l } else none
  | .fire t =>
    if s.list.push t = .fire then
      (OperationList.step s.list (.push t)).map fun l =>
        { calls := { s.calls with asyncSignal := true }, list := l }
    else none
  | .deliver c =>
    match s.calls.pc c with
    | .uv (.poll _) =>
      if s.calls.asyncSignal then
        (Loop.step s.calls (.thread c)).bind fun k =>
          (OperationList.step s.list .deliver).map fun l => { calls := k, list := l }
      else none
    | _ => none
  | .apply c =>
    match s.calls.pc c with
    | .uv .events => (OperationList.step s.list .loop).map fun l => { s with list := l }
    | _ => none

def initial : State C T O where
  calls := Loop.initial
  list := OperationList.initial

def system : System (State C T O) (Action C T O) where
  initial s := s = initial
  step := step

/-! ### Inversion -/

inductive Step (s : State C T O) : Action C T O → State C T O → Prop
  | calls (a : Loop.Action C) (k : Loop.State C) : s.ownsCall a = true →
      Loop.step s.calls a = some k → Step s (.calls a) { s with calls := k }
  | list (a : OperationList.Action T O) (l : OperationList.State T O) : s.ownsList a = true →
      OperationList.step s.list a = some l → Step s (.list a) { s with list := l }
  | fire (t : T) (l : OperationList.State T O) : s.list.push t = .fire →
      OperationList.step s.list (.push t) = some l →
      Step s (.fire t) { calls := { s.calls with asyncSignal := true }, list := l }
  | deliver (c : C) (b : Bool) (k : Loop.State C) (l : OperationList.State T O) :
      s.calls.pc c = .uv (.poll b) → s.calls.asyncSignal = true →
      Loop.step s.calls (.thread c) = some k → OperationList.step s.list .deliver = some l →
      Step s (.deliver c) { calls := k, list := l }
  | apply (c : C) (l : OperationList.State T O) : s.calls.pc c = .uv .events →
      OperationList.step s.list .loop = some l → Step s (.apply c) { s with list := l }

theorem step_cases {s s' : State C T O} {a : Action C T O} (h : step s a = some s') :
    Step s a s' := by
  cases a with
  | calls a =>
    obtain ⟨hown, hmap⟩ := Option.ite_none_right_eq_some.mp h
    obtain ⟨k, hk, rfl⟩ := Option.map_eq_some_iff.mp hmap
    exact .calls a k hown hk
  | list a =>
    obtain ⟨hown, hmap⟩ := Option.ite_none_right_eq_some.mp h
    obtain ⟨l, hl, rfl⟩ := Option.map_eq_some_iff.mp hmap
    exact .list a l hown hl
  | fire t =>
    obtain ⟨ht, hmap⟩ := Option.ite_none_right_eq_some.mp h
    obtain ⟨l, hl, rfl⟩ := Option.map_eq_some_iff.mp hmap
    exact .fire t l ht hl
  | deliver c =>
    unfold step at h
    cases hp : s.calls.pc c with
    | uv p =>
      cases p with
      | poll b =>
        simp only [hp] at h
        obtain ⟨hsig, hbind⟩ := Option.ite_none_right_eq_some.mp h
        obtain ⟨k, hk, hmap⟩ := Option.bind_eq_some_iff.mp hbind
        obtain ⟨l, hl, rfl⟩ := Option.map_eq_some_iff.mp hmap
        exact .deliver c b k l hp hsig hk hl
      | _ => simp [hp] at h
    | _ => simp [hp] at h
  | apply c =>
    unfold step at h
    cases hp : s.calls.pc c with
    | uv p =>
      cases p with
      | events =>
        simp only [hp] at h
        obtain ⟨l, hl, rfl⟩ := Option.map_eq_some_iff.mp h
        exact .apply c l hp hl
      | _ => simp [hp] at h
    | _ => simp [hp] at h

/-! ### The two parts -/

def callsView : View (system : System (State C T O) (Action C T O))
    (Loop.system : System (Loop.State C) (Loop.Action C)) where
  state s := s.calls
  label
    | _, .calls a => some a
    | _, .fire _ => some .fire
    | _, .deliver c => some (.thread c)
    | _, .list _ | _, .apply _ => none
  initial s h := by
    cases h
    rfl
  step s a s' h := by
    cases step_cases h with
    | calls a k _ hk => exact hk
    | fire t l _ _ => rfl
    | deliver c b k l _ _ hk _ => exact hk
    | list | apply => rfl

def listView : View (system : System (State C T O) (Action C T O))
    (OperationList.system : System (OperationList.State T O) (OperationList.Action T O)) where
  state s := s.list
  label
    | _, .list a => some a
    | _, .fire t => some (.push t)
    | _, .deliver _ => some .deliver
    | _, .apply _ => some .loop
    | _, .calls _ => none
  initial s h := by
    cases h
    rfl
  step s a s' h := by
    cases step_cases h with
    | list a l _ hl => exact hl
    | fire t l _ hl => exact hl
    | deliver c b k l _ _ _ hl => exact hl
    | apply c l _ hl => exact hl
    | calls => rfl

/-! ### Where `ApplyOperations` runs -/

/-- The two parts agree about the async handle, and what runs `ApplyOperations` is a
thread among the events of its iteration. -/
structure Inv (s : State C T O) : Prop where
  signal : s.calls.asyncSignal = s.list.asyncSignal
  events : s.list.apply ≠ .idle → ∃ c, s.calls.pc c = .uv .events

theorem uv_kept {s s' : Loop.State C} {a : Loop.Action C} {d : C} {p : Loop.UvPc}
    (h : Loop.Step s a s') (hd : s.pc d = .uv p) (hthread : a ≠ .thread d) (hevent : a ≠ .event d) :
    s'.pc d = .uv p := by
  have hnotify : ∀ n, (s.notify n).pc d = .uv p := by
    intro n
    by_cases hdn : d = n
    · subst hdn
      simp [hd, Loop.Pc.notified]
    · simp [hdn, hd]
  cases h with
  | complete | wakeAcquired | wakeFinishLoop | wakeStore | finish | fire => exact hd
  | wakeDone c | wakeAgain c => exact hnotify c
  | nextNotify c n hc =>
    have hdc : d ≠ c := by
      rintro rfl
      exact hthread rfl
    exact (Function.update_of_ne hdc _ _).trans (hnotify n)
  | callSteal c hc | callLock c k hc | spurious c w hc =>
    have hdc : d ≠ c := by
      rintro rfl
      simp [hd] at hc
    exact (Function.update_of_ne hdc _ _).trans hd
  | uvEvent c hc =>
    have hdc : d ≠ c := by
      rintro rfl
      exact hevent rfl
    exact (Function.update_of_ne hdc _ _).trans hd
  | stealReturn c | stealLock c | lock c | runningAdd c | runningAcquire c | runningRun c | acquired c
  | notAcquired c | runLocked c | uvTest c | uvCallbacks c | uvSignal c | uvPoll c | uvEvents c
  | uvExit c | relockRun c | nextEmpty c | nextPop c | nextSkip c | nextTake c | nextFetchAdd c
  | unlock c | add c | unlockWait c | waitLoad c | waitAgain c | waitLeave c | waitBlock c
  | waitReturn c | relock c | erase c | unlockLoop c =>
    have hdc : d ≠ c := by
      rintro rfl
      exact hthread rfl
    exact (Function.update_of_ne hdc _ _).trans hd

omit [DecidableEq T] in
theorem signal_kept {s : State C T O} {k : Loop.State C} {a : Loop.Action C}
    (hown : s.ownsCall a = true) (h : Loop.Step s.calls a k) :
    k.asyncSignal = s.calls.asyncSignal := by
  cases h with
  | uvSignal c b hc hsig => simp [State.ownsCall, hc, hsig] at hown
  | fire => simp [State.ownsCall] at hown
  | _ => rfl

omit [DecidableEq T] in
/-- Its thread stays among the events while `ApplyOperations` runs. -/
theorem events_kept {s : State C T O} {k : Loop.State C} {a : Loop.Action C}
    (hown : s.ownsCall a = true) (h : Loop.Step s.calls a k) (happly : s.list.apply ≠ .idle) {c : C}
    (hc : s.calls.pc c = .uv .events) : k.pc c = .uv .events := by
  refine uv_kept h hc ?_ ?_
  · rintro rfl
    simp [State.ownsCall, hc, happly] at hown
  · rintro rfl
    cases h with
    | uvEvent c hp => simp [hc] at hp

omit [DecidableEq C] in
/-- A step that the async handle has no part in leaves `ApplyOperations` and the
signal alone. -/
theorem list_kept {s : State C T O} {l : OperationList.State T O} {a : OperationList.Action T O}
    (hown : s.ownsList a = true) (h : OperationList.step s.list a = some l) :
    l.apply = s.list.apply ∧ l.asyncSignal = s.list.asyncSignal := by
  cases a with
  | push t =>
    have hfire : s.list.push t ≠ .fire := by simpa [State.ownsList] using hown
    have h' : OperationList.pushStep s.list t = some l := h
    unfold OperationList.pushStep at h'
    cases hp : s.list.push t with
    | idle => simp [hp] at h'
    | fire => exact (hfire hp).elim
    | compareExchange op curTop =>
      simp only [hp] at h'
      split at h' <;> cases h' <;> exact ⟨rfl, rfl⟩
    | load op | write op curTop =>
      simp only [hp, Option.some.injEq] at h'
      subst h'
      exact ⟨rfl, rfl⟩
  | schedule t op | reuse op next =>
    simp only [OperationList.step, Option.ite_none_right_eq_some, Option.some.injEq] at h
    obtain ⟨-, rfl⟩ := h
    exact ⟨rfl, rfl⟩
  | failSpuriously t =>
    simp only [OperationList.step] at h
    split at h
    · cases h
      exact ⟨rfl, rfl⟩
    · cases h
  | deliver | loop => simp [State.ownsList] at hown

theorem fire_kept {s l : OperationList.State T O} {t : T} (ht : s.push t = .fire)
    (h : OperationList.step s (.push t) = some l) : l.apply = s.apply ∧ l.asyncSignal = true := by
  have h' : OperationList.pushStep s t = some l := h
  simp only [OperationList.pushStep, ht, Option.some.injEq] at h'
  subst h'
  exact ⟨rfl, rfl⟩

theorem inv_step {s s' : State C T O} {a : Action C T O} (hi : Inv s) (h : Step s a s') : Inv s' := by
  cases h with
  | calls a k hown hk =>
    have hstep := Loop.step_cases hk
    refine ⟨(signal_kept hown hstep).trans hi.signal, fun happly => ?_⟩
    obtain ⟨c, hc⟩ := hi.events happly
    exact ⟨c, events_kept hown hstep happly hc⟩
  | list a l hown hl =>
    obtain ⟨happly, hsig⟩ := list_kept hown hl
    refine ⟨hi.signal.trans hsig.symm, fun hne => hi.events ?_⟩
    rwa [happly] at hne
  | fire t l ht hl =>
    obtain ⟨happly, hsig⟩ := fire_kept ht hl
    refine ⟨hsig.symm, fun hne => hi.events ?_⟩
    rwa [happly] at hne
  | deliver c b k l hc hsig hk hl =>
    simp only [Loop.step, Loop.threadStep, hc, Loop.uvStep, hsig, if_true, Option.some.injEq] at hk
    simp only [OperationList.step, Option.ite_none_right_eq_some, Option.some.injEq] at hl
    obtain ⟨-, rfl⟩ := hl
    subst hk
    exact ⟨rfl, fun _ => ⟨c, by simp⟩⟩
  | apply c l hc hl => exact ⟨hi.signal.trans (OperationList.applyStep_signal hl).symm, fun _ => ⟨c, hc⟩⟩

theorem reachable_inv {s : State C T O} (h : system.Reachable s) : Inv s := by
  refine System.Reachable.invariant ?_ ?_ h
  · rintro _ rfl
    exact ⟨rfl, fun hne => (hne rfl).elim⟩
  · intro s a s' hi hs
    exact inv_step hi (step_cases hs)

/-- Only one thread is inside of `uv_run`. -/
theorem insideUvRun_unique {s : State C T O} (h : system.Reachable s) {c d : C} {p : Loop.UvPc}
    (hc : s.calls.pc c = .uv p) (hd : Loop.InsideUvRun s.calls d) : d = c :=
  (Loop.reachable_runInv (callsView.reachable h)).unique d c hd.inRunLocked
    (Loop.InsideUvRun.inRunLocked ⟨p, hc⟩)

/-- `ApplyOperations` is run by the thread inside `uv_run`, by no other one until it
returns, and `uv_run` does not return before. -/
theorem apply_inside_run {s : State C T O} (h : system.Reachable s) :
    (∀ c s', step s (.apply c) = some s' →
      s.calls.running = true ∧ ∀ d, Loop.InsideUvRun s.calls d ↔ d = c) ∧
    (s.list.apply ≠ .idle → ∃ c, s.calls.pc c = .uv .events ∧
      (∀ d, Loop.InsideUvRun s.calls d ↔ d = c) ∧
      ∀ a s', step s a = some s' → s'.list.apply ≠ .idle → s'.calls.pc c = .uv .events) := by
  have hinside : ∀ c, s.calls.pc c = .uv .events → ∀ d, Loop.InsideUvRun s.calls d ↔ d = c := by
    intro c hc d
    constructor
    · exact fun hd => insideUvRun_unique h hc hd
    · rintro rfl
      exact ⟨.events, hc⟩
  constructor
  · intro c s' hs
    cases step_cases hs with
    | apply c l hc hl =>
      have hin : (s.calls.pc c).inRunLocked = true := Loop.InsideUvRun.inRunLocked ⟨.events, hc⟩
      exact ⟨(Loop.reachable_runInv (callsView.reachable h)).running c hin, hinside c hc⟩
  · intro happly
    obtain ⟨c, hc⟩ := (reachable_inv h).events happly
    refine ⟨c, hc, hinside c hc, fun a s' hs hne => ?_⟩
    cases step_cases hs with
    | calls a k hown hk => exact events_kept hown (Loop.step_cases hk) happly hc
    | deliver d b k l hd hsig hk hl =>
      have hdc := insideUvRun_unique h hc ⟨_, hd⟩
      subst hdc
      simp [hc] at hd
    | list | fire | apply => exact hc

/-- A thread in the poll does not sleep on a scheduled operation: the signal is there
for it to deliver, or a call of `Schedule` is about to send it. -/
theorem work_not_slept {s : State C T O} (h : system.Reachable s) {c : C} {b : Bool}
    (hc : s.calls.pc c = .uv (.poll b)) (hlist : s.list.head ≠ none) :
    (step s (.deliver c)).isSome ∨ ∃ t, s.list.push t = .fire := by
  have hi := reachable_inv h
  have hidle : s.list.apply = .idle := by
    by_contra hne
    obtain ⟨d, hd⟩ := hi.events hne
    have hdc := insideUvRun_unique h hc ⟨_, hd⟩
    subst hdc
    simp [hc] at hd
  rcases OperationList.reachable_signalled (listView.reachable h) hlist (by simp [listView, hidle])
    with hsig | hfire
  · left
    have hsig' : s.calls.asyncSignal = true := hi.signal.trans hsig
    have hlistSig : s.list.asyncSignal = true := hsig
    simp [step, hc, hsig', Loop.step, Loop.threadStep, Loop.uvStep, OperationList.step, hidle, hlistSig]
  · exact Or.inr hfire

/-- A thread comes to the poll of its `run`, and another one has pushed an operation. -/
def pushedWhilePolling : List (Action Bool Bool Bool) :=
  [.calls (.call false .run), .calls (.thread false), .calls (.thread false), .calls (.thread false),
   .calls (.thread false), .calls (.thread false), .list (.schedule true true), .list (.push true),
   .list (.push true), .list (.push true)]

theorem work_not_slept_polling : ∃ s : State Bool Bool Bool, system.Reachable s ∧
    s.calls.pc false = .uv (.poll true) ∧ s.list.head = some true ∧
    ((step s (.deliver false)).isSome ∨ ∃ t, s.list.push t = .fire) := by
  have hrun : (system.exec initial pushedWhilePolling).map (fun s => (s.calls.pc false, s.list.head)) =
      some (.uv (.poll true), some true) := by decide
  obtain ⟨s, hs, heq⟩ := Option.map_eq_some_iff.mp hrun
  simp only [Prod.mk.injEq] at heq
  have hreach := System.reachable_exec _ (.initial rfl) hs
  exact ⟨s, hreach, heq.1, heq.2, work_not_slept hreach heq.1 (by simp [heq.2])⟩

theorem apply_inside_run_two : ∃ s : State Bool Bool Bool, system.Reachable s ∧
    s.calls.pc true = .lock ∧ s.list.apply = .loop (some true) ∧
    ∃ c, s.calls.pc c = .uv .events ∧ ∀ d, Loop.InsideUvRun s.calls d ↔ d = c := by
  have hrun : (system.exec initial (pushedWhilePolling ++ [.fire true, .calls (.call true .runOnce),
      .deliver false, .apply false, .apply false, .apply false])).map
      (fun s => (s.calls.pc true, s.list.apply)) = some (.lock, .loop (some true)) := by decide
  obtain ⟨s, hs, heq⟩ := Option.map_eq_some_iff.mp hrun
  simp only [Prod.mk.injEq] at heq
  have hreach := System.reachable_exec _ (.initial rfl) hs
  obtain ⟨c, hc, hinside, -⟩ := (apply_inside_run hreach).2 (by simp [heq.2])
  exact ⟨s, hreach, heq.1, heq.2, c, hc, hinside⟩

/-! ### While a thread runs the loop -/

def ThreadOf (c : C) (a : Action C T O) : Prop :=
  a = .calls (.thread c) ∨ a = .deliver c ∨ a = .apply c

def InSchedule (t : T) (a : Action C T O) : Prop := a = .list (.push t) ∨ a = .fire t

/-- Inside of a `uv_run` that goes on until it is stopped, and has not seen a stop. -/
def Runs (c : C) (s : Loop.State C) : Prop :=
  (s.call c).mode = .default ∧ ∃ p, s.pc c = .uv p ∧ p ≠ .exit

/-- The steps of `uv_run` to its next poll. -/
def distance : Loop.UvPc → ℕ
  | .poll _ => 0
  | .callbacks => 1
  | .test => 2
  | .events => 3
  | .exit => 4

/-- Without a stop `uv_run` goes round. -/
theorem uv_thread {s k : Loop.State C} {c : C} {p : Loop.UvPc} (hmode : (s.call c).mode = .default)
    (hc : s.pc c = .uv p) (hp : p ≠ .exit) (hstop : s.stopFlag = false)
    (h : Loop.step s (.thread c) = some k) : ∃ q, k.pc c = .uv q ∧ q ≠ .exit ∧
      ((∀ b, p ≠ .poll b) → distance q < distance p) := by
  simp only [Loop.step, Loop.threadStep, hc] at h
  cases p with
  | exit => exact (hp rfl).elim
  | test =>
    simp only [Loop.uvStep, hstop, Option.some.injEq] at h
    subst h
    exact ⟨.callbacks, by simp, by simp, fun _ => by decide⟩
  | callbacks =>
    simp only [Loop.uvStep, Option.some.injEq] at h
    subst h
    exact ⟨.poll _, Function.update_self _ _ _, by simp, fun _ => Nat.zero_lt_one⟩
  | events =>
    simp only [Loop.uvStep, hmode, if_true, Option.some.injEq] at h
    subst h
    exact ⟨.test, by simp, by simp, fun _ => by decide⟩
  | poll b =>
    refine ⟨.events, ?_, by simp, fun hne => (hne b rfl).elim⟩
    simp only [Loop.uvStep] at h
    split at h
    · cases h
      simp
    · obtain ⟨-, h⟩ := Option.ite_none_left_eq_some.mp h
      cases h
      simp

theorem runs_call {s k : Loop.State C} {a : Loop.Action C} {c : C} (hr : Runs c s)
    (hstop : s.stopFlag = false) (h : Loop.step s a = some k) : Runs c k := by
  obtain ⟨hmode, p, hc, hp⟩ := hr
  have hcall : k.call c = s.call c := Loop.call_kept (Loop.step_cases h) (by simp [hc])
  refine ⟨by rw [hcall, hmode], ?_⟩
  by_cases hthread : a = .thread c
  · subst hthread
    obtain ⟨q, hq, hne, -⟩ := uv_thread hmode hc hp hstop h
    exact ⟨q, hq, hne⟩
  by_cases hevent : a = .event c
  · subst hevent
    cases Loop.step_cases h with
    | uvEvent c hpoll => exact ⟨.events, by simp, by simp⟩
  exact ⟨p, uv_kept (Loop.step_cases h) hc hthread hevent, hp⟩

theorem runs_step {s s' : State C T O} {a : Action C T O} {c : C} (hstop : s.calls.stopFlag = false)
    (hr : Runs c s.calls) (h : Step s a s') : Runs c s'.calls := by
  cases h with
  | calls a k hown hk => exact runs_call hr hstop hk
  | deliver d b k l hd hsig hk hl => exact runs_call hr hstop hk
  | list | fire | apply => exact hr

/-- The signal waits for the thread to come to its poll. -/
def Signalled (c : C) (s : State C T O) (r : ℕ) : Prop :=
  s.calls.asyncSignal = true ∧ s.list.apply = .idle ∧ ∃ p, s.calls.pc c = .uv p ∧ r = distance p

theorem signalled_step {s s' : State C T O} {a : Action C T O} {c : C} {r : ℕ}
    (hr : Runs c s.calls) (hstop : s.calls.stopFlag = false) (hs : Signalled c s r)
    (h : step s a = some s') : s'.list.apply ≠ .idle ∨
      ∃ r' ≤ r, Signalled c s' r' ∧ (ThreadOf c a → r' < r) := by
  obtain ⟨hsig, hidle, p, hc, rfl⟩ := hs
  obtain ⟨hmode, q, hq, hexit⟩ := hr
  obtain rfl : p = q := by
    rw [hc] at hq
    exact Loop.Pc.uv.inj hq
  cases step_cases h with
  | calls a k hown hk =>
    have hsig' := (signal_kept hown (Loop.step_cases hk)).trans hsig
    right
    by_cases hthread : a = .thread c
    · subst hthread
      have hpoll : ∀ b, p ≠ .poll b := by
        rintro b rfl
        simp [State.ownsCall, hc, hsig] at hown
      obtain ⟨q, hq, -, hlt⟩ := uv_thread hmode hc hexit hstop hk
      have hlt' := hlt hpoll
      exact ⟨distance q, by omega, ⟨hsig', hidle, q, hq, rfl⟩, fun _ => hlt'⟩
    · have hevent : a ≠ .event c := by
        rintro rfl
        simp [State.ownsCall, hsig] at hown
      refine ⟨_, Nat.le_refl _, ⟨hsig', hidle, p, uv_kept (Loop.step_cases hk) hc hthread hevent, rfl⟩, ?_⟩
      rintro (heq | heq | heq)
      · exact (hthread (Action.calls.inj heq)).elim
      · cases heq
      · cases heq
  | list a l hown hl =>
    have happly := (list_kept hown hl).1.trans hidle
    refine Or.inr ⟨_, Nat.le_refl _, ⟨hsig, happly, p, hc, rfl⟩, ?_⟩
    rintro (heq | heq | heq) <;> cases heq
  | fire t l ht hl =>
    have happly := (fire_kept ht hl).1.trans hidle
    refine Or.inr ⟨_, Nat.le_refl _, ⟨rfl, happly, p, hc, rfl⟩, ?_⟩
    rintro (heq | heq | heq) <;> cases heq
  | deliver d b k l hd _ hk hl =>
    left
    simp only [OperationList.step, Option.ite_none_right_eq_some, Option.some.injEq] at hl
    obtain ⟨-, rfl⟩ := hl
    simp
  | apply d l hd hl => simp [OperationList.step, OperationList.applyStep, hidle] at hl

theorem signalled_enabled {s : State C T O} {c : C} {r : ℕ} (hi : Inv s) (hr : Runs c s.calls)
    (hs : Signalled c s r) : system.Enabled (ThreadOf c) s := by
  obtain ⟨hsig, hidle, -⟩ := hs
  obtain ⟨-, p, hc, hexit⟩ := hr
  have hlist : s.list.asyncSignal = true := hi.signal.symm.trans hsig
  cases p with
  | exit => exact (hexit rfl).elim
  | poll b =>
    have hsome : (step s (.deliver c)).isSome := by
      simp [step, hc, hsig, Loop.step, Loop.threadStep, Loop.uvStep, OperationList.step, hidle, hlist]
    obtain ⟨s', hs'⟩ := Option.isSome_iff_exists.mp hsome
    exact ⟨.deliver c, s', Or.inr (Or.inl rfl), hs'⟩
  | test | callbacks | events =>
    have hsome : (step s (.calls (.thread c))).isSome := by
      simp [step, State.ownsCall, hc, hidle, Loop.step, Loop.threadStep, Loop.uvStep]
    obtain ⟨s', hs'⟩ := Option.isSome_iff_exists.mp hsome
    exact ⟨.calls (.thread c), s', Or.inl rfl, hs'⟩

variable (e : (system : System (State C T O) (Action C T O)).Execution)

/-- What is known of a run while `c` runs the loop and nobody stops it. -/
structure Running (c : C) (s : State C T O) : Prop where
  reachable : system.Reachable s
  stop : s.calls.stopFlag = false
  runs : Runs c s.calls

theorem running_of {c : C} {n : ℕ} (hstop : ∀ m, n ≤ m → (e.state m).calls.stopFlag = false)
    (hruns : Runs c (e.state n).calls) (m : ℕ) (hm : n ≤ m) : Running c (e.state m) := by
  refine ⟨e.reachable m, hstop m hm, ?_⟩
  exact e.kept (K := fun s => s.calls.stopFlag = false) (I := fun s => Runs c s.calls) hstop
    (fun s a s' hs hr h => runs_step hs hr (step_cases h)) hm hruns

theorem apply_kept {s s' : State C T O} {a : Action C T O} (h : Step s a s')
    (ha : ∀ d, a ≠ .deliver d ∧ a ≠ .apply d) : s'.list.apply = s.list.apply := by
  cases h with
  | calls => rfl
  | list a l hown hl => exact (list_kept hown hl).1
  | fire t l ht hl => exact (fire_kept ht hl).1
  | deliver d => exact ((ha d).1 rfl).elim
  | apply d => exact ((ha d).2 rfl).elim

/-- The loop's part in the operations goes on while a thread runs the loop. -/
theorem loopThread_fair {c : C} {n : ℕ} (hrun : ∀ m, n ≤ m → Running c (e.state m))
    (hthread : e.WeaklyFair (ThreadOf c)) :
    (listView.execution e).WeaklyFair OperationList.LoopThread := by
  intro n₀ hall
  by_contra hnone
  have hno : ∀ m, n₀ ≤ m → ∀ a, e.label m = some a → ∀ d, a ≠ .deliver d ∧ a ≠ .apply d := by
    intro m hm a ha d
    constructor
    · rintro rfl
      exact hnone ⟨m, .deliver, hm, Or.inl rfl, listView.execution_label ha rfl⟩
    · rintro rfl
      exact hnone ⟨m, .loop, hm, Or.inr rfl, listView.execution_label ha rfl⟩
  have hidle : ∀ m, max n₀ n ≤ m → (e.state m).list.apply = .idle := by
    intro m hm
    by_contra happly
    -- the thread stays in `ApplyOperations`, and that is the only step it has
    have hkept : ∀ i, m ≤ i → (e.state i).list.apply ≠ .idle := by
      intro i hi
      induction hi with
      | refl => exact happly
      | @step i hle ih =>
        have hnext := e.next i
        cases hl : e.label i with
        | none =>
          rw [hl] at hnext
          exact Option.some.inj hnext ▸ ih
        | some a =>
          rw [hl] at hnext
          have hni : n₀ ≤ i := Nat.le_trans (Nat.le_max_left n₀ n) (Nat.le_trans hm hle)
          rw [apply_kept (step_cases hnext) (hno i hni a hl)]
          exact ih
    have hevents : ∀ i, m ≤ i → (e.state i).calls.pc c = .uv .events := by
      intro i hi
      obtain ⟨d, hd⟩ := (reachable_inv (e.reachable i)).events (hkept i hi)
      obtain ⟨-, -, -, p, hp, -⟩ := hrun i (by omega)
      rw [insideUvRun_unique (e.reachable i) hd ⟨p, hp⟩]
      exact hd
    obtain ⟨i, a, hi, ha, hl⟩ := hthread m fun i hi => by
      obtain ⟨l, hl⟩ := Option.isSome_iff_exists.mp (OperationList.applyStep_isSome (hkept i hi))
      have hl' : OperationList.step (e.state i).list .loop = some l := hl
      exact ⟨.apply c, _, Or.inr (Or.inr rfl), by simp only [system, step, hevents i hi, hl']; rfl⟩
    rcases ha with rfl | rfl | rfl
    · have hnext := e.next i
      rw [hl] at hnext
      have hown := (Option.ite_none_right_eq_some.mp hnext).1
      simp [State.ownsCall, hevents i hi, hkept i hi] at hown
    · exact (hno i (by omega) _ hl c).1 rfl
    · exact (hno i (by omega) _ hl c).2 rfl
  have hsignal : (e.state (max n₀ n)).calls.asyncSignal = true := by
    obtain ⟨a, l, ha, hl⟩ := hall _ (Nat.le_max_left n₀ n)
    have hstep : OperationList.step (e.state (max n₀ n)).list a = some l := hl
    rcases ha with rfl | rfl
    · obtain ⟨⟨-, hsig⟩, -⟩ := Option.ite_none_right_eq_some.mp hstep
      exact (reachable_inv (e.reachable _)).signal.trans hsig
    · simp [OperationList.step, OperationList.applyStep, hidle _ (Nat.le_refl _)] at hstep
  obtain ⟨-, -, -, p, hp, -⟩ := hrun (max n₀ n) (Nat.le_max_right _ _)
  obtain ⟨m, hm, hbusy⟩ := e.leadsTo_of_rank (K := Running c) (P := Signalled c)
    (G := fun s => s.list.apply ≠ .idle) hthread
    (fun s r hk hs _ => signalled_enabled (reachable_inv hk.reachable) hk.runs hs)
    (fun s a s' r hk _ hs h => signalled_step hk.runs hk.stop hs h)
    (fun i hi => hrun i (Nat.le_trans (Nat.le_max_right n₀ n) hi))
    ⟨hsignal, hidle _ (Nat.le_refl _), p, hp, rfl⟩
  exact hbusy (hidle m hm)

theorem inPushBack_fair {t : T} (hpush : e.WeaklyFair (InSchedule t)) :
    (listView.execution e).WeaklyFair (OperationList.InPushBack t) := by
  intro n hall
  obtain ⟨m, a, hm, ha, hl⟩ := hpush n fun m hm => by
    obtain ⟨_, l, rfl, hl⟩ := hall m hm
    have hstep : OperationList.step (e.state m).list (.push t) = some l := hl
    by_cases ht : (e.state m).list.push t = .fire
    · exact ⟨.fire t, _, Or.inr rfl, by simp only [system, step, ht, hstep, if_true]; rfl⟩
    · have hown : (e.state m).ownsList (.push t) = true := by simp [State.ownsList, ht]
      exact ⟨.list (.push t), _, Or.inl rfl, by simp only [system, step, hown, hstep, if_true]; rfl⟩
  refine ⟨m, .push t, hm, rfl, ?_⟩
  rcases ha with rfl | rfl
  · exact listView.execution_label hl rfl
  · exact listView.execution_label hl rfl

/-- While a thread is inside of `run` or `sync_wait` and nobody stops the loop,
everything that a `Schedule` has pushed is applied at last, in the order of the pushes. -/
theorem work_applied {c : C} {n : ℕ} (hruns : Runs c (e.state n).calls)
    (hstop : ∀ m, n ≤ m → (e.state m).calls.stopFlag = false)
    (hthread : e.WeaklyFair (ThreadOf c)) (hpush : ∀ t, e.WeaklyFair (InSchedule t)) (i : ℕ) :
    ∃ m, i ≤ m ∧ (e.state i).list.pushed <+: (e.state m).list.applied := by
  have hloop := loopThread_fair e (running_of e hstop hruns) hthread
  obtain ⟨m, hm, hlen⟩ := OperationList.eventually_applied_length (listView.execution e) hloop
    (fun t => inPushBack_fair e (hpush t)) i
  exact ⟨m, hm, OperationList.pushed_prefix_applied (listView.execution e) hm hlen⟩

end

/-- The thread applies what was pushed and comes back to its poll. -/
def appliedWhilePolling : List (Action Bool Bool Bool) :=
  pushedWhilePolling ++ [.fire true, .deliver false, .apply false, .apply false, .apply false,
    .apply false, .apply false, .apply false, .calls (.thread false), .calls (.thread false),
    .calls (.thread false)]

theorem work_applied_polling : ∃ e : (system : System (State Bool Bool Bool) _).Execution,
    (e.state 10).list.pushed = [true] ∧ (e.state 10).list.applied = [] ∧
      ∃ m, 10 ≤ m ∧ (e.state 10).list.pushed <+: (e.state m).list.applied := by
  have hrun : (system.exec initial appliedWhilePolling).map
      (fun s => (s.calls.pc false, s.calls.asyncSignal, s.list.apply, s.list.push false,
        s.list.push true)) = some (.uv (.poll true), false, .idle, .idle, .idle) := by decide
  obtain ⟨s, hs, heq⟩ := Option.map_eq_some_iff.mp hrun
  simp only [Prod.mk.injEq] at heq
  obtain ⟨hpc, hsig, hidle, hfalse, htrue⟩ := heq
  have hthread : ¬ system.Enabled (ThreadOf false) s := by
    rintro ⟨a, s', rfl | rfl | rfl, h⟩
    · simp [system, step, State.ownsCall, Loop.step, Loop.threadStep, Loop.uvStep, hpc, hsig] at h
    · simp [system, step, hpc, hsig] at h
    · simp [system, step, hpc] at h
  have hpush : ∀ t, ¬ system.Enabled (InSchedule t) s := by
    rintro t ⟨a, s', rfl | rfl, h⟩
    · cases t <;>
        simp [system, step, State.ownsList, OperationList.step, OperationList.pushStep, hfalse,
          htrue] at h
    · cases t <;> simp [system, step, hfalse, htrue] at h
  have hstop : ∀ m, (system.exec initial (appliedWhilePolling.take m)).map
      (fun s => s.calls.stopFlag) = some false := by
    intro m
    by_cases hm : m < 22
    · revert m
      decide
    · rw [List.take_of_length_le (Nat.le_trans (by decide) (Nat.le_of_not_lt hm))]
      decide
  have hprefix : (system.exec initial (appliedWhilePolling.take 10)).map
      (fun s => (s.calls.pc false, s.calls.call false, s.list.pushed, s.list.applied)) =
      some (.uv (.poll true), .run, [true], []) := by decide
  rw [System.Execution.ofExec_state _ rfl hs, Option.map_some, Option.some.injEq] at hprefix
  simp only [Prod.mk.injEq] at hprefix
  obtain ⟨hpoll, hcall, hpushed, happlied⟩ := hprefix
  refine ⟨.ofExec appliedWhilePolling rfl hs, hpushed, happlied, ?_⟩
  refine work_applied _ (c := false) (n := 10) ⟨by rw [hcall]; rfl, _, hpoll, by simp⟩ (fun m _ => ?_)
    (System.Execution.ofExec_fair _ rfl hs hthread)
    (fun t => System.Execution.ofExec_fair _ rfl hs (hpush t)) 10
  have hm := hstop m
  rw [System.Execution.ofExec_state _ rfl hs, Option.map_some, Option.some.injEq] at hm
  exact hm

end UvExec.TLoop
