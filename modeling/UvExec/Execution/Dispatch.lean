import UvExec.Execution.ApplyProgress
import UvExec.Execution.StopOperation
import UvExec.Lib.Views

/-! # The operations of one loop (execution/loop.hpp, loop.cpp)

Any number of operations that hold a `TStopOperation` share the list of one loop
and its thread. An operation comes to the loop's thread when its own entry is
applied, when libuv calls it back and when its stop operation is applied, one at
a time. A call of `Schedule` is named after the operation that it schedules. -/

namespace UvExec.OperationList
open Lib
variable {T O : Type} [DecidableEq T] [DecidableEq O]

/-! ### What the list's steps leave as it is -/

theorem applied_kept {s s' : State T O} {a : Action T O} (h : Step s a s')
    (ha : a = .loop → ∀ op, s.apply ≠ .loop (some op)) : s'.applied = s.applied := by
  cases h with
  | apply op hp => exact (ha rfl op hp).elim
  | _ => rfl

theorem applied_loop {s s' : State T O} {op : O} (hp : s.apply = .loop (some op))
    (h : step s .loop = some s') : s'.applied = s.applied ++ [op] := by
  simp only [step, applyStep, hp, Option.some.injEq] at h
  exact h ▸ rfl

theorem scheduled_kept {s s' : State T O} {a : Action T O} (h : Step s a s')
    (ha : ∀ t op, a ≠ .schedule t op) : s'.scheduled = s.scheduled := by
  cases h with
  | schedule t op => exact (ha t op rfl).elim
  | _ => rfl

theorem schedule_eq_some {s s' : State T O} {t : T} {op : O} (h : step s (.schedule t op) = some s') :
    s.pending op = false ∧ s' = { s with scheduled := s.scheduled ++ [op] }.setPush t (.load op) := by
  simp only [step, Option.ite_none_right_eq_some, Option.some.injEq] at h
  exact ⟨h.1.2, h.2.symm⟩

/-- Only `Schedule` begins a call. -/
theorem calling_step {s s' : State T O} {a : Action T O} {t : T} (h : Step s a s')
    (ha : ∀ op, a ≠ .schedule t op) (ht : s'.push t ≠ .idle) : s.push t ≠ .idle := by
  intro hidle
  cases h with
  | schedule u op hu =>
    have hut : t ≠ u := by
      rintro rfl
      exact ha op rfl
    exact ht ((Function.update_of_ne hut _ _).trans hidle)
  | load u op hu | write u op c hu | exchanged u op hu | failed u op c a hu | fire u hu =>
    have hut : t ≠ u := by
      rintro rfl
      simp [hidle] at hu
    exact ht ((Function.update_of_ne hut _ _).trans hidle)
  | _ => exact ht hidle

/-- What `ApplyOperations` comes to is pending. -/
theorem pending_of_loop {s : State T O} (h : system.Reachable s) {op : O}
    (hp : s.apply = .loop (some op)) : s.pending op = true := by
  obtain ⟨⟨b, l, hh⟩, ho⟩ := reachable_heap h
  have hb := hh.batch
  rw [hp] at hb
  obtain ⟨m, rfl, -⟩ := Chain.some_cases hb
  exact ho.pending_of_mem hh (Or.inl List.mem_cons_self)

end UvExec.OperationList

namespace UvExec.TStopOperation

end UvExec.TStopOperation

namespace UvExec.Dispatch
open Lib

/-- Who takes an action: the loop's thread inside of the operation's code, libuv
that calls it back for an event or after `uv_close`, `ApplyOperations` that
applies its stop operation, and other threads. -/
inductive Role where
  | inside
  | event
  | closed
  | apply
  | requestStop
  | callback
  deriving DecidableEq, Repr

/-- An operation state with a `TStopOperation` member, and what its model is bound
to for a loop to run it. `ok` is what its steps are assumed to be. `atRest` tells that
the loop's thread is not in its code, and `waiting` that it waits for its event. -/
structure Operation where
  State : Type
  Action : Type
  system : System State Action
  ok : State → Action → Prop
  role : Action → Role
  apply : Action
  stopOp : State → TStopOperation
  atRest : State → Bool
  completions : State → ℕ
  waiting : State → Bool
  initial : ∀ s, system.initial s → stopOp s = {} ∧ atRest s = false
  ok_apply : ∀ s, ok s apply
  apply_isSome : ∀ s, atRest s = true → 0 < (stopOp s).queued → (system.step s apply).isSome
  applied : ∀ s s', system.step s apply = some s' →
    (stopOp s).beginApply = some (stopOp s') ∧ atRest s' = false
  called : ∀ s a s', role a = .event ∨ role a = .closed → system.step s a = some s' →
    atRest s = true
  kept : ∀ s a s', role a = .inside ∨ role a = .event ∨ role a = .closed →
    system.step s a = some s' →
    (stopOp s').queued = (stopOp s).queued ∧ (stopOp s').pushes = (stopOp s).pushes
  requestedStop : ∀ s a s', role a = .requestStop → system.step s a = some s' →
    stopOp s' = (stopOp s).requestStop ∧ atRest s' = atRest s
  calledBack : ∀ s a s', role a = .callback → system.step s a = some s' →
    (stopOp s).callbackStep = some (stopOp s') ∧ atRest s' = atRest s
  callback_enabled : ∀ s, (stopOp s).callbackStep.isSome →
    ∃ a, role a = .callback ∧ (system.step s a).isSome
  inv : ∀ s, system.ReachableVia ok s → (stopOp s).Inv
  progress : ∀ s, system.ReachableVia ok s → atRest s = false →
    (∃ a, role a = .inside ∧ (system.step s a).isSome) ∨ (stopOp s).callbackStep.isSome
  settled : ∀ s, system.ReachableVia ok s → atRest s = true → (stopOp s).queued = 0 →
    (∀ i p, (stopOp s).token.callback ≠ .running i p) →
    (∀ a, role a = .closed → system.step s a = none) →
    completions s = 1 ∨ waiting s = true ∧ completions s = 0 ∧
      (stopOp s).token.callback = .registered ∧ (stopOp s).token.requested = false

/-- What the loop's list holds: the operations, and their stop operations. -/
inductive Entry (ι : Type) where
  | self (i : ι)
  | stop (i : ι)
  deriving DecidableEq, Repr

section
variable {ι : Type} [DecidableEq ι]

/-- `current` is the operation whose code the loop's thread is in. -/
structure State (ops : ι → Operation) where
  list : OperationList.State (Entry ι) (Entry ι)
  op : (i : ι) → (ops i).State
  current : Option ι

inductive Action (ops : ι → Operation) where
  | start (i : ι)
  | push (e : Entry ι)
  | failSpuriously (e : Entry ι)
  | deliver
  | loop
  | op (i : ι) (a : (ops i).Action)

variable {ops : ι → Operation}

namespace State

def onList (s : State ops) (a : OperationList.Action (Entry ι) (Entry ι)) : Option (State ops) :=
  (OperationList.step s.list a).map fun l => { s with list := l }

def onOp (s : State ops) (i : ι) (a : (ops i).Action) : Option (State ops) :=
  ((ops i).system.step (s.op i) a).map fun o => { s with op := Function.update s.op i o }

def enter (s : State ops) (i : ι) : State ops := { s with current := some i }

/-- The loop's thread is in the code of `i` until that is at rest. -/
def follow (s : State ops) (i : ι) : State ops :=
  { s with current := if (ops i).atRest (s.op i) then none else some i }

def stopOp (s : State ops) (i : ι) : TStopOperation := (ops i).stopOp (s.op i)

end State

/-- The loop's thread in `ApplyOperations`. -/
def loopStep (s : State ops) : Option (State ops) :=
  match s.list.apply with
  | .loop (some (.self i)) => (s.onList .loop).map (State.enter · i)
  | .loop (some (.stop i)) =>
    (s.onOp i (ops i).apply).bind fun s => (s.onList .loop).map (State.enter · i)
  | _ => s.onList .loop

/-- A step of a stop callback, which does not return before its call of `Schedule`. -/
def callbackStep (s : State ops) (i : ι) (a : (ops i).Action) : Option (State ops) :=
  match (s.stopOp i).token.callback with
  | .running _ .schedule => (s.onOp i a).bind fun s => s.onList (.schedule (.stop i) (.stop i))
  | .running _ .exit => if s.list.push (.stop i) = .idle then s.onOp i a else none
  | _ => s.onOp i a

def opStep (s : State ops) (i : ι) (a : (ops i).Action) : Option (State ops) :=
  match (ops i).role a with
  | .inside => if s.current = some i then (s.onOp i a).map (State.follow · i) else none
  | .event | .closed =>
    if s.current = none ∧ s.list.apply = .idle then (s.onOp i a).map (State.follow · i) else none
  | .apply => none
  | .requestStop => s.onOp i a
  | .callback => callbackStep s i a

/-- `start` schedules the operation, or what comes before it on the same loop, whose
`Apply` begins it. -/
def step (s : State ops) : Action ops → Option (State ops)
  | .start i =>
    if s.list.scheduled.count (.self i) = 0 then s.onList (.schedule (.self i) (.self i)) else none
  | .push e => s.onList (.push e)
  | .failSpuriously e => s.onList (.failSpuriously e)
  | .deliver => if s.current = none then s.onList .deliver else none
  | .loop => if s.current = none then loopStep s else none
  | .op i a => opStep s i a

def system (ops : ι → Operation) : System (State ops) (Action ops) where
  initial s := s.list = OperationList.initial ∧ s.current = none ∧
    ∀ i, (ops i).system.initial (s.op i)
  step := step

/-- Runs in which every step of an operation is one that it admits. -/
def Admitted (s : State ops) : Action ops → Prop
  | .op i a => (ops i).ok (s.op i) a
  | .start _ | .push _ | .failSpuriously _ | .deliver | .loop => True

/-- What comes from outside: starts, events and stop requests. -/
def Environment : Action ops → Prop
  | .start _ => True
  | .op i a => (ops i).role a = .event ∨ (ops i).role a = .requestStop
  | .push _ | .failSpuriously _ | .deliver | .loop => False

/-! ### Inversion -/

theorem onList_eq_some {s s' : State ops} {a : OperationList.Action (Entry ι) (Entry ι)}
    (h : s.onList a = some s') :
    ∃ l, OperationList.step s.list a = some l ∧ s' = { s with list := l } := by
  obtain ⟨l, hl, rfl⟩ := Option.map_eq_some_iff.mp h
  exact ⟨l, hl, rfl⟩

theorem onOp_eq_some {s s' : State ops} {i : ι} {a : (ops i).Action} (h : s.onOp i a = some s') :
    ∃ o, (ops i).system.step (s.op i) a = some o ∧
      s' = { s with op := Function.update s.op i o } := by
  obtain ⟨o, ho, rfl⟩ := Option.map_eq_some_iff.mp h
  exact ⟨o, ho, rfl⟩

abbrev State.setOp (s : State ops) (i : ι) (o : (ops i).State) : State ops :=
  { s with op := Function.update s.op i o }

inductive Step (s : State ops) : Action ops → State ops → Prop
  | start (i : ι) (l : OperationList.State (Entry ι) (Entry ι)) :
      s.list.scheduled.count (.self i) = 0 →
      OperationList.step s.list (.schedule (.self i) (.self i)) = some l →
      Step s (.start i) { s with list := l }
  | push (e : Entry ι) (l : OperationList.State (Entry ι) (Entry ι)) :
      OperationList.step s.list (.push e) = some l → Step s (.push e) { s with list := l }
  | failSpuriously (e : Entry ι) (l : OperationList.State (Entry ι) (Entry ι)) :
      OperationList.step s.list (.failSpuriously e) = some l →
      Step s (.failSpuriously e) { s with list := l }
  | deliver (l : OperationList.State (Entry ι) (Entry ι)) : s.current = none →
      OperationList.step s.list .deliver = some l → Step s .deliver { s with list := l }
  | loop (l : OperationList.State (Entry ι) (Entry ι)) : s.current = none →
      (∀ e, s.list.apply ≠ .loop (some e)) → OperationList.step s.list .loop = some l →
      Step s .loop { s with list := l }
  | begin (i : ι) (l : OperationList.State (Entry ι) (Entry ι)) : s.current = none →
      s.list.apply = .loop (some (.self i)) → OperationList.step s.list .loop = some l →
      Step s .loop { s with list := l, current := some i }
  | applyStop (i : ι) (l : OperationList.State (Entry ι) (Entry ι)) (o : (ops i).State) :
      s.current = none → s.list.apply = .loop (some (.stop i)) →
      OperationList.step s.list .loop = some l →
      (ops i).system.step (s.op i) (ops i).apply = some o →
      Step s .loop { s.setOp i o with list := l, current := some i }
  | inside (i : ι) (a : (ops i).Action) (o : (ops i).State) : (ops i).role a = .inside →
      s.current = some i → (ops i).system.step (s.op i) a = some o →
      Step s (.op i a) ((s.setOp i o).follow i)
  | called (i : ι) (a : (ops i).Action) (o : (ops i).State) :
      (ops i).role a = .event ∨ (ops i).role a = .closed → s.current = none → s.list.apply = .idle →
      (ops i).system.step (s.op i) a = some o → Step s (.op i a) ((s.setOp i o).follow i)
  | requestStop (i : ι) (a : (ops i).Action) (o : (ops i).State) : (ops i).role a = .requestStop →
      (ops i).system.step (s.op i) a = some o → Step s (.op i a) (s.setOp i o)
  | schedule (i : ι) (a : (ops i).Action) (o : (ops i).State) (b : Bool)
      (l : OperationList.State (Entry ι) (Entry ι)) : (ops i).role a = .callback →
      (s.stopOp i).token.callback = .running b .schedule →
      (ops i).system.step (s.op i) a = some o →
      OperationList.step s.list (.schedule (.stop i) (.stop i)) = some l →
      Step s (.op i a) { s.setOp i o with list := l }
  | callback (i : ι) (a : (ops i).Action) (o : (ops i).State) : (ops i).role a = .callback →
      (∀ b, (s.stopOp i).token.callback ≠ .running b .schedule) →
      (ops i).system.step (s.op i) a = some o → Step s (.op i a) (s.setOp i o)

theorem loopStep_cases {s s' : State ops} (hcur : s.current = none) (h : loopStep s = some s') :
    Step s .loop s' := by
  unfold loopStep at h
  split at h
  next i hp =>
    obtain ⟨t, ht, rfl⟩ := Option.map_eq_some_iff.mp h
    obtain ⟨l, hl, rfl⟩ := onList_eq_some ht
    exact .begin i l hcur hp hl
  next i hp =>
    obtain ⟨t, ht, h⟩ := Option.bind_eq_some_iff.mp h
    obtain ⟨o, ho, rfl⟩ := onOp_eq_some ht
    obtain ⟨u, hu, rfl⟩ := Option.map_eq_some_iff.mp h
    obtain ⟨l, hl, rfl⟩ := onList_eq_some hu
    exact .applyStop i l o hcur hp hl ho
  next hself hstop =>
    obtain ⟨l, hl, rfl⟩ := onList_eq_some h
    refine .loop l hcur ?_ hl
    intro e he
    cases e with
    | self i => exact hself i he
    | stop i => exact hstop i he

theorem callbackStep_cases {s s' : State ops} {i : ι} {a : (ops i).Action}
    (hr : (ops i).role a = .callback) (h : callbackStep s i a = some s') : Step s (.op i a) s' := by
  unfold callbackStep at h
  split at h
  next b hc =>
    obtain ⟨t, ht, h⟩ := Option.bind_eq_some_iff.mp h
    obtain ⟨o, ho, rfl⟩ := onOp_eq_some ht
    obtain ⟨l, hl, rfl⟩ := onList_eq_some h
    exact .schedule i a o b l hr hc ho hl
  next b hc =>
    obtain ⟨-, h⟩ := Option.ite_none_right_eq_some.mp h
    obtain ⟨o, ho, rfl⟩ := onOp_eq_some h
    exact .callback i a o hr (by simp [hc]) ho
  next hsched hexit =>
    obtain ⟨o, ho, rfl⟩ := onOp_eq_some h
    exact .callback i a o hr hsched ho

theorem opStep_cases {s s' : State ops} {i : ι} {a : (ops i).Action} (h : opStep s i a = some s') :
    Step s (.op i a) s' := by
  unfold opStep at h
  cases hr : (ops i).role a with
  | inside =>
    rw [hr] at h
    obtain ⟨hcur, h⟩ := Option.ite_none_right_eq_some.mp h
    obtain ⟨t, ht, rfl⟩ := Option.map_eq_some_iff.mp h
    obtain ⟨o, ho, rfl⟩ := onOp_eq_some ht
    exact .inside i a o hr hcur ho
  | event | closed =>
    rw [hr] at h
    obtain ⟨⟨hcur, hidle⟩, h⟩ := Option.ite_none_right_eq_some.mp h
    obtain ⟨t, ht, rfl⟩ := Option.map_eq_some_iff.mp h
    obtain ⟨o, ho, rfl⟩ := onOp_eq_some ht
    exact .called i a o (by simp [hr]) hcur hidle ho
  | apply =>
    rw [hr] at h
    cases h
  | requestStop =>
    rw [hr] at h
    obtain ⟨o, ho, rfl⟩ := onOp_eq_some h
    exact .requestStop i a o hr ho
  | callback =>
    rw [hr] at h
    exact callbackStep_cases hr h

theorem step_cases {s s' : State ops} {a : Action ops} (h : step s a = some s') : Step s a s' := by
  cases a with
  | start i =>
    obtain ⟨hzero, h⟩ := Option.ite_none_right_eq_some.mp h
    obtain ⟨l, hl, rfl⟩ := onList_eq_some h
    exact .start i l hzero hl
  | push e =>
    obtain ⟨l, hl, rfl⟩ := onList_eq_some h
    exact .push e l hl
  | failSpuriously e =>
    obtain ⟨l, hl, rfl⟩ := onList_eq_some h
    exact .failSpuriously e l hl
  | deliver =>
    obtain ⟨hcur, h⟩ := Option.ite_none_right_eq_some.mp h
    obtain ⟨l, hl, rfl⟩ := onList_eq_some h
    exact .deliver l hcur hl
  | loop =>
    obtain ⟨hcur, h⟩ := Option.ite_none_right_eq_some.mp h
    exact loopStep_cases hcur h
  | op i a => exact opStep_cases h

/-! ### The parts -/

def listLabel (s : State ops) : Action ops → Option (OperationList.Action (Entry ι) (Entry ι))
  | .start i => some (.schedule (.self i) (.self i))
  | .push e => some (.push e)
  | .failSpuriously e => some (.failSpuriously e)
  | .deliver => some .deliver
  | .loop => some .loop
  | .op i a =>
    if (ops i).role a = .callback ∧ (s.stopOp i).scheduling = true then
      some (.schedule (.stop i) (.stop i))
    else none

omit [DecidableEq ι] in
theorem listLabel_none {s : State ops} {i : ι} {a : (ops i).Action}
    (h : (ops i).role a = .callback → (s.stopOp i).scheduling = false) :
    listLabel s (.op i a) = none := by
  refine if_neg ?_
  rintro ⟨hr, hs⟩
  simp [h hr] at hs

def listView : View (system ops) (OperationList.system :
    System (OperationList.State (Entry ι) (Entry ι)) (OperationList.Action (Entry ι) (Entry ι))) where
  state s := s.list
  label := listLabel
  initial s h := h.1
  step s a s' h := by
    cases step_cases h with
    | start i l _ hl => exact hl
    | push e l hl | failSpuriously e l hl => exact hl
    | deliver l _ hl => exact hl
    | loop l _ _ hl | begin i l _ _ hl | applyStop i l o _ _ hl => exact hl
    | inside i a o hr | requestStop i a o hr =>
      rw [listLabel_none (by simp [hr])]
      rfl
    | called i a o hr =>
      rw [listLabel_none (by rcases hr with hr | hr <;> simp [hr])]
      rfl
    | schedule i a o b l hr hc ho hl =>
      have hsched : (s.stopOp i).scheduling = true := by simp [TStopOperation.scheduling, hc]
      rw [show listLabel s (.op i a) = _ from if_pos ⟨hr, hsched⟩]
      exact hl
    | callback i a o hr hne =>
      have hsched : (s.stopOp i).scheduling = false := by
        unfold TStopOperation.scheduling
        split
        next b hc => exact (hne b hc).elim
        all_goals rfl
      rw [listLabel_none fun _ => hsched]
      rfl

def Entry.op : Entry ι → ι
  | .self i | .stop i => i

/-- The stop operation of `i` counts as queued what the list has of it, and the
loop's thread is in the code of `i` just when `current` says so, once `i` has begun. -/
structure OpInv (ops : ι → Operation) (l : OperationList.State (Entry ι) (Entry ι))
    (current : Option ι) (i : ι) (o : (ops i).State) : Prop where
  once : l.scheduled.count (.self i) ≤ 1
  scheduled : l.scheduled.count (.stop i) = ((ops i).stopOp o).pushes
  applied : l.applied.count (.stop i) + ((ops i).stopOp o).queued = ((ops i).stopOp o).pushes
  unbegun : l.applied.count (.self i) = 0 → current ≠ some i ∧ (ops i).atRest o = false ∧
    ((ops i).stopOp o).token.callback = .absent ∧ ((ops i).stopOp o).pushes = 0
  inside : current = some i → (ops i).atRest o = false
  outside : 0 < l.applied.count (.self i) → current ≠ some i → (ops i).atRest o = true

structure Inv (s : State ops) : Prop where
  calls : ∀ e, s.list.push e ≠ .idle → 0 < s.list.scheduled.count e
  op : ∀ i, OpInv ops s.list s.current i (s.op i)

variable {l l' : OperationList.State (Entry ι) (Entry ι)} {c c' : Option ι} {i : ι}
  {o o' : (ops i).State} {a : (ops i).Action}

theorem OpInv.keep (h : OpInv ops l c i o)
    (hs : ∀ e : Entry ι, e.op = i → l'.scheduled.count e = l.scheduled.count e)
    (ha : ∀ e : Entry ι, e.op = i → l'.applied.count e = l.applied.count e)
    (hc : c' = some i ↔ c = some i) : OpInv ops l' c' i o where
  once := by
    rw [hs (.self i) rfl]
    exact h.once
  scheduled := (hs (.stop i) rfl).trans h.scheduled
  applied := by
    rw [ha (.stop i) rfl]
    exact h.applied
  unbegun hzero := by
    rw [ha (.self i) rfl] at hzero
    obtain ⟨hne, hrest⟩ := h.unbegun hzero
    exact ⟨mt hc.mp hne, hrest⟩
  inside hcur := h.inside (hc.mp hcur)
  outside hpos hne := by
    rw [ha (.self i) rfl] at hpos
    exact h.outside hpos (mt hc.mpr hne)

/-- A step that is neither the stop callback's nor its `Apply`, when `i` has begun. -/
theorem OpInv.move (h : OpInv ops l c i o) (hbegun : 0 < l.applied.count (.self i))
    (hq : ((ops i).stopOp o').queued = ((ops i).stopOp o).queued)
    (hp : ((ops i).stopOp o').pushes = ((ops i).stopOp o).pushes) :
    OpInv ops l (if (ops i).atRest o' then none else some i) i o' where
  once := h.once
  scheduled := h.scheduled.trans hp.symm
  applied := by
    rw [hq, hp]
    exact h.applied
  unbegun hzero := by omega
  inside hcur := by
    cases hr : (ops i).atRest o' with
    | false => rfl
    | true => simp [hr] at hcur
  outside _ hne := by
    cases hr : (ops i).atRest o' with
    | false => simp [hr] at hne
    | true => rfl

theorem OpInv.begun (h : OpInv ops l c i o) (hor : c = some i ∨ (ops i).atRest o = true ∨
    ((ops i).stopOp o).token.callback ≠ .absent ∨ 0 < ((ops i).stopOp o).pushes) :
    0 < l.applied.count (.self i) := by
  by_contra hnot
  obtain ⟨hne, hrest, habs, hzero⟩ := h.unbegun (by omega)
  rcases hor with hc | hr | hcb | hpos
  · exact hne hc
  · simp [hrest] at hr
  · exact hcb habs
  · omega

theorem OpInv.begin (h : OpInv ops l none i o) (hpending : l.pending (.self i) = true)
    (hs : l'.scheduled = l.scheduled) (ha : l'.applied = l.applied ++ [.self i]) :
    OpInv ops l' (some i) i o := by
  simp only [OperationList.State.pending, decide_eq_true_eq] at hpending
  have honce := h.once
  obtain ⟨-, hrest, -⟩ := h.unbegun (by omega)
  have hself := OperationList.count_append_self l.applied (Entry.self i)
  have hstop : (l.applied ++ [Entry.self i]).count (.stop i) = l.applied.count (.stop i) :=
    OperationList.count_append_ne (by simp)
  refine ⟨?_, ?_, ?_, ?_, fun _ => hrest, fun _ hne => (hne rfl).elim⟩
  · rwa [hs]
  · rw [hs]
    exact h.scheduled
  · rw [ha, hstop]
    exact h.applied
  · intro hzero
    rw [ha, hself] at hzero
    omega

theorem OpInv.applyStop (h : OpInv ops l none i o) (hbegun : 0 < l.applied.count (.self i))
    (hs : l'.scheduled = l.scheduled) (ha : l'.applied = l.applied ++ [.stop i])
    (ho : (ops i).system.step o (ops i).apply = some o') : OpInv ops l' (some i) i o' := by
  obtain ⟨hbegin, hrest⟩ := (ops i).applied o o' ho
  obtain ⟨hq, heq⟩ := TStopOperation.beginApply_eq_some hbegin
  have hstop := OperationList.count_append_self l.applied (Entry.stop i)
  have hself : (l.applied ++ [Entry.stop i]).count (.self i) = l.applied.count (.self i) :=
    OperationList.count_append_ne (by simp)
  have happlied := h.applied
  refine ⟨?_, ?_, ?_, ?_, fun _ => hrest, fun _ hne => (hne rfl).elim⟩
  · rw [hs]
    exact h.once
  · rw [hs, heq]
    exact h.scheduled
  · rw [ha, hstop, heq]
    simp only
    omega
  · intro hzero
    rw [ha, hself] at hzero
    omega

theorem OpInv.requestStop (h : OpInv ops l c i o) (hr : (ops i).role a = .requestStop)
    (ho : (ops i).system.step o a = some o') : OpInv ops l c i o' := by
  obtain ⟨hop, hrest⟩ := (ops i).requestedStop o a o' hr ho
  refine ⟨h.once, ?_, ?_, ?_, ?_, ?_⟩
  · rw [hop]
    exact h.scheduled
  · rw [hop]
    exact h.applied
  · intro hzero
    obtain ⟨hne, hfalse, habs, hpushes⟩ := h.unbegun hzero
    rw [hop, hrest]
    exact ⟨hne, hfalse, TStopOperation.requestStop_absent habs, hpushes⟩
  · rw [hrest]
    exact h.inside
  · rw [hrest]
    exact h.outside

/-- The callback runs only once the operation has begun. -/
theorem OpInv.begun_of_callback (h : OpInv ops l c i o) (hr : (ops i).role a = .callback)
    (ho : (ops i).system.step o a = some o') : 0 < l.applied.count (.self i) := by
  obtain ⟨hstep, -⟩ := (ops i).calledBack o a o' hr ho
  exact h.begun (Or.inr (Or.inr (Or.inl (TStopOperation.callbackStep_frame hstep).1)))

theorem OpInv.callback (h : OpInv ops l c i o) (hr : (ops i).role a = .callback)
    (hne : ∀ b, ((ops i).stopOp o).token.callback ≠ .running b .schedule)
    (ho : (ops i).system.step o a = some o') : OpInv ops l c i o' := by
  have hbegun := h.begun_of_callback hr ho
  obtain ⟨hstep, hrest⟩ := (ops i).calledBack o a o' hr ho
  have hkept : ((ops i).stopOp o').queued = ((ops i).stopOp o).queued ∧
      ((ops i).stopOp o').pushes = ((ops i).stopOp o).pushes := by
    obtain ⟨b, hcase⟩ := TStopOperation.callbackStep_cases hstep
    rcases hcase with ⟨-, -, heq⟩ | ⟨-, -, heq⟩ | ⟨hc, -⟩ | ⟨-, heq⟩
    · exact heq ▸ ⟨rfl, rfl⟩
    · exact heq ▸ ⟨rfl, rfl⟩
    · exact (hne b hc).elim
    · exact heq ▸ ⟨rfl, rfl⟩
  refine ⟨h.once, h.scheduled.trans hkept.2.symm, ?_, fun hzero => by omega, ?_, ?_⟩
  · rw [hkept.1, hkept.2]
    exact h.applied
  · rw [hrest]
    exact h.inside
  · rw [hrest]
    exact h.outside

theorem OpInv.schedule {b : Bool} (h : OpInv ops l c i o) (hr : (ops i).role a = .callback)
    (hc : ((ops i).stopOp o).token.callback = .running b .schedule)
    (ho : (ops i).system.step o a = some o') (hs : l'.scheduled = l.scheduled ++ [.stop i])
    (ha : l'.applied = l.applied) : OpInv ops l' c i o' := by
  have hbegun := h.begun_of_callback hr ho
  obtain ⟨hstep, hrest⟩ := (ops i).calledBack o a o' hr ho
  have hkept : ((ops i).stopOp o').queued = ((ops i).stopOp o).queued + 1 ∧
      ((ops i).stopOp o').pushes = ((ops i).stopOp o).pushes + 1 := by
    simp only [TStopOperation.callbackStep, hc, Option.some.injEq] at hstep
    exact hstep ▸ ⟨rfl, rfl⟩
  have hstop := OperationList.count_append_self l.scheduled (Entry.stop i)
  have hself : (l.scheduled ++ [Entry.stop i]).count (.self i) = l.scheduled.count (.self i) :=
    OperationList.count_append_ne (by simp)
  have hscheduled := h.scheduled
  have happlied := h.applied
  refine ⟨?_, ?_, ?_, ?_, ?_, ?_⟩
  · rw [hs, hself]
    exact h.once
  · rw [hs, hstop, hkept.2, hscheduled]
  · rw [ha, hkept.1, hkept.2]
    omega
  · intro hzero
    rw [ha] at hzero
    omega
  · rw [hrest]
    exact h.inside
  · rw [ha, hrest]
    exact h.outside

theorem calls_kept {a : OperationList.Action (Entry ι) (Entry ι)}
    (hcalls : ∀ e, l.push e ≠ .idle → 0 < l.scheduled.count e) (h : OperationList.step l a = some l')
    (ha : ∀ t op, a = .schedule t op → t = op) :
    ∀ e, l'.push e ≠ .idle → 0 < l'.scheduled.count e := by
  intro e he
  by_cases hsched : ∃ t op, a = .schedule t op
  · obtain ⟨t, op, rfl⟩ := hsched
    obtain rfl := ha t op rfl
    obtain ⟨-, rfl⟩ := OperationList.schedule_eq_some h
    by_cases het : e = t
    · subst het
      show 0 < (l.scheduled ++ [e]).count e
      rw [OperationList.count_append_self]
      exact Nat.succ_pos _
    · have hold : l.push e ≠ .idle := by
        rw [← Function.update_of_ne het (.load t) l.push]
        exact he
      show 0 < (l.scheduled ++ [t]).count e
      rw [OperationList.count_append_ne het]
      exact hcalls e hold
  · have hne : ∀ t op, a ≠ .schedule t op := fun t op heq => hsched ⟨t, op, heq⟩
    have hstep := OperationList.step_cases h
    rw [OperationList.scheduled_kept hstep hne]
    exact hcalls e (OperationList.calling_step hstep (hne e) he)

/-- A step of the list alone, which neither calls `Schedule` nor comes to an entry. -/
theorem Inv.list {s : State ops} {a : OperationList.Action (Entry ι) (Entry ι)} (hi : Inv s)
    (h : OperationList.step s.list a = some l) (hs : ∀ t op, a ≠ .schedule t op)
    (ha : a = .loop → ∀ e, s.list.apply ≠ .loop (some e)) : Inv { s with list := l } where
  calls := calls_kept hi.calls h fun t op heq => (hs t op heq).elim
  op i := by
    have hstep := OperationList.step_cases h
    have hscheduled := OperationList.scheduled_kept hstep hs
    have happlied := OperationList.applied_kept hstep ha
    exact (hi.op i).keep (fun e _ => by rw [hscheduled]) (fun e _ => by rw [happlied]) Iff.rfl

/-- The entries of the other operations stay as they are. -/
theorem OpInv.other {j : ι} {e : Entry ι} {p : (ops j).State} (h : OpInv ops l c j p) (hj : j ≠ e.op)
    (hs : l'.scheduled = l.scheduled ∨ l'.scheduled = l.scheduled ++ [e])
    (ha : l'.applied = l.applied ∨ l'.applied = l.applied ++ [e]) (hc : c' = some j ↔ c = some j) :
    OpInv ops l' c' j p := by
  have hne : ∀ f : Entry ι, f.op = j → f ≠ e := by
    rintro f hf rfl
    exact hj hf.symm
  refine h.keep (fun f hf => ?_) (fun f hf => ?_) hc
  · rcases hs with hs | hs
    · rw [hs]
    · rw [hs, OperationList.count_append_ne (hne f hf)]
  · rcases ha with ha | ha
    · rw [ha]
    · rw [ha, OperationList.count_append_ne (hne f hf)]

theorem Inv.start {s : State ops} (hi : Inv s) (hzero : s.list.scheduled.count (.self i) = 0)
    (h : OperationList.step s.list (.schedule (.self i) (.self i)) = some l) :
    Inv { s with list := l } where
  calls := calls_kept hi.calls h fun t op heq => by cases heq; rfl
  op j := by
    obtain ⟨-, rfl⟩ := OperationList.schedule_eq_some h
    have hj := hi.op j
    by_cases hji : j = i
    · subst hji
      have hself := OperationList.count_append_self s.list.scheduled (Entry.self j)
      have hstop : (s.list.scheduled ++ [Entry.self j]).count (.stop j) =
          s.list.scheduled.count (.stop j) := OperationList.count_append_ne (by simp)
      refine ⟨?_, hstop.trans hj.scheduled, hj.applied, hj.unbegun, hj.inside, hj.outside⟩
      show (s.list.scheduled ++ [Entry.self j]).count (Entry.self j) ≤ 1
      omega
    · exact hj.other (e := .self i) hji (Or.inr rfl) (Or.inl rfl) Iff.rfl

/-- The loop's thread goes on in the code of `i`, or comes out of it. -/
theorem Inv.follow {s : State ops} (hi : Inv s) (hcur : ∀ j, s.current = some j → j = i)
    (hbegun : 0 < s.list.applied.count (.self i))
    (hkept : ((ops i).stopOp o).queued = (s.stopOp i).queued ∧
      ((ops i).stopOp o).pushes = (s.stopOp i).pushes) : Inv ((s.setOp i o).follow i) where
  calls := hi.calls
  op := by
    have hcurrent : ((s.setOp i o).follow i).current =
        if (ops i).atRest o then none else some i := by simp [State.follow]
    rw [hcurrent]
    refine (Function.forall_update_iff s.op fun j p =>
      OpInv ops s.list (if (ops i).atRest o then none else some i) j p).mpr ⟨?_, fun j hji => ?_⟩
    · exact (hi.op i).move hbegun hkept.1 hkept.2
    · refine (hi.op j).keep (fun _ _ => rfl) (fun _ _ => rfl) (iff_of_false ?_ ?_)
      · split
        · simp
        · simp [Ne.symm hji]
      · exact fun hj => hji (hcur j hj)

theorem inv_step {s s' : State ops} {a : Action ops} (hl : OperationList.system.Reachable s.list)
    (hi : Inv s) (h : Step s a s') : Inv s' := by
  cases h with
  | start i l hzero h => exact hi.start hzero h
  | push e l h | failSpuriously e l h | deliver l _ h => exact hi.list h (by simp) (by simp)
  | loop l _ hne h => exact hi.list h (by simp) fun _ => hne
  | begin i l hcur hp h =>
    have hscheduled := OperationList.scheduled_kept (OperationList.step_cases h) (by simp)
    have happlied := OperationList.applied_loop hp h
    refine ⟨calls_kept hi.calls h (by simp), fun j => ?_⟩
    have hj := hi.op j
    rw [hcur] at hj
    by_cases hji : j = i
    · subst hji
      exact hj.begin (OperationList.pending_of_loop hl hp) hscheduled happlied
    · exact hj.other (e := .self i) hji (Or.inl hscheduled) (Or.inr happlied)
        (by simp [Ne.symm hji])
  | applyStop i l o hcur hp h ho =>
    have hscheduled := OperationList.scheduled_kept (OperationList.step_cases h) (by simp)
    have happlied := OperationList.applied_loop hp h
    have hpending := OperationList.pending_of_loop hl hp
    simp only [OperationList.State.pending, decide_eq_true_eq] at hpending
    refine ⟨calls_kept hi.calls h (by simp), ?_⟩
    refine (Function.forall_update_iff s.op fun j p => OpInv ops l (some i) j p).mpr ⟨?_, ?_⟩
    · have hself := hi.op i
      have hscheduledStop := hself.scheduled
      rw [hcur] at hself
      exact hself.applyStop (hself.begun (Or.inr (Or.inr (Or.inr (by omega))))) hscheduled happlied ho
    · intro j hji
      have hj := hi.op j
      rw [hcur] at hj
      exact hj.other (e := .stop i) hji (Or.inl hscheduled) (Or.inr happlied) (by simp [Ne.symm hji])
  | inside i a o hr hcur ho =>
    refine hi.follow ?_ ((hi.op i).begun (Or.inl hcur)) ((ops i).kept _ a o (Or.inl hr) ho)
    intro j hj
    rw [hcur] at hj
    exact (Option.some.inj hj).symm
  | called i a o hr hcur hidle ho =>
    have hrest := (ops i).called _ a o hr ho
    refine hi.follow ?_ ((hi.op i).begun (Or.inr (Or.inl hrest))) ((ops i).kept _ a o (Or.inr hr) ho)
    intro j hj
    simp [hcur] at hj
  | requestStop i a o hr ho =>
    refine ⟨hi.calls, ?_⟩
    refine (Function.forall_update_iff s.op fun j p => OpInv ops s.list s.current j p).mpr ⟨?_, ?_⟩
    · exact (hi.op i).requestStop hr ho
    · exact fun j _ => hi.op j
  | schedule i a o b l hr hc ho h =>
    obtain ⟨-, heq⟩ := OperationList.schedule_eq_some h
    have hscheduled : l.scheduled = s.list.scheduled ++ [.stop i] := by rw [heq]
    have happlied : l.applied = s.list.applied := by rw [heq]
    refine ⟨calls_kept hi.calls h fun t op heq => by cases heq; rfl, ?_⟩
    refine (Function.forall_update_iff s.op fun j p => OpInv ops l s.current j p).mpr ⟨?_, ?_⟩
    · exact (hi.op i).schedule hr hc ho hscheduled happlied
    · exact fun j hji => (hi.op j).other (e := .stop i) hji (Or.inr hscheduled) (Or.inl happlied) Iff.rfl
  | callback i a o hr hne ho =>
    refine ⟨hi.calls, ?_⟩
    refine (Function.forall_update_iff s.op fun j p => OpInv ops s.list s.current j p).mpr ⟨?_, ?_⟩
    · exact (hi.op i).callback hr hne ho
    · exact fun j _ => hi.op j

theorem reachable_inv {s : State ops} (h : (system ops).ReachableVia Admitted s) : Inv s := by
  refine System.ReachableVia.invariant
    (fun s hs => listView.reachable hs.reachable) ?_ ?_ h
  · rintro s ⟨hlist, hcur, hop⟩
    refine ⟨fun e he => (he (by rw [hlist]; rfl)).elim, fun i => ?_⟩
    obtain ⟨hstop, hrest⟩ := (ops i).initial _ (hop i)
    rw [hlist, hcur]
    constructor <;> simp [OperationList.initial, hstop, hrest]
  · intro s a s' hl hi _ hs
    exact inv_step hl hi (step_cases hs)

/-! ### The loop's thread does not get stuck -/

variable {s : State ops}

/-- What the model of one operation, with its stop operation in a list of its own and
the loop's thread at hand, says of an operation on a loop with others. -/
structure Refines (s : State ops) : Prop where
  list : OperationList.system.Reachable s.list
  op : ∀ i, (ops i).system.ReachableVia (ops i).ok (s.op i)
  queued : ∀ i, (s.stopOp i).queued = if s.list.pending (.stop i) then 1 else 0
  alone : ∀ i j, .self i ∈ s.list.applied → .self j ∈ s.list.applied →
    (ops i).atRest (s.op i) = false → (ops j).atRest (s.op j) = false → i = j
  progress : s.current ≠ none ∨ s.list.apply ≠ .idle →
    ∃ a, ¬ Environment a ∧ (step s a).isSome

/-- The loop has come to its poll with nothing listed. Every operation that has been
started has completed its receiver once, or waits for its event, has not been asked
to stop, and has the callback registered that a stop request will invoke. -/
structure Settled (s : State ops) : Prop where
  current : s.current = none
  apply : s.list.apply = .idle
  head : s.list.head = none
  calls : ∀ e, s.list.push e = .idle
  started : ∀ i, .self i ∈ s.list.scheduled → (ops i).completions (s.op i) = 1 ∨
    (ops i).waiting (s.op i) = true ∧ (ops i).completions (s.op i) = 0 ∧
      (s.stopOp i).token.callback = .registered ∧ (s.stopOp i).token.requested = false

end
end UvExec.Dispatch
