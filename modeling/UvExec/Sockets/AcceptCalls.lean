import UvExec.Sockets.AcceptOps
import UvExec.Util.IntrusiveList

/-! # The calls of `TAcceptReceiver::set_value` on the thread of the loop

The listener with the links of `AcceptList` and with the calls that have come to
`RegisterAccept` and not to `Setup`. Inside one the thread does not return to
the loop, and other accepts are started only by the completion of its own. -/

namespace UvExec.TcpListener
open Lib

/- `calls` begins with the innermost call. `popped` is history: the operations
that `ConnectionCallback` took off the list. -/
structure LoopThread (A : Type) extends State A where
  links : TIntrusiveList A := {}
  calls : List A := []
  popped : A → Bool := fun _ => false

variable {A : Type} [DecidableEq A]

namespace LoopThread

def admits (s : LoopThread A) : Action A → Bool
  | .register _ _ =>
    match s.calls with
    | [] => true
    | c :: _ => !(s.accept c).completions.isEmpty
  | .setup a => decide (s.calls.head? = some a)
  | .connection _ | .apply _ => s.calls.isEmpty
  | .loop | .uvAccept _ | .requestStop _ | .callback _ => true

def pop (s : LoopThread A) (status : Int) : Option (A × TIntrusiveList A) :=
  if isError status || s.links.empty then none else s.links.pop

def nextLinks (s : LoopThread A) : Action A → TIntrusiveList A
  | .register a _ => if 0 < s.pendingConnections then s.links else s.links.add a
  | .connection status =>
    match s.pop status with
    | none => s.links
    | some (_, l) => l
  | .apply a => s.links.erase a
  | .setup _ | .loop | .uvAccept _ | .requestStop _ | .callback _ => s.links

def nextCalls (s : LoopThread A) : Action A → List A
  | .register a _ => a :: s.calls
  | .setup _ => s.calls.tail
  | .connection _ | .loop | .uvAccept _ | .apply _ | .requestStop _ | .callback _ => s.calls

def nextPopped (s : LoopThread A) : Action A → A → Bool
  | .connection status =>
    match s.pop status with
    | none => s.popped
    | some (a, _) => Function.update s.popped a true
  | .register _ _ | .setup _ | .loop | .uvAccept _ | .apply _ | .requestStop _ | .callback _ =>
    s.popped

def step (s : LoopThread A) (act : Action A) : Option (LoopThread A) :=
  if s.admits act then
    (TcpListener.step s.toState act).map fun t =>
      { toState := t, links := s.nextLinks act, calls := s.nextCalls act, popped := s.nextPopped act }
  else none

def system : System (LoopThread A) (Action A) where
  initial s := ∃ t, TcpListener.system.initial t ∧ s = { toState := t }
  step := step

/-- A step of the listener that the calls admit. -/
structure Stepped (s : LoopThread A) (act : Action A) (s' : LoopThread A) : Prop where
  admitted : s.admits act = true
  step : Step s.toState act s'.toState
  links : s'.links = s.nextLinks act
  calls : s'.calls = s.nextCalls act
  popped : s'.popped = s.nextPopped act

variable {s s' : LoopThread A} {act : Action A}

theorem listener_step (h : step s act = some s') :
    TcpListener.step s.toState act = some s'.toState := by
  simp only [step] at h
  split at h
  · obtain ⟨t, ht, rfl⟩ := Option.map_eq_some_iff.mp h
    exact ht
  · cases h

theorem step_cases (h : step s act = some s') : Stepped s act s' := by
  have hstep := listener_step h
  simp only [step] at h
  split at h
  · obtain ⟨t, ht, rfl⟩ := Option.map_eq_some_iff.mp h
    exact ⟨‹_›, TcpListener.step_cases hstep, rfl, rfl, rfl⟩
  · cases h

theorem reachable_listener (h : system.Reachable s) : TcpListener.system.Reachable s.toState := by
  refine System.ReachableVia.map toState (fun s hs => ?_) (fun _ _ _ _ hs => ?_) h
  · obtain ⟨t, ht, rfl⟩ := hs
    exact ht
  · exact ⟨trivial, listener_step hs⟩

theorem listInv (h : system.Reachable s) : ListInv s.toState :=
  reachable_listInv (reachable_listener h)

theorem opsInv (h : system.Reachable s) : OpsInv s.toState :=
  reachable_opsInv (reachable_listener h)

/-! ### The links -/

theorem pop_of_error {status : Int} (he : isError status = true) : s.pop status = none := by
  simp [pop, he]

theorem pop_of_empty {status : Int} (h : s.links.Represents s.acceptList)
    (hl : s.acceptList = []) : s.pop status = none := by
  have hempty := h.empty_iff.mpr hl
  simp [pop, hempty]

theorem pop_of_cons {status : Int} {a : A} {rest : List A} (h : s.links.Represents s.acceptList)
    (he : isError status = false) (hl : s.acceptList = a :: rest) :
    s.pop status = some (a, s.links.erase a) := by
  have hempty : s.links.empty = false := by
    by_contra hne
    have hnil := h.empty_iff.mp (by simpa using hne)
    simp [hl] at hnil
  rcases h.pop with ⟨hnil, -⟩ | ⟨b, l, hcons, hpop, -⟩
  · simp [hl] at hnil
  · obtain ⟨rfl, rfl⟩ := List.cons.inj (hl.symm.trans hcons)
    simp [pop, he, hempty, hpop]

theorem links_step (hr : s.links.Represents s.acceptList) (hi : OpsInv s.toState)
    (hs : Stepped s act s') : s'.links.Represents s'.acceptList := by
  have hfresh (a : A) (ha : (s.accept a).phase = .fresh) : a ∉ s.acceptList :=
    fun hmem => hi.listed a hmem ha
  obtain ⟨-, hstep, hl, -, -⟩ := hs
  rw [hl]
  obtain ⟨t, l, c, p⟩ := s'
  cases hstep with
  | claim a err hc hf hp => simpa [nextLinks, hp] using hr
  | add a err hc hf hp => simpa [nextLinks, hp] using hr.add (hfresh a hf)
  | listen a err hc hf hp he | listenFailed a err hc hf hp he =>
    have hno : ¬ 0 < s.pendingConnections := by omega
    simpa [nextLinks, hno] using hr.add (hfresh a hf)
  | connectionFailed status hc he => simpa [nextLinks, pop_of_error he] using hr
  | pend status hc he hnil => simpa [nextLinks, pop_of_empty hr hnil] using hr
  | pop status a rest hc he hcons =>
    have herase := hr.erase a
    rw [hcons, List.erase_cons_head] at herase
    simpa [nextLinks, pop_of_cons hr he hcons] using herase
  | apply a hc hq => exact hr.erase a
  | _ => exact hr

theorem popped_step (hr : s.links.Represents s.acceptList) (hs : Stepped s act s') (b : A) :
    s'.popped b = s.popped b ∨ b ∈ s.acceptList ∧ s'.popped b = true ∧ s'.pc = .accept b := by
  obtain ⟨-, hstep, -, -, hp⟩ := hs
  rw [hp]
  obtain ⟨t, l, c, p⟩ := s'
  cases hstep with
  | connectionFailed status hc he => exact Or.inl (by simp [nextPopped, pop_of_error he])
  | pend status hc he hnil => exact Or.inl (by simp [nextPopped, pop_of_empty hr hnil])
  | pop status a rest hc he hcons =>
    have hpop := pop_of_cons hr he hcons
    by_cases hba : b = a
    · subst hba
      exact Or.inr ⟨hcons ▸ List.mem_cons_self, by simp [nextPopped, hpop], rfl⟩
    · exact Or.inl (by simp [nextPopped, hpop, hba])
  | _ => exact Or.inl rfl

/-- The links are those of the list, and an operation that is not registered has
not been popped. -/
structure LinksInv (s : LoopThread A) : Prop where
  links : s.links.Represents s.acceptList
  unpopped : ∀ b, (s.accept b).phase = .fresh → s.popped b = false

theorem linksInv_step (h : LinksInv s) (hi : OpsInv s.toState) (hs : Stepped s act s') :
    LinksInv s' := by
  refine ⟨links_step h.links hi hs, fun b hb => ?_⟩
  have hf : (s.accept b).phase = .fresh := by
    by_contra hne
    exact phase_step hs.step hne hb
  rcases popped_step h.links hs b with heq | ⟨hmem, -, -⟩
  · rw [heq, h.unpopped b hf]
  · exact (hi.listed b hmem hf).elim

theorem linksInv (h : system.Reachable s) : LinksInv s := by
  refine System.Reachable.invariant_of (fun _ => opsInv) (fun t ht => ?_) (fun t a t' hk hi hs => ?_) h
  · obtain ⟨u, hu, rfl⟩ := ht
    obtain ⟨-, hnil, -⟩ := initial_idle hu
    exact ⟨by rw [hnil]; exact TIntrusiveList.Represents.initial, fun _ _ => rfl⟩
  · exact linksInv_step hi hk (step_cases hs)

/-! ### Completions inside of `RegisterAccept` -/

theorem loop_eq {t : State A} (h : loopStep s.toState = some t) :
    step s .loop = some { s with toState := t } := by
  simp [step, admits, TcpListener.step, h, nextLinks, nextCalls, nextPopped]

theorem testAndSet_eq {op : TStopOperation} (hu : op.used = false) :
    op.testAndSet .completion = ({ op with used := true, taker := some .completion }, false) := by
  simp [TStopOperation.testAndSet, hu]

theorem resetCallback_of_absent {op : TStopOperation} (h : op.token.callback = .absent) :
    ∃ op', op.resetCallback = some op' := by
  cases he : op.engaged <;> simp [TStopOperation.resetCallback, StopToken.destroy, h, he]

variable {a : A} {err : Int} {op : TStopOperation}

/-- What an operation has reached that is completed inside of `RegisterAccept`,
of which the rest of `TAcceptReceiver::set_value` knows nothing. -/
structure CompletedInside (s t : LoopThread A) (a : A) : Prop where
  idle : t.pc = .idle
  links : t.links = s.links
  calls : t.calls = s.calls
  phase : (t.accept a).phase = (s.accept a).phase
  completed : (t.accept a).completions ≠ []

theorem accept_completes (hpc : s.pc = .accept a) (hu : (s.accept a).stopOp.used = false)
    (hcb : (s.accept a).stopOp.token.callback = .absent) :
    ∃ t, system.exec s [.loop, .loop, .uvAccept 0] = some t ∧ CompletedInside s t a ∧
      .value () ∈ (t.accept a).completions := by
  let taken : TStopOperation :=
    { (s.accept a).stopOp with used := true, taker := some .completion }
  obtain ⟨op, hop⟩ : ∃ op, taken.resetCallback = some op := resetCallback_of_absent hcb
  let u : LoopThread A := { s with
    toState := { s.toState.setStopOp a taken with pc := .acceptReset a } }
  let v : LoopThread A := { u with toState := { u.toState.setStopOp a op with pc := .uvAccept a } }
  let w : LoopThread A := { v with
    toState := { v.toState with accepts := v.accepts + 1 }.complete a (.value ()) }
  have h1 : loopStep s.toState = some u.toState := by
    simp [loopStep, hpc, testAndSet_eq hu, u, taken]
  have h2 : loopStep u.toState = some v.toState := by simp [loopStep, hop, u, v]
  have h3 : system.step v (.uvAccept 0) = some w := by
    simp [system, step, admits, TcpListener.step, nextLinks, nextCalls, nextPopped, isError, v, w]
  refine ⟨w, ?_, ⟨rfl, rfl, rfl, by simp [w, v, u], by simp [w]⟩, by simp [w]⟩
  rw [System.exec_cons _ (loop_eq h1), System.exec_cons _ (loop_eq h2), System.exec_cons _ h3]
  rfl

theorem error_completes (hpc : s.pc = .error a err) (hu : (s.accept a).stopOp.used = false)
    (hcb : (s.accept a).stopOp.token.callback = .absent) :
    ∃ t, system.exec s [.loop, .loop, .loop] = some t ∧ CompletedInside s t a := by
  let taken : TStopOperation :=
    { (s.accept a).stopOp with used := true, taker := some .completion }
  obtain ⟨op, hop⟩ : ∃ op, taken.resetCallback = some op := resetCallback_of_absent hcb
  let u : LoopThread A := { s with
    toState := { s.toState.setStopOp a taken with pc := .errorReset a err } }
  let v : LoopThread A := { u with
    toState := { u.toState.setStopOp a op with pc := .setError a err } }
  let w : LoopThread A := { v with toState := v.toState.complete a (.error err) }
  have h1 : loopStep s.toState = some u.toState := by
    simp [loopStep, hpc, testAndSet_eq hu, u, taken]
  have h2 : loopStep u.toState = some v.toState := by simp [loopStep, hop, u, v]
  have h3 : loopStep v.toState = some w.toState := by simp [loopStep, v, w]
  refine ⟨w, ?_, rfl, rfl, rfl, by simp [w, v, u], by simp [w]⟩
  rw [System.exec_cons _ (loop_eq h1), System.exec_cons _ (loop_eq h2), System.exec_cons _ (loop_eq h3)]
  rfl

theorem register_clear (h : system.Reachable s) (hs : step s (.register a err) = some s') :
    (s'.accept a).stopOp.used = false ∧ (s'.accept a).stopOp.token.callback = .absent := by
  have hstep := (step_cases hs).step
  obtain ⟨hpc, hf⟩ := register_enabled hstep
  have hi := opsInv h
  have hl := listInv h
  have hne : (s.accept a).phase ≠ .setup := by simp [hf]
  rw [(register_op hstep).1]
  exact ⟨hi.unused hl hne (hi.fresh a hf) (by simp [hpc, Pc.taken]), hl.callback a hne⟩

/-- `RegisterAccept` adds the operation to the list, or completes it. -/
theorem register_cases (h : system.Reachable s) (hs : step s (.register a err) = some s') :
    s.pendingConnections ≤ 0 ∧ (s.pendingConnections < 0 → isError err = false) ∨
      ∃ as t, system.exec s' as = some t ∧ CompletedInside s' t a := by
  obtain ⟨hu, hcb⟩ := register_clear h hs
  rcases register_outcome (step_cases hs).step with ⟨-, hpc⟩ | ⟨hp, hok, -⟩ | ⟨-, -, hpc⟩
  · obtain ⟨t, ht, hin, -⟩ := accept_completes hpc hu hcb
    exact Or.inr ⟨_, t, ht, hin⟩
  · exact Or.inl ⟨hp, hok⟩
  · obtain ⟨t, ht⟩ := error_completes hpc hu hcb
    exact Or.inr ⟨_, t, ht⟩

end LoopThread
end UvExec.TcpListener
