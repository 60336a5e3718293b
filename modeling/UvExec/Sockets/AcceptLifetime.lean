import UvExec.Sockets.AcceptLinks
import UvExec.Sockets.AcceptMemory

/-! # The completion is the last that is done to an accept

Its receiver may destroy the operation, so no later step may come to it, be it a
step of its own or one that follows a link or a registration to it. -/

namespace UvExec.TcpListener
open Lib

namespace LoopThread
variable {A : Type} [DecidableEq A]

/-- An operation completes at most once, and what it is completed by is the last
step that touches it. -/
structure CompletedLast (s : LoopThread A) : Prop where
  once : ∀ b, (s.accept b).completions.length ≤ 1
  last : ∀ act s' b, step s act = some s' → b ∈ s.touched act → (s.accept b).completions = []

/-- No accept is completed by its own `RegisterAccept`: there is no unclaimed
connection, and `StartListening` succeeds if it is called. -/
def Deferred (s : LoopThread A) : Action A → Prop
  | .register _ err => s.pendingConnections ≤ 0 ∧ (s.pendingConnections < 0 → isError err = false)
  | .setup _ | .connection _ | .loop | .uvAccept _ | .apply _ | .requestStop _ | .callback _ => True

structure LifeInv (s : LoopThread A) : Prop where
  calls : s.calls = [] ∨ ∃ a, s.calls = [a] ∧ s.pc = .idle ∧ (s.accept a).completions = []
  handled : ∀ b, s.pc.op = some b → (s.accept b).completions = []
  engaged : ∀ b, (s.accept b).stopOp.token.callback ≠ .absent →
    (s.accept b).stopOp.engaged = true ∨ s.pc = .setupDone b
  absent : ∀ b, (s.accept b).completions ≠ [] ∨ s.pc.finishing = some b →
    (s.accept b).stopOp.token.callback = .absent
  once : ∀ b, (s.accept b).completions.length ≤ 1

variable {s s' : LoopThread A} {act : Action A} {a b : A}

omit [DecidableEq A] in
theorem Deferred.listens (h : Deferred s act) : Listens s act := by
  cases act with
  | register a err => exact h.2
  | _ => trivial

theorem LifeInv.completions_of_setup (hi : LifeInv s) (hadm : s.admits (.setup a) = true) :
    (s.accept a).completions = [] := by
  rw [admits, decide_eq_true_eq] at hadm
  rcases hi.calls with hnil | ⟨c, hcalls, -, hcomp⟩
  · simp [hnil] at hadm
  · rw [hcalls] at hadm
    cases hadm
    exact hcomp

theorem LifeInv.calls_of_register {err : Int} (hi : LifeInv s)
    (hadm : s.admits (.register a err) = true) : s.calls = [] := by
  rcases hi.calls with hnil | ⟨c, hcalls, -, hcomp⟩
  · exact hnil
  · simp [admits, hcalls, hcomp] at hadm

theorem calls_step (hi : LifeInv s) (ho : OpsInv s.toState) (hok : Deferred s act)
    (hs : Stepped s act s') :
    s'.calls = [] ∨ ∃ a, s'.calls = [a] ∧ s'.pc = .idle ∧ (s'.accept a).completions = [] := by
  have hadm := hs.admitted
  have hcalls := hs.calls
  have hidle (hne : s.pc ≠ .idle) : s.calls = [] :=
    hi.calls.resolve_right (fun h => hne h.choose_spec.2.1)
  obtain ⟨t, l, c, p⟩ := s'
  simp only at hcalls
  subst hcalls
  cases hs.step with
  | claim a err hc hf hp =>
    have hle := hok.1
    omega
  | listenFailed a err hc hf hp he => simp [hok.2 hp] at he
  | add a err hc hf | listen a err hc hf =>
    refine Or.inr ⟨a, by simp [nextCalls, hi.calls_of_register hadm], hc, ?_⟩
    simpa using ho.fresh a hf
  | setup a =>
    refine Or.inl ?_
    rcases hi.calls with hnil | ⟨c, hcalls, -, -⟩
    · simp [nextCalls, hnil]
    · simp [nextCalls, hcalls]
  | connectionFailed | pend | pop | apply =>
    exact Or.inl (List.isEmpty_iff.mp hadm)
  | requestStop a | callback a op hr =>
    refine hi.calls.imp_right (fun h => ?_)
    obtain ⟨c, hcalls, hc, hcomp⟩ := h
    exact ⟨c, hcalls, hc, (completions_update (by rfl) c).trans hcomp⟩
  | acceptLost a hc | acceptWon a hc | acceptReset a op hc | uvAccept a err hc | errorLost a err hc
  | errorWon a err hc | errorReset a err op hc | setError a err hc | setupDone a hc
  | stopReset a op hc | setStopped a hc => exact Or.inl (hidle (by simp [hc]))

theorem handled_completions_step (hi : LifeInv s) (ho : OpsInv s.toState) (hw : WaitInv s)
    (hs : Stepped s act s') : ∀ b, s'.pc.op = some b → (s'.accept b).completions = [] := by
  intro b hb
  have hold : (s.accept b).completions = [] := by
    rcases pc_step hs.step hb with ⟨hop, -⟩ | ⟨-, ⟨err, -, hf⟩ | ⟨rfl, -⟩ | ⟨-, hq⟩ | ⟨hmem, -⟩⟩
    · exact hi.handled b hop
    · exact ho.fresh b hf
    · exact hi.completions_of_setup hs.admitted
    · exact ho.completions_of_queued hq
    · exact ((hw.listed b).mp hmem).uncompleted
  rcases completions_step hs.step b with heq | ⟨-, hc, -⟩
  · rw [heq, hold]
  · simp [hc, Pc.op] at hb

theorem engaged_update {f : A → TAcceptOpState} {op : TAcceptOpState} {pc pc' : Pc A}
    (hold : ∀ b, (f b).stopOp.token.callback ≠ .absent →
      (f b).stopOp.engaged = true ∨ pc = .setupDone b)
    (hpc : ∀ b, b ≠ a → pc = .setupDone b → pc' = .setupDone b)
    (ha : op.stopOp.token.callback ≠ .absent → op.stopOp.engaged = true ∨ pc' = .setupDone a) :
    ∀ b, (Function.update f a op b).stopOp.token.callback ≠ .absent →
      (Function.update f a op b).stopOp.engaged = true ∨ pc' = .setupDone b :=
  (Function.forall_update_iff f fun b o => o.stopOp.token.callback ≠ .absent →
      o.stopOp.engaged = true ∨ pc' = .setupDone b).mpr
    ⟨ha, fun b hb h => (hold b h).imp_right (hpc b hb)⟩

theorem engaged_step (hi : LifeInv s) (hs : Stepped s act s') :
    ∀ b, (s'.accept b).stopOp.token.callback ≠ .absent →
      (s'.accept b).stopOp.engaged = true ∨ s'.pc = .setupDone b := by
  have hold := hi.engaged
  have hstep := hs.step
  -- outside of `Setup` what is registered is engaged
  have helse (hpc : ∀ c, s.pc ≠ .setupDone c) (b : A)
      (h : (s.accept b).stopOp.token.callback ≠ .absent) : (s.accept b).stopOp.engaged = true :=
    (hold b h).resolve_right (hpc b)
  obtain ⟨t, l, c, p⟩ := s'
  cases hstep with
  | connectionFailed | pend => exact hold
  | pop status a rest hc | acceptLost a hc | errorLost a err hc =>
    exact fun b h => Or.inl (helse (by simp [hc]) b h)
  | add a | listen a => exact engaged_update hold (fun _ _ h => h) (hold a)
  | claim a err hc | listenFailed a err hc | apply a hc | acceptWon a hc | errorWon a err hc
  | uvAccept a err hc | setError a err hc | setStopped a hc =>
    exact engaged_update hold (by simp [hc]) (fun h => Or.inl (helse (by simp [hc]) a h))
  | setup a hc => exact engaged_update hold (by simp [hc]) (fun _ => Or.inr rfl)
  | setupDone a hc =>
    refine engaged_update hold (fun b hb h => ?_) (fun _ => Or.inl rfl)
    rw [hc] at h
    exact (hb (Pc.setupDone.inj h).symm).elim
  | acceptReset a op hc hr | errorReset a err op hc hr | stopReset a op hc hr =>
    refine engaged_update hold (by simp [hc]) (fun h => ?_)
    rcases TStopOperation.resetCallback_cases hr with ⟨-, rfl⟩ | ⟨-, -, rfl⟩
    · exact Or.inl (helse (by simp [hc]) a h)
    · exact (h rfl).elim
  | requestStop a =>
    refine engaged_update hold (fun _ _ h => h) (fun h => hold a (fun habs => h ?_))
    exact (s.accept a).stopOp.requestStop_absent habs
  | callback a op hr =>
    obtain ⟨hne, -, heng⟩ := TStopOperation.callbackStep_frame hr
    refine engaged_update hold (fun _ _ h => h) (fun _ => ?_)
    exact (hold a hne).imp_left (fun h => heng.trans h)

theorem absent_update {f : A → TAcceptOpState} {op : TAcceptOpState} {cur cur' : Option A}
    (hold : ∀ b, (f b).completions ≠ [] ∨ cur = some b → (f b).stopOp.token.callback = .absent)
    (hcur : ∀ b, b ≠ a → cur' = some b → cur = some b)
    (ha : op.completions ≠ [] ∨ cur' = some a → op.stopOp.token.callback = .absent) :
    ∀ b, (Function.update f a op b).completions ≠ [] ∨ cur' = some b →
      (Function.update f a op b).stopOp.token.callback = .absent :=
  completed_update (P := fun o => o.token.callback = .absent) hold hcur ha

theorem absent_step (hi : LifeInv s) (hs : Stepped s act s') :
    ∀ b, (s'.accept b).completions ≠ [] ∨ s'.pc.finishing = some b →
      (s'.accept b).stopOp.token.callback = .absent := by
  have hold := hi.absent
  have hadm := hs.admitted
  have hstep := hs.step
  have hothers {a : A} : ∀ b, b ≠ a → some a = some b → s.pc.finishing = some b :=
    fun b hb h => (hb (Option.some.inj h).symm).elim
  obtain ⟨t, l, c, p⟩ := s'
  cases hstep with
  | connectionFailed | pend => exact hold
  | pop | acceptLost | errorLost => exact completed_pc (P := fun o => o.token.callback = .absent) hold
  | add a | listen a => exact absent_update hold (fun _ _ h => h) (hold a)
  | claim a | listenFailed a | apply a | acceptWon a | errorWon a | setupDone a =>
    exact absent_update hold (by simp [Pc.finishing])
      (fun h => hold a (h.imp_right (by simp [Pc.finishing])))
  | setup a =>
    refine absent_update hold (by simp [Pc.finishing]) (fun h => ?_)
    simp [hi.completions_of_setup hadm, Pc.finishing] at h
  | acceptReset a op hc hr | errorReset a err op hc hr | stopReset a op hc hr =>
    refine absent_update hold hothers (fun _ => ?_)
    rcases TStopOperation.resetCallback_cases hr with ⟨hdis, rfl⟩ | ⟨-, -, rfl⟩
    · by_contra hne
      rcases hi.engaged a hne with heng | hpc
      · simp [hdis] at heng
      · simp [hc] at hpc
    · rfl
  | uvAccept a err hc | setError a err hc | setStopped a hc =>
    exact absent_update hold (by simp [Pc.finishing]) (fun _ => hold a (Or.inr (by rw [hc]; rfl)))
  | requestStop a =>
    exact absent_update hold (fun _ _ h => h)
      (fun h => (s.accept a).stopOp.requestStop_absent (hold a h))
  | callback a op hr =>
    refine absent_update hold (fun _ _ h => h) (fun h => ?_)
    exact ((TStopOperation.callbackStep_frame hr).1 (hold a h)).elim

theorem once_step (hi : LifeInv s) (hs : Stepped s act s') :
    ∀ b, (s'.accept b).completions.length ≤ 1 := by
  intro b
  rcases completions_step hs.step b with heq | ⟨hpc, -, c, heq⟩
  · rw [heq]
    exact hi.once b
  · rw [heq, hi.handled b (Pc.op_of_finishing hpc)]
    simp

theorem lifeInv_initial (h : system.initial s) : LifeInv s := by
  obtain ⟨t, ht, rfl⟩ := h
  obtain ⟨hpc, -, hop⟩ := initial_idle ht
  constructor <;> simp [hpc, hop, Pc.op, Pc.finishing]

theorem lifeInv (h : system.ReachableVia Deferred s) : LifeInv s := by
  refine System.ReachableVia.invariant (K := fun t => OpsInv t.toState ∧ WaitInv t)
    (fun t ht => ⟨opsInv ht.reachable, waitInv (ht.mono fun _ _ => Deferred.listens)⟩)
    (fun t => lifeInv_initial) ?_ h
  intro t a t' hk hi hok hs
  obtain ⟨ho, hw⟩ := hk
  have hstep := step_cases hs
  exact ⟨calls_step hi ho hok hstep, handled_completions_step hi ho hw hstep,
    engaged_step hi hstep, absent_step hi hstep, once_step hi hstep⟩

theorem uncompleted_of_link (hw : WaitInv s) (hr : s.links.Represents s.acceptList)
    (hb : s.links.head = some b ∨ b ∈ s.links.linked a) : (s.accept b).completions = [] := by
  simp only [TIntrusiveList.linked, List.mem_append, Option.mem_toList] at hb
  exact ((hw.listed b).mp (hr.mem_of_link (a := a) hb)).uncompleted

/-- In every run in which no accept is completed by its own registration, the
completion is the last that is done to an accept. -/
theorem accept_completed_last (h : system.ReachableVia Deferred s) : CompletedLast s := by
  have hi := lifeInv h
  have hw := waitInv (h.mono fun _ _ => Deferred.listens)
  have ho := opsInv h.reachable
  have hr := (linksInv h.reachable).links
  refine ⟨hi.once, fun act s' b hs hb => ?_⟩
  obtain ⟨hadm, hstep, -, -, -⟩ := step_cases hs
  cases act with
  | register a err =>
    have hfresh := ho.fresh a (register_enabled hstep).2
    simp only [touched] at hb
    split at hb
    · cases List.mem_singleton.mp hb
      exact hfresh
    · rcases List.mem_cons.mp hb with rfl | hhead
      · exact hfresh
      · exact uncompleted_of_link (a := a) hw hr (Or.inl (Option.mem_toList.mp hhead))
  | setup a =>
    cases List.mem_singleton.mp hb
    exact hi.completions_of_setup hadm
  | connection status =>
    simp only [touched] at hb
    split at hb
    · cases hb
    · split at hb
      · cases hb
      next a hhead =>
        rcases List.mem_cons.mp hb with rfl | hlinked
        · exact uncompleted_of_link (a := b) hw hr (Or.inl hhead)
        · exact uncompleted_of_link hw hr (Or.inr hlinked)
  | loop | uvAccept err => exact hi.handled b (Option.mem_toList.mp hb)
  | apply a =>
    rcases List.mem_cons.mp hb with rfl | hlinked
    · exact ho.completions_of_queued (apply_enabled hstep)
    · exact uncompleted_of_link hw hr (Or.inr hlinked)
  | requestStop a =>
    have hcb : b = a ∧ (s.accept a).stopOp.token.callback ≠ .absent := by
      simp only [touched] at hb
      split at hb
      · cases hb
      all_goals exact ⟨List.mem_singleton.mp hb, by simp_all⟩
    obtain ⟨rfl, hne⟩ := hcb
    by_contra hcomp
    exact hne (hi.absent b (Or.inl hcomp))
  | callback a =>
    cases List.mem_singleton.mp hb
    by_contra hcomp
    exact callback_enabled hstep (hi.absent b (Or.inl hcomp))

/-- Every other step completes an operation that `Setup` comes to. -/
theorem not_completed_last (h : system.Reachable s) (hok : ¬ Deferred s act)
    (hs : step s act = some s') : ∃ as t, system.exec s' as = some t ∧ ¬ CompletedLast t := by
  cases act with
  | register a err =>
    rcases register_cases h hs with hno | ⟨as, t, hrun, hin⟩
    · exact (hok hno).elim
    · have hadm : t.admits (.setup a) = true := by
        simp [admits, hin.calls, (step_cases hs).calls, nextCalls]
      have hphase : (t.accept a).phase = .registered :=
        hin.phase.trans (register_phase (step_cases hs).step)
      have hsetup : (step t (.setup a)).isSome := by
        simp [step, hadm, TcpListener.step, hin.idle, hphase]
      obtain ⟨u, hu⟩ := Option.isSome_iff_exists.mp hsetup
      exact ⟨as, t, hrun, fun hlast => hin.completed (hlast.last _ u a hu (by simp [touched]))⟩
  | _ => exact (hok trivial).elim

theorem accept_completed_last_popped : ∃ s : LoopThread Unit, system.ReachableVia Deferred s ∧
    (s.accept ()).completions = [.value ()] ∧ (s.accept ()).stopOp.token.requested = true ∧
    CompletedLast s := by
  have h0 : system.ReachableVia Deferred
      ({ toState := (bind (constructUnbound 4096) 0 0).1 } : LoopThread Unit) :=
    .initial ⟨_, ⟨4096, Or.inr ⟨0, 0, rfl⟩⟩, rfl⟩
  have h1 := h0.step (Action.register () 0) ⟨by decide, fun _ => by decide⟩ rfl
  have h2 := h1.step (Action.setup ()) trivial rfl
  have h3 := h2.step Action.loop trivial rfl
  have h4 := h3.step (Action.connection 0) trivial rfl
  have h5 := h4.step Action.loop trivial rfl
  have h6 := h5.step Action.loop trivial rfl
  have h7 := h6.step (Action.uvAccept 0) trivial rfl
  have h8 := h7.step (Action.requestStop ()) trivial rfl
  exact ⟨_, h8, rfl, rfl, accept_completed_last h8⟩

/-- A client that connects before the accept is started. -/
def unclaimed : List (Action Unit) :=
  [.connection 0, .register () 0, .loop, .loop, .uvAccept 0]

theorem accept_touched_completed : ¬ ∀ s : LoopThread Unit, system.Reachable s → CompletedLast s := by
  intro hall
  have hrun : (system.exec ({ toState := (bind (constructUnbound 4096) 0 0).1 } : LoopThread Unit)
      unclaimed).map (fun s => ((s.accept ()).completions, (step s (.setup ())).isSome)) =
        some ([.value ()], true) := by decide
  obtain ⟨s, hs, heq⟩ := Option.map_eq_some_iff.mp hrun
  simp only [Prod.mk.injEq] at heq
  obtain ⟨hcomp, hsetup⟩ := heq
  obtain ⟨t, ht⟩ := Option.isSome_iff_exists.mp hsetup
  have h0 : system.Reachable
      ({ toState := (bind (constructUnbound 4096) 0 0).1 } : LoopThread Unit) :=
    .initial ⟨_, ⟨4096, Or.inr ⟨0, 0, rfl⟩⟩, rfl⟩
  have hnil := (hall s (System.reachable_exec _ h0 hs)).last (.setup ()) t () ht (by simp [touched])
  simp [hcomp] at hnil

end LoopThread
end UvExec.TcpListener
