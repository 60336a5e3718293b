import UvExec.Sockets.Connections

/-! # The accept operations in every run

What the phase of an operation and its completion say about its stop operation. -/

namespace UvExec.TcpListener
open Lib
variable {A : Type}

def Pc.op : Pc A → Option A
  | .idle => none
  | .accept a | .acceptReset a | .uvAccept a | .error a _ | .errorReset a _ | .setError a _
  | .setupDone a | .stopReset a | .setStopped a => some a

/-- The operation that the thread is about to complete, or to find stopped. -/
def Pc.completing : Pc A → Option A
  | .accept a | .acceptReset a | .uvAccept a | .error a _ | .errorReset a _ | .setError a _
  | .stopReset a | .setStopped a => some a
  | .idle | .setupDone _ => none

/-- The operation whose flag the thread has taken, or its stop before it. -/
def Pc.spending : Pc A → Option A
  | .acceptReset a | .uvAccept a | .errorReset a _ | .setError a _ | .stopReset a
  | .setStopped a => some a
  | .idle | .accept _ | .error _ _ | .setupDone _ => none

/-- The operation that the next step of the thread completes. -/
def Pc.finishing : Pc A → Option A
  | .uvAccept a | .setError a _ | .setStopped a => some a
  | .idle | .accept _ | .acceptReset _ | .error _ _ | .errorReset _ _ | .setupDone _
  | .stopReset _ => none

structure OpsInv (s : State A) : Prop where
  listed : ∀ b ∈ s.acceptList, (s.accept b).phase ≠ .fresh
  handled : ∀ b, s.pc.op = some b → (s.accept b).phase ≠ .fresh
  fresh : ∀ b, (s.accept b).phase = .fresh → (s.accept b).completions = []
  unset : ∀ b, (s.accept b).phase ≠ .setup → (s.accept b).stopOp.taker ≠ some .stop
  spent : ∀ b, (s.accept b).completions ≠ [] ∨ s.pc.spending = some b → (s.accept b).stopOp.Spent

variable {pc pc' : Pc A} {b : A}

theorem Pc.op_of_completing (h : pc.completing = some b) : pc.op = some b := by
  cases pc <;> simp_all [Pc.completing, Pc.op]

theorem Pc.op_of_finishing (h : pc.finishing = some b) : pc.op = some b := by
  cases pc <;> simp_all [Pc.finishing, Pc.op]

theorem Pc.spending_of_finishing (h : pc.finishing = some b) : pc.spending = some b := by
  cases pc <;> simp_all [Pc.finishing, Pc.spending]

variable [DecidableEq A] {s s' : State A} {act : Action A} {a : A} {f : A → TAcceptOpState}
  {op : TAcceptOpState}

/-! ### What a step does to an operation -/

theorem phase_update (h : op.phase = (f a).phase) (b : A) :
    (Function.update f a op b).phase = (f b).phase := by
  rw [Function.update_apply]
  split
  next hba => rw [h, hba]
  next => rfl

theorem completions_update (h : op.completions = (f a).completions) (b : A) :
    (Function.update f a op b).completions = (f b).completions := by
  rw [Function.update_apply]
  split
  next hba => rw [h, hba]
  next => rfl

theorem register_enabled {err : Int} (h : Step s (.register a err) s') :
    s.pc = .idle ∧ (s.accept a).phase = .fresh := by
  cases h with
  | claim _ _ hc hf | add _ _ hc hf | listen _ _ hc hf | listenFailed _ _ hc hf => exact ⟨hc, hf⟩

theorem register_phase {err : Int} (h : Step s (.register a err) s') :
    (s'.accept a).phase = .registered := by
  cases h <;> simp

theorem register_op {err : Int} (h : Step s (.register a err) s') :
    (s'.accept a).stopOp = (s.accept a).stopOp ∧
      (s'.accept a).completions = (s.accept a).completions := by
  cases h <;> simp

/-- The operation is accepted at once, waits, or is told of the error. -/
theorem register_outcome {err : Int} (h : Step s (.register a err) s') :
    (0 < s.pendingConnections ∧ s'.pc = .accept a) ∨
    (s.pendingConnections ≤ 0 ∧ (s.pendingConnections < 0 → isError err = false) ∧ s'.pc = .idle) ∨
    (s.pendingConnections < 0 ∧ isError err = true ∧ s'.pc = .error a err) := by
  cases h with
  | claim _ _ hc hf hp => exact Or.inl ⟨hp, rfl⟩
  | add _ _ hc hf hp => exact Or.inr (Or.inl ⟨by omega, fun hneg => by omega, hc⟩)
  | listen _ _ hc hf hp he => exact Or.inr (Or.inl ⟨by omega, fun _ => he, hc⟩)
  | listenFailed _ _ hc hf hp he => exact Or.inr (Or.inr ⟨hp, he, rfl⟩)

theorem apply_enabled (h : Step s (.apply a) s') : 0 < (s.accept a).stopOp.queued := by
  cases h with
  | apply _ _ hq => exact hq

theorem callback_enabled (h : Step s (.callback a) s') :
    (s.accept a).stopOp.token.callback ≠ .absent := by
  cases h with
  | callback _ op hr => exact (TStopOperation.callbackStep_frame hr).1

theorem setup_eq (h : Step s (.setup a) s') : s' =
    { s.setAccept a { s.accept a with stopOp := (s.accept a).stopOp.setup, phase := .setup } with
      pc := .setupDone a } := by
  cases h
  rfl

theorem apply_eq (h : Step s (.apply a) s') : s' =
    { s.setStopOp a { (s.accept a).stopOp with queued := (s.accept a).stopOp.queued - 1 } with
      acceptList := s.acceptList.erase a, pc := .stopReset a } := by
  cases h
  rfl

theorem requestStop_eq (h : Step s (.requestStop a) s') :
    s' = s.setStopOp a (s.accept a).stopOp.requestStop := by
  cases h
  rfl

theorem callback_eq (h : Step s (.callback a) s') :
    ∃ op, (s.accept a).stopOp.callbackStep = some op ∧ s' = s.setStopOp a op := by
  cases h with
  | callback _ op hr => exact ⟨op, hr, rfl⟩

theorem phase_step (h : Step s act s') (hb : (s.accept b).phase ≠ .fresh) :
    (s'.accept b).phase ≠ .fresh := by
  have hupd (a : A) (op : TAcceptOpState) (ha : a = b → op.phase ≠ .fresh) :
      (Function.update s.accept a op b).phase ≠ .fresh := by
    rw [Function.update_apply]
    split
    next hba => exact ha hba.symm
    next => exact hb
  cases h with
  | claim | add | listen | listenFailed | setup => exact hupd _ _ (by simp)
  | connectionFailed | pend | pop | acceptLost | errorLost => exact hb
  | _ => exact hupd _ _ (fun hab => hab ▸ hb)

theorem phase_eq (h : Step s act s') (b : A) :
    (s'.accept b).phase = (s.accept b).phase ∨ (∃ err, act = .register b err) ∨ act = .setup b := by
  cases h with
  | claim a err | add a err | listen a err | listenFailed a err =>
    by_cases hba : b = a
    · exact Or.inr (Or.inl ⟨err, by rw [hba]⟩)
    · exact Or.inl (by simp [hba])
  | setup a =>
    by_cases hba : b = a
    · exact Or.inr (Or.inr (by rw [hba]))
    · exact Or.inl (by simp [hba])
  | connectionFailed | pend | pop | acceptLost | errorLost => exact Or.inl rfl
  | _ => exact Or.inl (phase_update (by rfl) b)

theorem completions_step (h : Step s act s') (b : A) :
    (s'.accept b).completions = (s.accept b).completions ∨
      s.pc.finishing = some b ∧ s'.pc = .idle ∧
        ∃ c, (s'.accept b).completions = (s.accept b).completions ++ [c] := by
  have hupd (a : A) (op : TAcceptOpState) (ha : op.completions = (s.accept a).completions) :
      (Function.update s.accept a op b).completions = (s.accept b).completions :=
    completions_update ha b
  cases h with
  | connectionFailed | pend | pop | acceptLost | errorLost => exact Or.inl rfl
  | uvAccept a err hc | setError a err hc | setStopped a hc =>
    by_cases hba : b = a
    · subst hba
      refine Or.inr ⟨by rw [hc]; rfl, rfl, ?_⟩
      simp only [Function.update_self]
      exact ⟨_, rfl⟩
    · exact Or.inl (by simp [hba])
  | _ => exact Or.inl (hupd _ _ rfl)

def Action.about : Action A → Option A
  | .register a _ | .setup a | .apply a | .requestStop a | .callback a => some a
  | .connection _ | .loop | .uvAccept _ => none

/-- Nothing else changes an operation. -/
theorem accept_eq (h : Step s act s') (ha : act.about ≠ some b) (hp : s.pc.op ≠ some b) :
    s'.accept b = s.accept b := by
  cases h with
  | connectionFailed | pend | pop | acceptLost | errorLost => rfl
  | claim a | add a | listen a | listenFailed a | setup a | apply a | requestStop a | callback a =>
    exact Function.update_of_ne (fun h => ha (by rw [h]; rfl)) _ _
  | acceptWon a hc | acceptReset a op hc | uvAccept a err hc | errorWon a err hc
  | errorReset a err op hc | setError a err hc | setupDone a hc | stopReset a op hc
  | setStopped a hc =>
    exact Function.update_of_ne (fun h => hp (by rw [hc, h]; rfl)) _ _

/-- How the thread comes to an operation. -/
theorem pc_step (h : Step s act s') (hb : s'.pc.op = some b) :
    s.pc.op = some b ∧ s'.pc.completing = s.pc.completing ∨
      s.pc = .idle ∧ ((∃ err, act = .register b err ∧ (s.accept b).phase = .fresh) ∨
        (act = .setup b ∧ s'.pc = .setupDone b) ∨
        (act = .apply b ∧ 0 < (s.accept b).stopOp.queued) ∨
        (b ∈ s.acceptList ∧ s'.pc = .accept b)) := by
  cases h with
  | claim a err hc hf | listenFailed a err hc hf =>
    cases hb
    exact Or.inr ⟨hc, Or.inl ⟨err, rfl, hf⟩⟩
  | setup a hc =>
    cases hb
    exact Or.inr ⟨hc, Or.inr (Or.inl ⟨rfl, rfl⟩)⟩
  | apply a hc hq =>
    cases hb
    exact Or.inr ⟨hc, Or.inr (Or.inr (Or.inl ⟨rfl, hq⟩))⟩
  | pop status a rest hc he hl =>
    cases hb
    exact Or.inr ⟨hc, Or.inr (Or.inr (Or.inr ⟨hl ▸ List.mem_cons_self, rfl⟩))⟩
  | acceptLost | errorLost | uvAccept | setError | setStopped | setupDone => cases hb
  | acceptWon a hc | acceptReset a op hc | errorWon a err hc | errorReset a err op hc
  | stopReset a op hc => exact Or.inl ⟨by rw [hc]; exact hb, by rw [hc]; rfl⟩
  | _ => exact Or.inl ⟨hb, rfl⟩

theorem spending_step (h : Step s act s') (hb : s'.pc.spending = some b) :
    s.pc.spending = some b ∨ (s.accept b).stopOp.used = false ∨ 0 < (s.accept b).stopOp.queued := by
  cases h with
  | acceptWon a hc hu | errorWon a err hc hu =>
    cases hb
    exact Or.inr (Or.inl hu)
  | apply a hc hq =>
    cases hb
    exact Or.inr (Or.inr hq)
  | acceptReset a op hc | errorReset a err op hc | stopReset a op hc =>
    exact Or.inl (by rw [hc]; exact hb)
  | add | listen | connectionFailed | pend | requestStop | callback => exact Or.inl hb
  | _ => cases hb

/-! ### The invariant -/

omit [DecidableEq A] in
theorem OpsInv.phase_of_queued (hi : OpsInv s) (hl : ListInv s) (hq : 0 < (s.accept b).stopOp.queued) :
    (s.accept b).phase = .setup := by
  by_contra hne
  exact hi.unset b hne ((hl.op b).of_queued hq).1

omit [DecidableEq A] in
theorem OpsInv.completions_of_queued (hi : OpsInv s) (hq : 0 < (s.accept b).stopOp.queued) :
    (s.accept b).completions = [] := by
  by_contra hne
  have hzero := (hi.spent b (Or.inl hne)).queued
  omega

omit [DecidableEq A] in
theorem OpsInv.unused (hi : OpsInv s) (hl : ListInv s) (hphase : (s.accept b).phase ≠ .setup)
    (hcomp : (s.accept b).completions = []) (hpc : s.pc.taken ≠ some b) :
    (s.accept b).stopOp.used = false := by
  by_contra hne
  exact hi.unset b hphase (hl.stop_of_used (by simpa using hne) hcomp hpc)

theorem listed_phase_step (hi : OpsInv s) (h : Step s act s') :
    ∀ b ∈ s'.acceptList, (s'.accept b).phase ≠ .fresh := by
  have hkept (b : A) (hb : b ∈ s.acceptList) : (s'.accept b).phase ≠ .fresh :=
    phase_step h (hi.listed b hb)
  intro b hb
  cases h with
  | add a | listen a | listenFailed a =>
    rcases List.mem_cons.mp hb with rfl | hmem
    · simp
    · exact hkept b hmem
  | pop status a rest hc he hcons => exact hkept b (hcons ▸ List.mem_cons_of_mem _ hb)
  | apply a => exact hkept b (List.mem_of_mem_erase hb)
  | _ => exact hkept b hb

theorem handled_step (hi : OpsInv s) (hl : ListInv s) (h : Step s act s') :
    ∀ b, s'.pc.op = some b → (s'.accept b).phase ≠ .fresh := by
  intro b hb
  rcases pc_step h hb with ⟨hop, -⟩ | ⟨-, ⟨err, rfl, -⟩ | ⟨rfl, -⟩ | ⟨-, hq⟩ | ⟨hmem, -⟩⟩
  · exact phase_step h (hi.handled b hop)
  · cases h <;> simp
  · cases h
    simp
  · exact phase_step h (by simp [hi.phase_of_queued hl hq])
  · exact phase_step h (hi.listed b hmem)

theorem fresh_step (hi : OpsInv s) (h : Step s act s') :
    ∀ b, (s'.accept b).phase = .fresh → (s'.accept b).completions = [] := by
  intro b hb
  have hf : (s.accept b).phase = .fresh := by
    by_contra hne
    exact phase_step h hne hb
  rcases completions_step h b with heq | ⟨hpc, -, -⟩
  · rw [heq, hi.fresh b hf]
  · exact (hi.handled b (Pc.op_of_finishing hpc) hf).elim

theorem unset_update (hold : ∀ b, (f b).phase ≠ .setup → (f b).stopOp.taker ≠ some .stop)
    (ha : op.phase ≠ .setup → op.stopOp.taker ≠ some .stop) :
    ∀ b, (Function.update f a op b).phase ≠ .setup →
      (Function.update f a op b).stopOp.taker ≠ some .stop :=
  (Function.forall_update_iff f fun _ o => o.phase ≠ .setup → o.stopOp.taker ≠ some .stop).mpr
    ⟨ha, fun b _ => hold b⟩

theorem unset_step (hi : OpsInv s) (hl : ListInv s) (h : Step s act s') :
    ∀ b, (s'.accept b).phase ≠ .setup → (s'.accept b).stopOp.taker ≠ some .stop := by
  have hold := hi.unset
  cases h with
  | connectionFailed | pend | pop | acceptLost | errorLost => exact hold
  | claim a err hc hf | add a err hc hf | listen a err hc hf | listenFailed a err hc hf =>
    exact unset_update hold (fun _ => hold a (by simp [hf]))
  | setup a => exact unset_update hold (fun hne => (hne rfl).elim)
  | acceptWon a | errorWon a => exact unset_update hold (fun _ => by simp)
  | acceptReset a op hc hr | errorReset a err op hc hr | stopReset a op hc hr =>
    exact unset_update hold (fun hne => TStopOperation.resetCallback_taker hr ▸ hold a hne)
  | setupDone a | apply a | requestStop a | uvAccept a | setError a | setStopped a =>
    exact unset_update hold (fun hne => hold a hne)
  | callback a op hr =>
    refine unset_update hold (fun hne => ?_)
    simp [TStopOperation.callbackStep, hl.callback a hne] at hr

theorem completed_update {P : TStopOperation → Prop} {cur cur' : Option A}
    (hold : ∀ b, (f b).completions ≠ [] ∨ cur = some b → P (f b).stopOp)
    (hcur : ∀ b, b ≠ a → cur' = some b → cur = some b)
    (ha : op.completions ≠ [] ∨ cur' = some a → P op.stopOp) :
    ∀ b, (Function.update f a op b).completions ≠ [] ∨ cur' = some b →
      P (Function.update f a op b).stopOp :=
  (Function.forall_update_iff f fun b o => o.completions ≠ [] ∨ cur' = some b → P o.stopOp).mpr
    ⟨ha, fun b hb h => hold b (h.imp_right (hcur b hb))⟩

omit [DecidableEq A] in
theorem completed_pc {P : TStopOperation → Prop} {cur : Option A}
    (hold : ∀ b, (f b).completions ≠ [] ∨ cur = some b → P (f b).stopOp) :
    ∀ b, (f b).completions ≠ [] ∨ none = some b → P (f b).stopOp :=
  fun b h => hold b (h.imp_right (by simp))

theorem spent_step (hi : OpsInv s) (hl : ListInv s) (h : Step s act s') :
    ∀ b, (s'.accept b).completions ≠ [] ∨ s'.pc.spending = some b → (s'.accept b).stopOp.Spent := by
  have hold := hi.spent
  -- where the thread goes into an operation, no other one is concerned
  have hothers {a : A} : ∀ b, b ≠ a → some a = some b → s.pc.spending = some b :=
    fun b hb h => (hb (Option.some.inj h).symm).elim
  cases h with
  | connectionFailed | pend => exact hold
  | pop | acceptLost | errorLost => exact completed_pc hold
  | add a | listen a => exact completed_update hold (fun _ _ h => h) (fun h => hold a h)
  | claim a | listenFailed a =>
    exact completed_update hold (by simp [Pc.spending]) (fun h => hold a (h.imp_right (by simp [Pc.spending])))
  | setup a =>
    refine completed_update hold (by simp [Pc.spending]) (fun h => ?_)
    exact (hold a (h.imp_right (by simp [Pc.spending]))).setup
  | setupDone a =>
    refine completed_update hold (by simp [Pc.spending]) (fun h => ?_)
    obtain ⟨hu, hq, hquiet⟩ := hold a (h.imp_right (by simp [Pc.spending]))
    exact ⟨hu, hq, hquiet⟩
  | acceptWon a hc hu | errorWon a err hc hu =>
    exact completed_update hold hothers (fun _ => (hl.op a).spent_of_taken hu)
  | acceptReset a op hc hr | errorReset a err op hc hr | stopReset a op hc hr =>
    have hspent := hold a (Or.inr (by rw [hc]; rfl))
    exact completed_update hold hothers (fun _ => hspent.resetCallback hr)
  | apply a hc hq => exact completed_update hold hothers (fun _ => (hl.op a).spent_of_queued hq)
  | uvAccept a err hc | setError a err hc | setStopped a hc =>
    have hspent := hold a (Or.inr (by rw [hc]; rfl))
    exact completed_update hold (by simp [Pc.spending]) (fun _ => hspent)
  | requestStop a => exact completed_update hold (fun _ _ h => h) (fun h => (hold a h).requestStop)
  | callback a op hr =>
    exact completed_update hold (fun _ _ h => h) (fun h => (hold a h).callbackStep hr)

theorem initial_idle {s : State A} (h : system.initial s) :
    s.pc = .idle ∧ s.acceptList = [] ∧ ∀ b, s.accept b = {} := by
  obtain ⟨backlog, rfl | ⟨bindErr, listenErr, rfl⟩⟩ := h
  · exact ⟨rfl, rfl, fun _ => rfl⟩
  · simp only [bind]
    split <;> exact ⟨rfl, rfl, fun _ => rfl⟩

theorem opsInv_initial {s : State A} (h : system.initial s) : OpsInv s := by
  obtain ⟨hpc, hnil, hop⟩ := initial_idle h
  constructor <;> simp [hpc, hnil, hop, Pc.op, Pc.spending]

theorem reachable_opsInv {s : State A} (h : system.Reachable s) : OpsInv s := by
  refine System.Reachable.invariant_of (fun _ => reachable_listInv) (fun _ => opsInv_initial) ?_ h
  intro s a s' hl hi hs
  have hstep := step_cases hs
  exact ⟨listed_phase_step hi hstep, handled_step hi hl hstep, fresh_step hi hstep,
    unset_step hi hl hstep, spent_step hi hl hstep⟩

end UvExec.TcpListener
