import UvExec.Sockets.TcpListener

/-! # No incoming connection is lost

A reported connection is accepted at once by a registered accept or counted in
`PendingConnections`, except where the counter still encodes a backlog and where
the accept that is popped has been stopped. -/

namespace UvExec.TcpListener
open Lib
variable {A : Type} [DecidableEq A]

/-- Every reported connection has been accepted or is unclaimed, and no accept
waits while one is unclaimed, unless its stop has been requested. -/
structure NoneLost (s : State A) : Prop where
  count : s.pc = .idle → (s.connections : Int) = s.accepts + max s.pendingConnections 0
  claimed : s.pc = .idle → 0 < s.pendingConnections → ∀ a, (s.accept a).phase ≠ .fresh →
    (s.accept a).completions = [] → (s.accept a).stopOp.token.requested = true

/-- No connection is reported while the list is empty and the counter encodes a
backlog, and no accept that comes to `Accept` has its flag taken. -/
def ConnectionKept (s : State A) : Action A → Prop
  | .connection status => isError status = false → s.acceptList = [] → 0 ≤ s.pendingConnections
  | .loop =>
    match s.pc with
    | .accept a => (s.accept a).stopOp.used = false
    | _ => True
  | _ => True

/-! ### Counting -/

def Pc.accepting : Pc A → Bool
  | .accept _ | .acceptReset _ | .uvAccept _ => true
  | .idle | .error _ _ | .errorReset _ _ | .setError _ _ | .setupDone _ | .stopReset _
  | .setStopped _ => false

def CountInv (s : State A) : Prop :=
  (s.connections : Int) =
    s.accepts + max s.pendingConnections 0 + (if s.pc.accepting then 1 else 0)

theorem countInv_step {s s' : State A} {a : Action A} (hi : CountInv s) (hok : ConnectionKept s a)
    (h : Step s a s') : CountInv s' := by
  unfold CountInv at *
  cases h with
  | claim a err hc hf hp =>
    simp only [hc, Pc.accepting] at hi ⊢
    simp only [Bool.false_eq_true, if_false] at hi
    simp only [if_true]
    omega
  | pend status hc he hl =>
    have hp := hok he hl
    simp only [hc, Pc.accepting, Bool.false_eq_true, if_false] at hi ⊢
    omega
  | pop status a rest hc he hl =>
    simp only [hc, Pc.accepting, Bool.false_eq_true, if_false] at hi
    simp only [Pc.accepting, if_true]
    omega
  | acceptLost a hc hu =>
    have hno : (s.accept a).stopOp.used = false := by simpa only [ConnectionKept, hc] using hok
    simp [hu] at hno
  | listen a err hc hf hp he =>
    simp only [hc] at hi ⊢
    omega
  | uvAccept a err hc =>
    simp only [hc, Pc.accepting, if_true, Bool.false_eq_true, if_false] at hi ⊢
    omega
  | _ => simp_all [Pc.accepting]

theorem countInv_initial {s : State A} (h : system.initial s) : CountInv s := by
  obtain ⟨backlog, rfl | ⟨bindErr, listenErr, rfl⟩⟩ := h
  · have hmax : max (-(backlog.toNat : Int)) 0 = 0 := by omega
    simp only [CountInv, construct, constructUnbound, startListening, Pc.accepting, hmax]
    rfl
  · have hmax : max (-(backlog.toNat : Int)) 0 = 0 := by omega
    simp only [CountInv, bind, startListening]
    split
    · simp only [constructUnbound, Pc.accepting, hmax]
      rfl
    · simp only [constructUnbound, Pc.accepting]
      rfl

/-! ### Registered accepts -/

/-- The operation that the loop's thread is about to complete. -/
def Pc.claims : Pc A → Option A
  | .accept a | .acceptReset a | .uvAccept a | .errorReset a _ | .setError a _ => some a
  | .idle | .error _ _ | .setupDone _ | .stopReset _ | .setStopped _ => none

/-- The operation for which the completion has taken the flag. -/
def Pc.taken : Pc A → Option A
  | .acceptReset a | .uvAccept a | .errorReset a _ | .setError a _ => some a
  | .idle | .accept _ | .error _ _ | .setupDone _ | .stopReset _ | .setStopped _ => none

/-- A registered accept is listed until it is completed, claimed or stopped. -/
structure ListInv (s : State A) : Prop where
  empty : 0 < s.pendingConnections → s.acceptList = []
  op : ∀ a, (s.accept a).stopOp.Inv
  callback : ∀ a, (s.accept a).phase ≠ .setup → (s.accept a).stopOp.token.callback = .absent
  listed : ∀ a, (s.accept a).phase ≠ .fresh → (s.accept a).completions = [] →
    a ∈ s.acceptList ∨ (s.accept a).stopOp.taker = some .stop ∨ s.pc.claims = some a
  taken : ∀ a, (s.accept a).stopOp.taker = some .completion →
    (s.accept a).completions ≠ [] ∨ s.pc.taken = some a

theorem inv_update {f : A → TAcceptOpState} (hf : ∀ b, (f b).stopOp.Inv) {c : A}
    {op : TAcceptOpState} (hop : op.stopOp.Inv) : ∀ b, (Function.update f c op b).stopOp.Inv := by
  intro b
  by_cases hbc : b = c
  · subst hbc
    simpa using hop
  · simpa [hbc] using hf b

theorem op_step {s s' : State A} {a : Action A} (hi : ListInv s) (h : Step s a s') :
    ∀ b, (s'.accept b).stopOp.Inv := by
  have hop := hi.op
  cases h with
  | claim c | add c | listen c | listenFailed c => exact inv_update hop (hop c)
  | uvAccept c | setError c | setStopped c => exact inv_update hop (hop c)
  | setup c hc hp => exact inv_update hop ((hop c).setup (hi.callback c (by simp [hp])))
  | setupDone c hc hr => exact inv_update hop (hop c).engage
  | acceptWon c hc hu | errorWon c err hc hu =>
    have hw := (hop c).testAndSet
    rw [TStopOperation.testAndSet, if_neg (by simp [hu])] at hw
    exact inv_update hop hw
  | acceptReset c op hc hr | errorReset c err op hc hr | stopReset c op hc hr =>
    exact inv_update hop ((hop c).resetCallback hr)
  | apply c hc hq =>
    exact inv_update hop ((hop c).beginApply (by simp [TStopOperation.beginApply, hq]))
  | requestStop c => exact inv_update hop (hop c).requestStop
  | callback c op hr => exact inv_update hop ((hop c).callbackStep hr)
  | _ => exact hop

theorem empty_step {s s' : State A} {a : Action A} (hi : ListInv s) (h : Step s a s') :
    0 < s'.pendingConnections → s'.acceptList = [] := by
  have he := hi.empty
  intro hp
  cases h with
  | claim c err hc hf hpos => exact he hpos
  | add c err hc hf hzero =>
    have hpos : 0 < s.pendingConnections := hp
    omega
  | listen | listenFailed =>
    simp only at hp
    omega
  | pend status hc hok hl => exact hl
  | pop status c rest hc hok hl =>
    rw [he hp] at hl
    cases hl
  | apply c hc hq =>
    have hnil : s.acceptList = [] := he hp
    simp [hnil]
  | _ => exact he hp

theorem callback_update {f : A → TAcceptOpState} {c : A} {op : TAcceptOpState}
    (hold : ∀ b, (f b).phase ≠ .setup → (f b).stopOp.token.callback = .absent)
    (hop : op.phase ≠ .setup → op.stopOp.token.callback = .absent) :
    ∀ b, (Function.update f c op b).phase ≠ .setup →
      (Function.update f c op b).stopOp.token.callback = .absent :=
  (Function.forall_update_iff f fun _ o => o.phase ≠ .setup → o.stopOp.token.callback = .absent).mpr
    ⟨hop, fun b _ => hold b⟩

theorem callback_step {s s' : State A} {a : Action A} (hi : ListInv s) (h : Step s a s') :
    ∀ b, (s'.accept b).phase ≠ .setup → (s'.accept b).stopOp.token.callback = .absent := by
  have hcb := hi.callback
  cases h with
  | connectionFailed | pend | pop | acceptLost | errorLost => exact hcb
  | claim c err hc hf | add c err hc hf | listen c err hc hf | listenFailed c err hc hf =>
    exact callback_update hcb (fun _ => hcb c (by simp [hf]))
  | setup c => exact callback_update hcb (fun hne => (hne rfl).elim)
  | acceptReset c op hc hr | errorReset c err op hc hr | stopReset c op hc hr =>
    refine callback_update hcb (fun hne => ?_)
    rcases TStopOperation.resetCallback_cases hr with ⟨-, rfl⟩ | ⟨-, -, rfl⟩
    · exact hcb c hne
    · rfl
  | requestStop c =>
    refine callback_update hcb (fun hne => ?_)
    exact (s.accept c).stopOp.requestStop_absent (hcb c hne)
  | callback c op hr =>
    refine callback_update hcb (fun hne => ?_)
    exact ((TStopOperation.callbackStep_frame hr).1 (hcb c hne)).elim
  | acceptWon c | errorWon c | uvAccept c | setError c | setupDone c | apply c | setStopped c =>
    exact callback_update hcb (fun hne => hcb c hne)

omit [DecidableEq A] in
/-- A flag that is found taken was taken by the stop callback, unless the
operation has been completed. -/
theorem ListInv.stop_of_used {s : State A} (hi : ListInv s) {a : A}
    (hu : (s.accept a).stopOp.used = true) (hcomp : (s.accept a).completions = [])
    (htaken : s.pc.taken ≠ some a) : (s.accept a).stopOp.taker = some .stop := by
  cases ht : (s.accept a).stopOp.taker with
  | none => exact ((hi.op a).used.mp hu ht).elim
  | some t =>
    cases t with
    | stop => rfl
    | completion =>
      rcases hi.taken a ht with hne | hpc
      · exact (hne hcomp).elim
      · exact (htaken hpc).elim

theorem listed_update {f : A → TAcceptOpState} {c : A} {op : TAcceptOpState} {l l' : List A}
    {cur cur' : Option A}
    (hold : ∀ b, (f b).phase ≠ .fresh → (f b).completions = [] →
      b ∈ l ∨ (f b).stopOp.taker = some .stop ∨ cur = some b)
    (hl : ∀ b, b ≠ c → b ∈ l → b ∈ l') (hcur : ∀ b, b ≠ c → cur = some b → cur' = some b)
    (hop : op.phase ≠ .fresh → op.completions = [] →
      c ∈ l' ∨ op.stopOp.taker = some .stop ∨ cur' = some c) :
    ∀ b, (Function.update f c op b).phase ≠ .fresh → (Function.update f c op b).completions = [] →
      b ∈ l' ∨ (Function.update f c op b).stopOp.taker = some .stop ∨ cur' = some b :=
  (Function.forall_update_iff f fun b o => o.phase ≠ .fresh → o.completions = [] →
      b ∈ l' ∨ o.stopOp.taker = some .stop ∨ cur' = some b).mpr
    ⟨hop, fun b hb hphase hcomp =>
      (hold b hphase hcomp).imp (hl b hb) (fun h => h.imp_right (hcur b hb))⟩

theorem listed_step {s s' : State A} {a : Action A} (hi : ListInv s) (h : Step s a s') :
    ∀ b, (s'.accept b).phase ≠ .fresh → (s'.accept b).completions = [] →
      b ∈ s'.acceptList ∨ (s'.accept b).stopOp.taker = some .stop ∨ s'.pc.claims = some b := by
  have hold := hi.listed
  have hsame {c : A} : ∀ b, b ≠ c → b ∈ s.acceptList → b ∈ s.acceptList := fun _ _ h => h
  cases h with
  | connectionFailed | pend => exact hold
  | pop status c rest hc hok hl =>
    intro b hphase hcomp
    rcases hold b hphase hcomp with hmem | hstop | hcur
    · rw [hl] at hmem
      rcases List.mem_cons.mp hmem with rfl | hrest
      · exact Or.inr (Or.inr rfl)
      · exact Or.inl hrest
    · exact Or.inr (Or.inl hstop)
    · simp [hc, Pc.claims] at hcur
  | acceptLost c hc hu =>
    intro b hphase hcomp
    by_cases hbc : b = c
    · subst hbc
      exact Or.inr (Or.inl (hi.stop_of_used hu hcomp (by simp [hc, Pc.taken])))
    · have hb := hold b hphase hcomp
      simpa [hc, Pc.claims, Ne.symm hbc] using hb
  | errorLost c err hc =>
    intro b hphase hcomp
    simpa [hc, Pc.claims] using hold b hphase hcomp
  | claim c err hc =>
    exact listed_update hold hsame (by simp [hc, Pc.claims]) (fun _ _ => Or.inr (Or.inr rfl))
  | add c | listen c =>
    exact listed_update hold (fun _ _ => List.mem_cons_of_mem c) (fun _ _ h => h)
      (fun _ _ => Or.inl List.mem_cons_self)
  | listenFailed c err hc =>
    exact listed_update hold (fun _ _ => List.mem_cons_of_mem c) (by simp [hc, Pc.claims])
      (fun _ _ => Or.inl List.mem_cons_self)
  | setup c hc hp =>
    refine listed_update hold hsame (by simp [hc, Pc.claims]) (fun _ hcomp => ?_)
    have hold' : c ∈ s.acceptList ∨ (s.accept c).stopOp.setup.taker = some .stop ∨
        s.pc.claims = some c := hold c (by simp [hp]) hcomp
    simpa [hc, Pc.claims] using hold'
  | setupDone c hc =>
    refine listed_update hold hsame (by simp [hc, Pc.claims]) (fun hphase hcomp => ?_)
    simpa [hc, Pc.claims] using hold c hphase hcomp
  | acceptWon c hc | acceptReset c op hc | errorReset c err op hc =>
    exact listed_update hold hsame (by simp [hc, Pc.claims]) (fun _ _ => Or.inr (Or.inr rfl))
  | errorWon c err hc =>
    exact listed_update hold hsame (by simp [hc, Pc.claims]) (fun _ _ => Or.inr (Or.inr rfl))
  | uvAccept c err hc | setError c err hc | setStopped c hc =>
    refine listed_update hold hsame (fun b hb h => ?_) (fun _ hcomp => by simp at hcomp)
    simp [hc, Pc.claims, Ne.symm hb] at h
  | apply c hc hq =>
    refine listed_update hold (fun b hb => (List.mem_erase_of_ne hb).mpr) (by simp [hc, Pc.claims]) ?_
    exact fun _ _ => Or.inr (Or.inl ((hi.op c).of_queued hq).1)
  | stopReset c op hc hr =>
    refine listed_update hold hsame (by simp [hc, Pc.claims]) (fun hphase hcomp => ?_)
    rw [TStopOperation.resetCallback_taker hr]
    simpa [hc, Pc.claims] using hold c hphase hcomp
  | requestStop c => exact listed_update hold hsame (fun _ _ h => h) (hold c)
  | callback c op hr =>
    refine listed_update hold hsame (fun _ _ h => h) (fun hphase hcomp => ?_)
    rcases TStopOperation.callbackStep_taker hr with heq | hstop
    · rw [heq]
      exact hold c hphase hcomp
    · exact Or.inr (Or.inl hstop)

theorem taken_update {f : A → TAcceptOpState} {c : A} {op : TAcceptOpState} {cur cur' : Option A}
    (hold : ∀ b, (f b).stopOp.taker = some .completion → (f b).completions ≠ [] ∨ cur = some b)
    (hcur : ∀ b, b ≠ c → cur = some b → cur' = some b)
    (hop : op.stopOp.taker = some .completion → op.completions ≠ [] ∨ cur' = some c) :
    ∀ b, (Function.update f c op b).stopOp.taker = some .completion →
      (Function.update f c op b).completions ≠ [] ∨ cur' = some b :=
  (Function.forall_update_iff f fun b o =>
      o.stopOp.taker = some .completion → o.completions ≠ [] ∨ cur' = some b).mpr
    ⟨hop, fun b hb ht => (hold b ht).imp_right (hcur b hb)⟩

theorem taken_step {s s' : State A} {a : Action A} (hi : ListInv s) (h : Step s a s') :
    ∀ b, (s'.accept b).stopOp.taker = some .completion →
      (s'.accept b).completions ≠ [] ∨ s'.pc.taken = some b := by
  have hold := hi.taken
  cases h with
  | connectionFailed | pend => exact hold
  | pop status c rest hc | acceptLost c hc | errorLost c err hc =>
    intro b ht
    simpa [hc, Pc.taken] using hold b ht
  | add c | listen c => exact taken_update hold (fun _ _ h => h) (hold c)
  | claim c err hc | listenFailed c err hc | setup c hc | setupDone c hc | apply c hc =>
    refine taken_update hold (by simp [hc, Pc.taken]) (fun ht => ?_)
    simpa [hc, Pc.taken] using hold c ht
  | acceptWon c hc | errorWon c err hc | acceptReset c op hc | errorReset c err op hc =>
    exact taken_update hold (by simp [hc, Pc.taken]) (fun _ => Or.inr rfl)
  | uvAccept c err hc | setError c err hc | setStopped c hc =>
    refine taken_update hold (fun b hb h => ?_) (fun _ => Or.inl (by simp))
    simp [hc, Pc.taken, Ne.symm hb] at h
  | stopReset c op hc hr =>
    refine taken_update hold (by simp [hc, Pc.taken]) (fun ht => ?_)
    rw [TStopOperation.resetCallback_taker hr] at ht
    simpa [hc, Pc.taken] using hold c ht
  | requestStop c => exact taken_update hold (fun _ _ h => h) (hold c)
  | callback c op hr =>
    refine taken_update hold (fun _ _ h => h) (fun ht => ?_)
    exact hold c (((hi.op c).callbackStep_foreign hr).completion ht)

theorem listInv_initial {s : State A} (h : system.initial s) : ListInv s := by
  have hop := TStopOperation.Inv.initial
  obtain ⟨backlog, rfl | ⟨bindErr, listenErr, rfl⟩⟩ := h
  · constructor <;> simp [construct, constructUnbound, startListening, hop]
  · simp only [bind]
    split <;> constructor <;> simp [constructUnbound, startListening, hop]

theorem reachable_listInv {s : State A} (h : system.Reachable s) : ListInv s := by
  refine System.Reachable.invariant (I := ListInv) (fun _ => listInv_initial) ?_ h
  intro s a s' hi hs
  have hstep := step_cases hs
  exact ⟨empty_step hi hstep, op_step hi hstep, callback_step hi hstep, listed_step hi hstep,
    taken_step hi hstep⟩

omit [DecidableEq A] in
/-- An accept waits next to an unclaimed connection only when it has been
stopped. -/
theorem ListInv.claimed {s : State A} (hi : ListInv s) (hpc : s.pc = .idle)
    (hpending : 0 < s.pendingConnections) {a : A} (hphase : (s.accept a).phase ≠ .fresh)
    (hcomp : (s.accept a).completions = []) : (s.accept a).stopOp.token.requested = true := by
  rcases hi.listed a hphase hcomp with hmem | ht | hclaim
  · simp [hi.empty hpending] at hmem
  · exact (hi.op a).requested ht
  · simp [hpc, Pc.claims] at hclaim

/-- In every run that keeps its connections none is lost. -/
theorem connections_kept {s : State A} (h : system.ReachableVia ConnectionKept s) : NoneLost s := by
  have hcount : CountInv s := by
    refine System.ReachableVia.invariant (K := fun _ => True) (I := CountInv)
      (fun _ _ => trivial) (fun _ => countInv_initial) ?_ h
    intro s a s' _ hi hok hs
    exact countInv_step hi hok (step_cases hs)
  have hlist := reachable_listInv h.reachable
  refine ⟨fun hpc => ?_, fun hpc hp a => hlist.claimed hpc hp⟩
  simpa [CountInv, hpc, Pc.accepting] using hcount

/-- Every other step loses one. -/
theorem connections_lost {s s' : State A} {a : Action A} (hi : CountInv s)
    (hok : ¬ ConnectionKept s a) (h : step s a = some s') : ¬ NoneLost s' := by
  intro hi'
  unfold CountInv at hi
  cases a with
  | connection status =>
    simp only [ConnectionKept, Classical.not_imp] at hok
    obtain ⟨he, hl, hneg⟩ := hok
    simp only [step] at h
    split at h
    next hc =>
      simp only [connectionCallback, he, hl, Option.some.injEq] at h
      subst h
      have hcount := hi'.count hc.1
      simp only [hc.1, Pc.accepting] at hi
      simp only [Bool.false_eq_true, if_false] at hi hcount
      omega
    next => cases h
  | loop =>
    simp only [ConnectionKept] at hok
    split at hok
    next b hc =>
      simp only [Bool.not_eq_false] at hok
      simp only [step, loopStep, hc, TStopOperation.testAndSet, hok, if_true, Option.some.injEq] at h
      subst h
      have hcount := hi'.count rfl
      simp only [hc, Pc.accepting, if_true] at hi
      simp only at hcount
      omega
    next => exact hok trivial
  | _ => exact hok trivial

theorem connections_kept_bound : ∃ s : State Unit, system.ReachableVia ConnectionKept s ∧
    s.connections = 2 ∧ s.accepts = 1 ∧ s.pendingConnections = 1 ∧ NoneLost s := by
  have h0 : system.ReachableVia ConnectionKept (bind (constructUnbound (A := Unit) 4096) 0 0).1 :=
    .initial ⟨4096, Or.inr ⟨0, 0, rfl⟩⟩
  have h1 := h0.step (Action.register () 0) trivial rfl
  have h2 := h1.step (Action.setup ()) trivial rfl
  have h3 := h2.step Action.loop trivial rfl
  have h4 := h3.step (Action.connection 0) (fun _ _ => by decide) rfl
  have h5 := h4.step Action.loop rfl rfl
  have h6 := h5.step Action.loop trivial rfl
  have h7 := h6.step (Action.uvAccept 0) trivial rfl
  have h8 := h7.step (Action.connection 0) (fun _ _ => by decide) rfl
  exact ⟨_, h8, rfl, rfl, rfl, connections_kept h8⟩

/-- A listener of the public constructor, a client that connects at once and
the first accept. -/
def lostConnection : List (Action Unit) := [.connection 0, .register () 0, .setup (), .loop]

theorem connections_lost_constructed : ¬ ∀ s : State Unit, system.Reachable s → NoneLost s := by
  intro hall
  have hrun : (system.exec (construct 4096 : State Unit) lostConnection).map
      (fun s => (s.pc, s.connections, s.accepts, s.pendingConnections)) =
        some (.idle, 1, 0, 0) := by decide
  obtain ⟨s, hs, heq⟩ := Option.map_eq_some_iff.mp hrun
  simp only [Prod.mk.injEq] at heq
  obtain ⟨hpc, hconn, hacc, hpend⟩ := heq
  have hcount := (hall s (System.reachable_exec _ (.initial ⟨4096, Or.inl rfl⟩) hs)).count hpc
  simp [hconn, hacc, hpend] at hcount

end UvExec.TcpListener
