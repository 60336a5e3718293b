import UvExec.Sockets.AcceptCalls

/-! # What is linked in `AcceptList`

The accepts that wait for a connection and no others, as long as the listener
begins to listen when it is asked to: the operation that is told of the error
stays in the list. -/

namespace UvExec.TcpListener
open Lib

def Pc.failing {A : Type} : Pc A → Bool
  | .error _ _ | .errorReset _ _ | .setError _ _ => true
  | .idle | .accept _ | .acceptReset _ | .uvAccept _ | .setupDone _ | .stopReset _
  | .setStopped _ => false

namespace LoopThread
variable {A : Type}

/-- Registered, not popped, not completed, and not what the thread is handling. -/
structure Waiting (s : LoopThread A) (a : A) : Prop where
  registered : (s.accept a).phase ≠ .fresh
  unpopped : s.popped a = false
  uncompleted : (s.accept a).completions = []
  unhandled : s.pc.completing ≠ some a

variable [DecidableEq A]

/-- The nodes form the list of the waiting operations, each once, and no link
leads to a completed one. -/
structure Listed (s : LoopThread A) : Prop where
  once : ∃ xs, s.links.Represents xs ∧ ∀ a, a ∈ xs ↔ Waiting s a
  links : ∀ a b, s.links.head = some b ∨ (s.links.node a).next = some b ∨
    (s.links.node a).prev = some b → (s.accept b).completions = []

/-- `StartListening` succeeds when `RegisterAccept` calls it. -/
def Listens (s : LoopThread A) : Action A → Prop
  | .register _ err => s.pendingConnections < 0 → isError err = false
  | .setup _ | .connection _ | .loop | .uvAccept _ | .apply _ | .requestStop _ | .callback _ => True

structure WaitInv (s : LoopThread A) : Prop where
  listed : ∀ b, b ∈ s.acceptList ↔ Waiting s b
  current : ∀ b, s.pc.completing = some b → (s.accept b).completions = []
  claimed : ∀ b, s.pc = .accept b → s.popped b = true ∨ (s.accept b).phase ≠ .setup
  listening : s.pc.failing = false

variable {s s' : LoopThread A} {act : Action A} {a b : A}

omit [DecidableEq A] in
/-- A step leaves what it is not about waiting as before. -/
theorem waiting_congr (hphase : (s'.accept b).phase = (s.accept b).phase)
    (hpop : s'.popped b = s.popped b) (hcomp : (s'.accept b).completions = (s.accept b).completions)
    (hpc : s'.pc.completing = some b ↔ s.pc.completing = some b) : Waiting s b ↔ Waiting s' b := by
  constructor
  · rintro ⟨hr, hu, hc, hh⟩
    exact ⟨hphase ▸ hr, hpop.trans hu, hcomp.trans hc, fun h => hh (hpc.mp h)⟩
  · rintro ⟨hr, hu, hc, hh⟩
    exact ⟨hphase ▸ hr, hpop.symm.trans hu, hcomp.symm.trans hc, fun h => hh (hpc.mpr h)⟩

omit [DecidableEq A] in
theorem waiting_congr_of_eq (hop : s'.accept b = s.accept b) (hpop : s'.popped b = s.popped b)
    (hpc : s'.pc.completing = some b ↔ s.pc.completing = some b) : Waiting s b ↔ Waiting s' b :=
  waiting_congr (by rw [hop]) hpop (by rw [hop]) hpc

theorem waiting_congr_of_setStopOp {op : TStopOperation}
    (hop : s'.accept = Function.update s.accept a { s.accept a with stopOp := op })
    (hpop : s'.popped b = s.popped b) (hpc : s'.pc.completing = some b ↔ s.pc.completing = some b) :
    Waiting s b ↔ Waiting s' b :=
  waiting_congr (by rw [hop]; exact phase_update (by rfl) b) hpop
    (by rw [hop]; exact completions_update (by rfl) b) hpc

theorem listed_step (hi : WaitInv s) (hk : OpsInv s.toState) (hl : ListInv s.toState)
    (hx : LinksInv s) (hok : Listens s act) (hs : Stepped s act s') :
    ∀ b, b ∈ s'.acceptList ↔ Waiting s' b := by
  intro b
  have hold := hi.listed b
  have hfresh (a : A) (hf : (s.accept a).phase = .fresh) : a ∉ s.acceptList :=
    fun hmem => hk.listed a hmem hf
  have hunlisted (a : A) (hc : s.pc.completing = some a) : a ∉ s.acceptList :=
    fun hmem => ((hi.listed a).mp hmem).unhandled hc
  have hpop : s'.pc ≠ .accept b → s'.popped b = s.popped b :=
    fun hne => (popped_step hx.links hs b).resolve_right (fun h => hne h.2.2)
  have hstep := hs.step
  obtain ⟨t, l, c, p⟩ := s'
  cases hstep with
  | claim a err hc hf hp =>
    by_cases hba : b = a
    · subst hba
      exact iff_of_false (hfresh b hf) (fun hw => hw.unhandled rfl)
    · refine hold.trans (waiting_congr_of_eq (Function.update_of_ne hba _ _) (hpop ?_) ?_)
      · simp [Ne.symm hba]
      · simp [hc, Pc.completing, Ne.symm hba]
  | add a err hc hf | listen a err hc hf =>
    by_cases hba : b = a
    · subst hba
      refine iff_of_true List.mem_cons_self ⟨by simp, ?_, ?_, ?_⟩
      · rw [hpop (by simp [hc])]
        exact hx.unpopped b hf
      · simpa using hk.fresh b hf
      · simp [hc, Pc.completing]
    · have hmem : b ∈ a :: s.acceptList ↔ b ∈ s.acceptList := by simp [hba]
      refine (hmem.trans hold).trans (waiting_congr_of_eq (Function.update_of_ne hba _ _) (hpop ?_) Iff.rfl)
      simp [hc]
  | listenFailed a err hc hf hp he => simp [hok hp] at he
  | setup a hc hp =>
    by_cases hba : b = a
    · subst hba
      rw [hold]
      constructor
      · rintro ⟨-, hu, hcomp, -⟩
        exact ⟨by simp, (hpop (by simp)).trans hu, by simpa using hcomp, by simp [Pc.completing]⟩
      · rintro ⟨-, hu, hcomp, -⟩
        exact ⟨by simp [hp], (hpop (by simp)).symm.trans hu, by simpa using hcomp,
          by simp [hc, Pc.completing]⟩
    · refine hold.trans (waiting_congr_of_eq (Function.update_of_ne hba _ _) (hpop (by simp)) ?_)
      simp [hc, Pc.completing]
  | connectionFailed status hc | pend status hc =>
    exact hold.trans (waiting_congr_of_eq rfl (hpop (by simp [hc])) Iff.rfl)
  | pop status a rest hc he hcons =>
    by_cases hba : b = a
    · subst hba
      have hnd := hx.links.nodup
      rw [hcons, List.nodup_cons] at hnd
      exact iff_of_false hnd.1 (fun hw => hw.unhandled rfl)
    · have hmem : b ∈ rest ↔ b ∈ s.acceptList := by simp [hcons, hba]
      refine (hmem.trans hold).trans (waiting_congr_of_eq rfl (hpop ?_) ?_)
      · simp [Ne.symm hba]
      · simp [hc, Pc.completing, Ne.symm hba]
  | acceptLost a hc hu =>
    by_cases hba : b = a
    · subst hba
      -- the flag was taken by the stop, so the operation is set up and was popped
      have hstop := hl.stop_of_used hu (hi.current b (by rw [hc]; rfl)) (by simp [hc, Pc.taken])
      have hpopped : s.popped b = true := by
        rcases hi.claimed b hc with hp | hphase
        · exact hp
        · exact (hk.unset b hphase hstop).elim
      refine iff_of_false (hunlisted b (by rw [hc]; rfl)) (fun hw => ?_)
      have hun := hw.unpopped
      rw [hpop (by simp), hpopped] at hun
      cases hun
    · refine hold.trans (waiting_congr_of_eq rfl (hpop (by simp)) ?_)
      simp [hc, Pc.completing, Ne.symm hba]
  | acceptWon a hc | acceptReset a op hc | stopReset a op hc =>
    refine hold.trans (waiting_congr_of_setStopOp rfl (hpop (by simp)) ?_)
    simp [hc, Pc.completing]
  | uvAccept a err hc | setStopped a hc =>
    by_cases hba : b = a
    · subst hba
      refine iff_of_false (hunlisted b (by rw [hc]; rfl)) (fun hw => ?_)
      have hcomp := hw.uncompleted
      simp at hcomp
    · refine hold.trans (waiting_congr_of_eq (Function.update_of_ne hba _ _) (hpop (by simp)) ?_)
      simp [hc, Pc.completing, Ne.symm hba]
  | errorLost a err hc | errorWon a err hc | errorReset a err op hc | setError a err hc =>
    have hno := hi.listening
    simp [hc, Pc.failing] at hno
  | setupDone a hc =>
    refine hold.trans (waiting_congr_of_setStopOp rfl (hpop (by simp)) ?_)
    simp [hc, Pc.completing]
  | apply a hc hq =>
    by_cases hba : b = a
    · subst hba
      exact iff_of_false hx.links.nodup.not_mem_erase (fun hw => hw.unhandled rfl)
    · refine ((List.mem_erase_of_ne hba).trans hold).trans
        (waiting_congr_of_eq (Function.update_of_ne hba _ _) (hpop (by simp)) ?_)
      simp [hc, Pc.completing, Ne.symm hba]
  | requestStop a | callback a op hr =>
    exact hold.trans (waiting_congr_of_setStopOp rfl (congrFun hs.popped b) Iff.rfl)

theorem current_step (hi : WaitInv s) (hk : OpsInv s.toState) (h : Step s.toState act s'.toState) :
    ∀ b, s'.pc.completing = some b → (s'.accept b).completions = [] := by
  intro b hb
  have hold : (s.accept b).completions = [] := by
    rcases pc_step h (Pc.op_of_completing hb) with
      ⟨-, heq⟩ | ⟨-, ⟨err, -, hf⟩ | ⟨-, hpc⟩ | ⟨-, hq⟩ | ⟨hmem, -⟩⟩
    · exact hi.current b (heq ▸ hb)
    · exact hk.fresh b hf
    · simp [hpc, Pc.completing] at hb
    · exact hk.completions_of_queued hq
    · exact ((hi.listed b).mp hmem).uncompleted
  rcases completions_step h b with heq | ⟨-, hc, -⟩
  · rw [heq, hold]
  · simp [hc, Pc.completing] at hb

theorem claimed_step (hi : WaitInv s) (hx : LinksInv s) (hs : Stepped s act s') :
    ∀ b, s'.pc = .accept b → s'.popped b = true ∨ (s'.accept b).phase ≠ .setup := by
  intro b hb
  have hstep := hs.step
  have hpopped := congrFun hs.popped b
  obtain ⟨t, l, c, p⟩ := s'
  cases hstep with
  | claim a err hc hf hp =>
    cases hb
    exact Or.inr (by simp)
  | pop status a rest hc he hcons =>
    cases hb
    exact Or.inl (by rw [hpopped]; simp [nextPopped, pop_of_cons hx.links he hcons])
  | add a err hc | listen a err hc | connectionFailed status hc | pend status hc => simp [hc] at hb
  | requestStop a | callback a op hr =>
    refine (hi.claimed b hb).imp (fun h => hpopped.trans h) (fun h => ?_)
    exact fun h' => h ((phase_update (by rfl) b).symm.trans h')
  | _ => cases hb

theorem listening_step (hi : WaitInv s) (hok : Listens s act)
    (h : Step s.toState act s'.toState) : s'.pc.failing = false := by
  have hold := hi.listening
  obtain ⟨t, l, c, p⟩ := s'
  cases h with
  | listenFailed a err hc hf hp he => simp [hok hp] at he
  | errorWon a err hc | errorReset a err op hc => simp [hc, Pc.failing] at hold
  | add | listen | connectionFailed | pend | requestStop | callback => exact hold
  | _ => rfl

theorem waitInv_initial (h : system.initial s) : WaitInv s := by
  obtain ⟨t, ht, rfl⟩ := h
  obtain ⟨hpc, hnil, hop⟩ := initial_idle ht
  refine ⟨fun b => ?_, fun b hb => ?_, fun b hb => ?_, ?_⟩
  · exact iff_of_false (by simp [hnil]) (fun hw => hw.registered (by simp [hop]))
  · simp [hpc, Pc.completing] at hb
  · simp [hpc] at hb
  · simp [hpc, Pc.failing]

theorem waitInv (h : system.ReachableVia Listens s) : WaitInv s := by
  refine System.ReachableVia.invariant (K := fun t => ListInv t.toState ∧ OpsInv t.toState ∧ LinksInv t)
    (fun t ht => ⟨listInv ht.reachable, opsInv ht.reachable, linksInv ht.reachable⟩)
    (fun t => waitInv_initial) ?_ h
  intro t a t' hk hi hok hs
  obtain ⟨hl, ho, hx⟩ := hk
  have hstep := step_cases hs
  exact ⟨listed_step hi ho hl hx hok hstep, current_step hi ho hstep.step,
    claimed_step hi hx hstep, listening_step hi hok hstep.step⟩

/-- In every run in which the listener listens when it is asked to, the accepts
that wait and no others are linked. -/
theorem accept_listed (h : system.ReachableVia Listens s) : Listed s := by
  have hi := waitInv h
  have hr := (linksInv h.reachable).links
  exact ⟨⟨s.acceptList, hr, hi.listed⟩, fun a b hb => ((hi.listed b).mp (hr.mem_of_link hb)).uncompleted⟩

/-- Every other step leaves a completed operation linked. -/
theorem not_listed (h : system.Reachable s) (hok : ¬ Listens s act) (hs : step s act = some s') :
    ∃ as t, system.exec s' as = some t ∧ ¬ Listed t := by
  cases act with
  | register a err =>
    simp only [Listens, Classical.not_imp, Bool.not_eq_false] at hok
    obtain ⟨hp, he⟩ := hok
    rcases register_cases h hs with ⟨-, hno⟩ | ⟨as, t, hrun, hin⟩
    · simp [hno hp] at he
    · refine ⟨as, t, hrun, fun hlisted => hin.completed (hlisted.links a a (Or.inl ?_))⟩
      rw [hin.links, (step_cases hs).links, nextLinks, if_neg (by omega), TIntrusiveList.head_add]
  | _ => exact (hok trivial).elim

theorem accept_listed_stopped : ∃ s : LoopThread Bool, system.ReachableVia Listens s ∧
    s.links.head = some true ∧ (s.accept false).completions = [.stopped] ∧ Listed s := by
  have h0 : system.ReachableVia Listens
      ({ toState := (bind (constructUnbound 4096) 0 0).1 } : LoopThread Bool) :=
    .initial ⟨_, ⟨4096, Or.inr ⟨0, 0, rfl⟩⟩, rfl⟩
  have h1 := h0.step (Action.register false 0) (fun _ => by decide) rfl
  have h2 := h1.step (Action.setup false) trivial rfl
  have h3 := h2.step Action.loop trivial rfl
  have h4 := h3.step (Action.register true 0) (fun _ => by decide) rfl
  have h5 := h4.step (Action.setup true) trivial rfl
  have h6 := h5.step Action.loop trivial rfl
  have h7 := h6.step (Action.requestStop false) trivial rfl
  have h8 := h7.step (Action.callback false) trivial rfl
  have h9 := h8.step (Action.callback false) trivial rfl
  have h10 := h9.step (Action.callback false) trivial rfl
  have h11 := h10.step (Action.apply false) trivial rfl
  have h12 := h11.step Action.loop trivial rfl
  have h13 := h12.step Action.loop trivial rfl
  exact ⟨_, h13, rfl, rfl, accept_listed h13⟩

/-- The first accept on a listener of the public constructor, which fails to
listen again. -/
def failedListen : List (Action Unit) := [.register () (-98), .loop, .loop, .loop]

theorem accept_left_linked : ¬ ∀ s : LoopThread Unit, system.Reachable s → Listed s := by
  intro hall
  have hrun : (system.exec ({ toState := construct 4096 } : LoopThread Unit) failedListen).map
      (fun s => (s.links.head, (s.accept ()).completions)) =
        some (some (), [.error (-98)]) := by decide
  obtain ⟨s, hs, heq⟩ := Option.map_eq_some_iff.mp hrun
  simp only [Prod.mk.injEq] at heq
  obtain ⟨hhead, hcomp⟩ := heq
  have h0 : system.Reachable ({ toState := construct 4096 } : LoopThread Unit) :=
    .initial ⟨_, ⟨4096, Or.inl rfl⟩, rfl⟩
  have hnil := (hall s (System.reachable_exec _ h0 hs)).links () () (Or.inl hhead)
  simp [hcomp] at hnil

end LoopThread
end UvExec.TcpListener
