import UvExec.Algorithms.HandleData
import Mathlib.Algebra.GroupWithZero.Nat

/-! # What becomes of the data that libuv hands over

The data of a callback is reported by `set_value`, unless the callback finds the
flag taken by the stop callback, or a datagram's address cannot be copied. -/

namespace UvExec.SocketReads
open Lib

variable {A κ α : Type}

/-- The datum that the thread is carrying, on its way through a read callback. -/
def carried (k : ReadOp.OpState κ α) (t : ReadOp.State κ α) : List ℕ :=
  match t.pc with
  | .readCallback nrd addr | .testAndSet nrd addr | .reset nrd addr | .readStop nrd addr =>
    datum k nrd addr
  | .complete c => report k c
  | _ => []

def State.inFlight (k : A → ReadOp.OpState κ α) (s : State A κ α) : List (A × ℕ) :=
  match s.running with
  | some (a, c) => (carried (k c) (s.ops a)).map fun n => (a, n)
  | none => []

/-- An operation that completes with what one callback hands it. -/
def isSingle : ReadOp.OpState κ α → Bool
  | .readSome | .receive | .receiveFrom _ => true
  | .readUntil _ _ => false

def Decisive (k : ReadOp.OpState κ α) (t : ReadOp.State κ α) : Prop :=
  ∀ nrd addr, t.pc = .testAndSet nrd addr ∨ t.pc = .reset nrd addr ∨ t.pc = .readStop nrd addr →
    k.decisive nrd addr = true

variable {k : ReadOp.OpState κ α} {s t : ReadOp.State κ α}

theorem datum_of_not_decisive (hk : isSingle k = true) {nrd : Int} {addr : Option α}
    (h : k.decisive nrd addr = false) : datum k nrd addr = [] := by
  cases k with
  | readSome => simp_all [ReadOp.OpState.decisive, datum]
  | readUntil size cond => cases hk
  | receive | receiveFrom copyAddress => simp_all [ReadOp.OpState.decisive, datum]

theorem datum_of_decisive (hk : k = .receive ∨ ∃ copyAddress, k = .receiveFrom copyAddress)
    {nrd : Int} {addr : Option α} (hd : k.decisive nrd addr = true) (hnrd : ¬nrd < 0) :
    datum k nrd addr = [nrd.toNat] := by
  have hpos : 0 ≤ nrd := by omega
  have hsome : ¬(addr.isNone ∧ nrd = 0) := by
    rcases hk with rfl | ⟨copyAddress, rfl⟩ <;> cases addr <;>
      simp_all [ReadOp.OpState.decisive]
  rcases hk with rfl | ⟨copyAddress, rfl⟩
  · exact if_pos ⟨hpos, hsome⟩
  · exact if_pos ⟨hpos, hsome⟩

theorem report_outcome (hk : isSingle k = true) {nrd : Int} {addr : Option α}
    (hd : k.decisive nrd addr = true) :
    (∃ err, k.outcome s nrd addr = .error err) ∨ report k (k.outcome s nrd addr) = datum k nrd addr := by
  by_cases hneg : nrd < 0
  · cases k with
    | readUntil size cond => cases hk
    | readSome =>
      have hnot : ¬0 < nrd := by omega
      by_cases heof : nrd = uvEof
      · right
        simp [ReadOp.OpState.outcome, heof, report, datum, uvEof]
      · exact Or.inl ⟨nrd, by simp [ReadOp.OpState.outcome, hneg, heof]⟩
    | receive | receiveFrom copyAddress =>
      exact Or.inl ⟨nrd, by simp [ReadOp.OpState.outcome, hneg]⟩
  · cases k with
    | readUntil size cond => cases hk
    | readSome =>
      right
      have hne : nrd ≠ 0 := by simpa [ReadOp.OpState.decisive] using hd
      have hpos : 0 < nrd := by omega
      have hnat : nrd.toNat ≠ 0 := by omega
      simp [ReadOp.OpState.outcome, hneg, report, datum, hpos, hnat]
    | receive =>
      right
      rw [datum_of_decisive (Or.inl rfl) hd hneg]
      simp [ReadOp.OpState.outcome, hneg, report]
    | receiveFrom copyAddress =>
      cases herr : isError (addr.elim 0 copyAddress) with
      | true => exact Or.inl ⟨_, by simp [ReadOp.OpState.outcome, hneg, herr]; rfl⟩
      | false =>
        right
        rw [datum_of_decisive (Or.inr ⟨copyAddress, rfl⟩) hd hneg]
        simp [ReadOp.OpState.outcome, hneg, herr, report]

theorem readCallback_decisive (hk : isSingle k = true) (nrd : Int) (addr : Option α) :
    k.readCallback s nrd addr = .idle ∧ k.decisive nrd addr = false ∨
    k.readCallback s nrd addr = .testAndSet nrd addr ∧ k.decisive nrd addr = true := by
  cases k with
  | readUntil size cond => cases hk
  | readSome =>
    by_cases h0 : nrd = 0 <;> simp [ReadOp.OpState.readCallback, ReadOp.OpState.decisive, h0]
  | receive | receiveFrom copyAddress =>
    by_cases h0 : nrd = 0 <;> cases addr <;>
      simp [ReadOp.OpState.readCallback, ReadOp.OpState.decisive, h0]

/-- A step of the loop's thread passes the datum on, or reports, discards or
fails it. -/
theorem carried_loop (hk : isSingle k = true) (hd : Decisive k s)
    (h : ReadOp.Step k s .loop t) : Decisive k t ∧
      carried k s = delivers k s ++ discards k s ++ fails k s ++ carried k t := by
  cases h with
  | readCallback nrd addr hp =>
    rcases readCallback_decisive (s := s) hk nrd addr with ⟨he, hno⟩ | ⟨he, hyes⟩
    · simp [Decisive, carried, delivers, discards, fails, hp, he, datum_of_not_decisive hk hno]
    · simp [Decisive, carried, delivers, discards, fails, hp, he, hyes]
  | condition nrd addr hp =>
    cases k with
    | readUntil size cond => cases hk
    | readSome | receive | receiveFrom copyAddress =>
      simp [Decisive, carried, delivers, discards, fails, hp, ReadOp.OpState.condition]
  | lost nrd addr hp hu => simp [Decisive, carried, delivers, discards, fails, hp, hu]
  | won nrd addr hp hu =>
    have hdec := hd nrd addr (Or.inl hp)
    simp [Decisive, carried, delivers, discards, fails, hp, hu, hdec]
  | reset nrd addr op hp hr =>
    have hdec := hd nrd addr (Or.inr (Or.inl hp))
    simp [Decisive, carried, delivers, discards, fails, hp, hdec]
  | readStop nrd addr hp =>
    have hdec := hd nrd addr (Or.inr (Or.inr hp))
    refine ⟨by simp [Decisive], ?_⟩
    have hreport := report_outcome (s := s) hk hdec
    cases hout : k.outcome s nrd addr with
    | error err => simp [carried, delivers, discards, fails, hp, hout, report]
    | value n =>
      rw [hout] at hreport
      simpa [carried, delivers, discards, fails, hp, hout, eq_comm] using hreport
    | stopped =>
      rw [hout] at hreport
      simpa [carried, delivers, discards, fails, hp, hout, eq_comm] using hreport
  | complete c hp => simp [Decisive, carried, delivers, discards, fails, hp]
  | _ => simp [Decisive, carried, delivers, discards, fails, report, *]

/-- The operation is about to complete with `c`, or has done so. -/
def Completes (t : ReadOp.State κ α) (c : Completion ℕ) : Prop :=
  t.pc = .complete c ∨ c ∈ t.completions

structure Kept (s t : ReadOp.State κ α) : Prop where
  used : s.op.used = true → t.op.used = true ∧ t.op.taker = s.op.taker
  completions : ∀ c ∈ s.completions, c ∈ t.completions
  completes : ∀ c, Completes s c → Completes t c

/-- A step that leaves the completions alone, and the thread where a completion
is next. -/
theorem kept_of_eq (hused : s.op.used = true → t.op.used = true ∧ t.op.taker = s.op.taker)
    (hcomp : t.completions = s.completions) (hpc : ∀ c, s.pc = .complete c → t.pc = .complete c) :
    Kept s t := by
  refine ⟨hused, fun c hc => hcomp ▸ hc, fun c hc => ?_⟩
  rcases hc with hp | hmem
  · exact Or.inl (hpc c hp)
  · exact Or.inr (hcomp ▸ hmem)

theorem kept_of_complete {c : Completion ℕ} (hpc : ∀ d, s.pc = .complete d → d = c) :
    Kept s (s.complete c) := by
  refine ⟨fun hu => ⟨hu, rfl⟩, fun d hd => List.mem_append_left _ hd, fun d hd => ?_⟩
  rcases hd with hp | hmem
  · have hdc := hpc d hp
    exact Or.inr (List.mem_append_right _ (List.mem_singleton.mpr hdc))
  · exact Or.inr (List.mem_append_left _ hmem)

theorem kept_of_step {act : ReadOp.Action α} (h : ReadOp.Step k s act t) : Kept s t := by
  cases h with
  | startError err hp => exact kept_of_complete fun d hd => by simp [hp] at hd
  | complete c hp => exact kept_of_complete fun d hd => (ReadOp.Pc.complete.inj (hp ▸ hd)).symm
  | condition nrd addr hp =>
    obtain ⟨p, c, n, -, he⟩ := k.condition_cases s nrd addr
    rw [he]
    exact kept_of_eq (fun hu => ⟨hu, rfl⟩) rfl fun d hd => by simp [hp] at hd
  | won nrd addr hp hu =>
    exact kept_of_eq (fun hused => by simp [hu] at hused) rfl fun d hd => by simp [hp] at hd
  | reset nrd addr op hp hr | resetUnsafe op hp hr =>
    have hnot : ∀ d, s.pc ≠ .complete d := fun d => by simp [hp]
    rcases TStopOperation.resetCallback_cases hr with ⟨-, rfl⟩ | ⟨-, -, rfl⟩
    · exact kept_of_eq (fun hu => ⟨hu, rfl⟩) rfl fun d hd => (hnot d hd).elim
    · exact kept_of_eq (fun hu => ⟨hu, rfl⟩) rfl fun d hd => (hnot d hd).elim
  | callback op hop =>
    refine kept_of_eq ?_ rfl fun d hd => hd
    obtain ⟨i, hcase⟩ := TStopOperation.callbackStep_cases hop
    rcases hcase with ⟨-, -, rfl⟩ | ⟨-, hu, rfl⟩ | ⟨-, rfl⟩ | ⟨-, rfl⟩
    · exact fun hu => ⟨hu, rfl⟩
    · exact fun hused => by simp [hu] at hused
    · exact fun hu => ⟨hu, rfl⟩
    · exact fun hu => ⟨hu, rfl⟩
  | requestStop => exact kept_of_eq (fun hu => ⟨hu, rfl⟩) rfl fun d hd => hd
  | _ => exact kept_of_eq (fun hu => ⟨hu, rfl⟩) rfl fun d hd => by simp_all

theorem value_of_delivers {n : ℕ} (hn : n ∈ delivers k s) (h : ReadOp.Step k s .loop t) :
    .value n ∈ t.completions := by
  unfold delivers at hn
  split at hn
  next c hp =>
    have hc : c = .value n := by
      cases c with
      | error err => simp [report] at hn
      | stopped => simp [report] at hn
      | value m =>
        cases k with
        | readUntil size cond => simp [report] at hn
        | readSome =>
          simp only [report] at hn
          split at hn
          · cases hn
          · rw [List.mem_singleton.mp hn]
        | receive | receiveFrom copyAddress => rw [List.mem_singleton.mp hn]
    cases h <;> simp_all
  next => cases hn

theorem stop_of_discards {n : ℕ} (hn : n ∈ discards k s) (hr : ReadOp.RaceInv s)
    (h : ReadOp.Step k s .loop t) : t.op.used = true ∧ t.op.taker = some .stop := by
  unfold discards at hn
  split at hn
  next nrd addr hp =>
    split at hn
    next hu =>
      have hop := (kept_of_step h).used hu
      cases ht : s.op.taker with
      | none => exact (hr.op.used.mp hu ht).elim
      | some tk =>
        cases tk with
        | stop => exact ⟨hop.1, hop.2.trans ht⟩
        | completion =>
          rcases hr.taken ht with hw | hc | hne
          · simp [hp, ReadOp.Pc.won] at hw
          · simp [hp, ReadOp.Pc.completing] at hc
          · rw [(hr.completed hne).1] at hp
            cases hp
    next => cases hn
  next => cases hn

/-- The address of the datagram could not be copied, and the operation completes
with that error. -/
def AddressFailed (k : ReadOp.OpState κ α) (t : ReadOp.State κ α) : Prop :=
  ∃ copyAddress addr, k = .receiveFrom copyAddress ∧ isError (copyAddress addr) = true ∧
    Completes t (.error (copyAddress addr))

theorem datum_of_negative {nrd : Int} {addr : Option α} (h : nrd < 0) : datum k nrd addr = [] := by
  have hpos : ¬0 < nrd := by omega
  have hnot : ¬0 ≤ nrd := by omega
  cases k <;> simp [datum, hpos, hnot]

/-- Only the copy of an address turns a datum into an error. -/
theorem addressFailed_of_fails {n : ℕ} (hn : n ∈ fails k s) (h : ReadOp.Step k s .loop t) :
    AddressFailed k t := by
  unfold fails at hn
  split at hn
  next nrd addr hp =>
    split at hn
    next err hout =>
      have hneg : ¬nrd < 0 := by
        intro hneg
        rw [datum_of_negative hneg] at hn
        cases hn
      have ht : t.pc = .complete (.error err) := by
        cases h <;> simp_all
      cases k with
      | readSome | readUntil size cond | receive => simp [ReadOp.OpState.outcome, hneg] at hout
      | receiveFrom copyAddress =>
        cases addr with
        | none => simp [ReadOp.OpState.outcome, hneg, isError] at hout
        | some address =>
          cases herr : isError (copyAddress address) with
          | false => simp [ReadOp.OpState.outcome, hneg, herr] at hout
          | true =>
            simp only [ReadOp.OpState.outcome, hneg, if_false, Option.elim_some, herr, if_true,
              Completion.error.injEq] at hout
            exact ⟨copyAddress, address, rfl, herr, Or.inl (hout ▸ ht)⟩
    all_goals cases hn
  next => cases hn

/-! ### Conservation -/

section
variable [DecidableEq A] {k : A → ReadOp.OpState κ α} {s s' : State A κ α}

structure Conserved (k : A → ReadOp.OpState κ α) (s : State A κ α) : Prop where
  perm : s.handed.Perm (s.delivered ++ s.discarded ++ s.failed ++ s.inFlight k)
  decisive : ∀ a c, s.running = some (a, c) → Decisive (k c) (s.ops a)

omit [DecidableEq A] in
theorem inFlight_idle (hr : s.running = none) : s.inFlight k = [] := by
  rw [State.inFlight, hr]

omit [DecidableEq A] in
theorem inFlight_other (hr : s.running = none) (hperm : Conserved k s)
    (hnew : s'.inFlight k = []) (hh : s'.handed = s.handed) (hd : s'.delivered = s.delivered)
    (hx : s'.discarded = s.discarded) (hf : s'.failed = s.failed) :
    s'.handed.Perm (s'.delivered ++ s'.discarded ++ s'.failed ++ s'.inFlight k) := by
  have hp := hperm.perm
  rw [inFlight_idle hr] at hp
  rw [hh, hd, hx, hf, hnew]
  exact hp

omit [DecidableEq A] in
theorem carried_idle {k : ReadOp.OpState κ α} {t : ReadOp.State κ α} (h : isBusy t = false) :
    carried k t = [] := by
  cases hp : t.pc <;> simp_all [isBusy, carried]

omit [DecidableEq A] in
theorem Conserved.of_pc (hi : Conserved k s) (hpc : ∀ a, (s'.ops a).pc = (s.ops a).pc)
    (hrun : s'.running = s.running) (hh : s'.handed = s.handed) (hd : s'.delivered = s.delivered)
    (hx : s'.discarded = s.discarded) (hf : s'.failed = s.failed) : Conserved k s' := by
  have hin : s'.inFlight k = s.inFlight k := by
    simp only [State.inFlight, carried, hrun, hpc]
  refine ⟨?_, fun a c hac => ?_⟩
  · rw [hh, hd, hx, hf, hin]
    exact hi.perm
  · intro nrd addr hp
    rw [hpc] at hp
    exact hi.decisive a c (hrun ▸ hac) nrd addr hp

theorem handed_setOp (s : State A κ α) (a : A) (t : ReadOp.State κ α) :
    (s.setOp a t).handed = s.handed := rfl

theorem pc_update_op (s : State A κ α) (a b : A) (op : TStopOperation) :
    (Function.update s.ops a { s.ops a with op := op } b).pc = (s.ops b).pc := by
  by_cases hb : b = a
  · subst hb
    rw [Function.update_self]
  · rw [Function.update_of_ne hb]

theorem Conserved.step {act : Action A α} (hk : ∀ a, isSingle (k a) = true) (hi : Conserved k s)
    (h : Step k s act s') : Conserved k s' := by
  obtain ⟨hperm, hdec⟩ := id hi
  cases h with
  | start a err t hrun hlib hstep =>
    cases ReadOp.step_cases hstep with
    | startFailed _ hp he =>
      refine ⟨inFlight_other hrun hi ?_ rfl rfl rfl rfl, fun b c hbc => ?_⟩
      · simp [State.inFlight, State.setOp, carried]
      · cases hbc
        simp [Decisive, State.setOp]
    | start _ hp he =>
      refine ⟨inFlight_other hrun hi ?_ rfl rfl rfl rfl, fun b c hbc => ?_⟩
      · simp [State.inFlight, State.setOp, carried]
      · cases hbc
        simp [Decisive, State.setOp]
  | loop a c t hrun hstep =>
    obtain ⟨hdt, hsplit⟩ := carried_loop (hk c) (s := s.shared a) (hdec a c hrun)
      (ReadOp.step_cases hstep)
    have hold : s.inFlight k = (carried (k c) (s.shared a)).map fun n => (a, n) := by
      rw [State.inFlight, hrun]
      rfl
    rw [hold, hsplit] at hperm
    cases hb : isBusy t with
    | true =>
      refine ⟨?_, fun b e hbe => ?_⟩
      · rw [List.perm_iff_count] at hperm ⊢
        intro p
        have hp := hperm p
        simp only [State.inFlight, if_true, ops_setOp_self, handed_setOp, List.map_append,
          List.count_append] at hp ⊢
        omega
      · simp only [if_true, Option.some.injEq, Prod.mk.injEq] at hbe
        obtain ⟨rfl, rfl⟩ := hbe
        simpa only [ops_setOp_self] using hdt
    | false =>
      rw [carried_idle hb] at hperm
      refine ⟨?_, fun b e hbe => ?_⟩
      · rw [List.perm_iff_count] at hperm ⊢
        intro p
        have hp := hperm p
        simp only [State.inFlight, Bool.false_eq_true, if_false, handed_setOp, List.map_append,
          List.count_append, List.map_nil, List.count_nil] at hp ⊢
        omega
      · simp at hbe
  | read a c nrd addr t hrun hcb hd hstep =>
    rw [inFlight_idle hrun, List.append_nil] at hperm
    cases ReadOp.step_cases hstep with
    | read _ _ hp hr =>
      refine ⟨?_, fun b e hbe => ?_⟩
      · simp only [State.inFlight, ops_setOp_self, carried]
        exact hperm.append_right _
      · cases hbe
        simp [Decisive, State.setOp]
  | apply a t hrun hstep =>
    cases ReadOp.step_cases hstep with
    | apply hp hq =>
      refine ⟨inFlight_other hrun hi ?_ rfl rfl rfl rfl, fun b c hbc => ?_⟩
      · simp [State.inFlight, State.setOp, carried]
      · cases hbc
        simp [Decisive, State.setOp]
  | close hrun hclosing => exact ⟨hperm, hdec⟩
  | closed hrun hclosing hd => exact ⟨hperm, hdec⟩
  | requestStop a => exact hi.of_pc (fun b => pc_update_op s a b _) rfl rfl rfl rfl rfl
  | callback a op hop => exact hi.of_pc (fun b => pc_update_op s a b op) rfl rfl rfl rfl rfl

omit [DecidableEq A] in
theorem kept_refl (t : ReadOp.State κ α) : Kept t t :=
  kept_of_eq (fun hu => ⟨hu, rfl⟩) rfl fun _ hc => hc

theorem kept_setOp {a : A} {t : ReadOp.State κ α} (h : Kept (s.shared a) t) (b : A) :
    Kept (s.ops b) ((s.setOp a t).ops b) := by
  by_cases hb : b = a
  · subst hb
    rw [ops_setOp_self]
    exact ⟨h.used, h.completions, h.completes⟩
  · rw [ops_setOp_ne s t hb]
    exact kept_refl _

theorem Step.kept {act : Action A α} (h : Step k s act s') (b : A) : Kept (s.ops b) (s'.ops b) := by
  have hother {a : A} {op : TStopOperation}
      (hop : Kept (s.ops a) ({ s.ops a with op := op } : ReadOp.State κ α)) :
      Kept (s.ops b) (Function.update s.ops a { s.ops a with op := op } b) := by
    by_cases hb : b = a
    · subst hb
      rw [Function.update_self]
      exact hop
    · rw [Function.update_of_ne hb]
      exact kept_refl _
  cases h with
  | start a err t hrun hlib hstep => exact kept_setOp (kept_of_step (ReadOp.step_cases hstep)) b
  | loop a c t hrun hstep => exact kept_setOp (kept_of_step (ReadOp.step_cases hstep)) b
  | read a c nrd addr t hrun hcb hd hstep =>
    exact kept_setOp (kept_of_step (ReadOp.step_cases hstep)) b
  | apply a t hrun hstep => exact kept_setOp (kept_of_step (ReadOp.step_cases hstep)) b
  | close | closed => exact kept_refl _
  | requestStop a => exact hother (kept_of_eq (fun hu => ⟨hu, rfl⟩) rfl fun _ hc => hc)
  | callback a op hop => exact hother (kept_of_step (.callback op hop : ReadOp.Step (k a) _ _ _))

structure Fate (k : A → ReadOp.OpState κ α) (s : State A κ α) : Prop where
  delivered : ∀ a n, (a, n) ∈ s.delivered → .value n ∈ (s.ops a).completions
  discarded : ∀ a n, (a, n) ∈ s.discarded →
    (s.ops a).op.used = true ∧ (s.ops a).op.taker = some .stop
  failed : ∀ a n, (a, n) ∈ s.failed → AddressFailed (k a) (s.ops a)

omit [DecidableEq A] in
theorem mem_map_pair {a b : A} {n : ℕ} {l : List ℕ} (h : (b, n) ∈ l.map fun m => (a, m)) :
    b = a ∧ n ∈ l := by
  obtain ⟨m, hm, he⟩ := List.mem_map.mp h
  cases he
  exact ⟨rfl, hm⟩

theorem Fate.step {act : Action A α} (hinv : Inv k s) (hi : Fate k s)
    (h : Step k s act s') : Fate k s' := by
  have hkept := h.kept
  have hold : ∀ a n, (a, n) ∈ s.delivered → .value n ∈ (s'.ops a).completions := fun a n hmem =>
    (hkept a).completions _ (hi.delivered a n hmem)
  have holdx : ∀ a n, (a, n) ∈ s.discarded →
      (s'.ops a).op.used = true ∧ (s'.ops a).op.taker = some .stop := by
    intro a n hmem
    obtain ⟨hu, ht⟩ := hi.discarded a n hmem
    obtain ⟨hu', ht'⟩ := (hkept a).used hu
    exact ⟨hu', ht'.trans ht⟩
  have holdf : ∀ a n, (a, n) ∈ s.failed → AddressFailed (k a) (s'.ops a) := by
    intro a n hmem
    obtain ⟨copyAddress, addr, hk, herr, hcomp⟩ := hi.failed a n hmem
    exact ⟨copyAddress, addr, hk, herr, (hkept a).completes _ hcomp⟩
  cases h with
  | loop a c t hrun hstep =>
    obtain ⟨rfl, hbusy, hd⟩ := hinv.running a c hrun
    refine ⟨fun b n hmem => ?_, fun b n hmem => ?_, fun b n hmem => ?_⟩
    · rcases List.mem_append.mp hmem with hmem | hmem
      · exact hold b n hmem
      · obtain ⟨rfl, hn⟩ := mem_map_pair hmem
        simp only [ops_setOp_self]
        exact value_of_delivers hn (ReadOp.step_cases hstep)
    · rcases List.mem_append.mp hmem with hmem | hmem
      · exact holdx b n hmem
      · obtain ⟨rfl, hn⟩ := mem_map_pair hmem
        rcases hinv.alone b with hrefused | hreach
        · rcases hrefused.failing with ⟨⟨err, he⟩, -⟩ | ⟨he, -⟩ <;>
            simp [discards, State.shared, he] at hn
        · have hrace := ReadOp.reachable_raceInv hreach
          have hact : isActive (s.ops b) = true := active_of_busy (t := s.view b) hrace hbusy
          rw [← shared_eq_view hact] at hrace
          simp only [ops_setOp_self]
          exact stop_of_discards hn hrace (ReadOp.step_cases hstep)
    · rcases List.mem_append.mp hmem with hmem | hmem
      · exact holdf b n hmem
      · obtain ⟨rfl, hn⟩ := mem_map_pair hmem
        simp only [ops_setOp_self]
        exact addressFailed_of_fails hn (ReadOp.step_cases hstep)
  | _ => exact ⟨hold, holdx, holdf⟩

end

end UvExec.SocketReads
