import UvExec.Algorithms.SocketReads
import Mathlib.Data.Fintype.Option

/-! # Whom the handle's data pointer names

In runs in which nothing is started on the socket while an operation or a close
is under way, the operations do not meet: each goes through the states of an
operation that is alone. -/

namespace UvExec.SocketReads
open Lib

variable {A κ α : Type}

def State.isClosing (s : State A κ α) : Bool := s.closing && !s.closed

/-- An operation that was started and has not completed is the one that libuv's
callbacks belong to, and so is a close. -/
structure Addressed (s : State A κ α) : Prop where
  op : ∀ a, isActive (s.ops a) = true → s.data = some (.op a) ∧ s.callback = some a
  close : s.isClosing = true → s.data = some .close

/-- Nothing is started while an operation or a close is under way. -/
def Exclusive (s : State A κ α) : Action A α → Prop
  | .start _ _ | .close => (∀ b, isActive (s.ops b) = false) ∧ s.isClosing = false
  | _ => True

instance [Fintype A] (s : State A κ α) (act : Action A α) : Decidable (Exclusive s act) := by
  cases act <;> unfold Exclusive <;> infer_instance

variable [DecidableEq A]

/-- The operation as it would be alone on the socket. -/
def State.view (s : State A κ α) (a : A) : ReadOp.State κ α :=
  { s.ops a with reading := isActive (s.ops a) && s.reading }

structure Refused (t : ReadOp.State κ α) : Prop where
  failing : (∃ err, t.pc = .startError err) ∧ t.completions = [] ∨
    t.pc = .idle ∧ ∃ err, t.completions = [.error err]
  callback : t.op.token.callback = .absent
  taker : t.op.taker = none
  queued : t.op.queued = 0

/-- The operation has gone through the states of one that is alone. -/
def Alone (k : A → ReadOp.OpState κ α) (s : State A κ α) (a : A) : Prop :=
  Refused (s.ops a) ∨ (ReadOp.system (k a)).ReachableVia ReadOp.Started (s.view a)

structure Inv (k : A → ReadOp.OpState κ α) (s : State A κ α) : Prop where
  addressed : Addressed s
  reading : s.reading = true → ∃ a, isActive (s.ops a) = true
  busy : ∀ a, isBusy (s.ops a) = true → s.running = some (a, a)
  running : ∀ a c, s.running = some (a, c) →
    c = a ∧ isBusy (s.ops a) = true ∧ s.data = some (.op a)
  alone : ∀ a, Alone k s a

variable {k : A → ReadOp.OpState κ α} {s s' : State A κ α} {a b : A} {t : ReadOp.State κ α}

omit [DecidableEq A] in
theorem Addressed.unique (h : Addressed s) (ha : isActive (s.ops a) = true)
    (hb : isActive (s.ops b) = true) : a = b := by
  have hd := (h.op a ha).1.symm.trans (h.op b hb).1
  exact Owner.op.inj (Option.some.inj hd)

omit [DecidableEq A] in
theorem shared_eq_view (h : isActive (s.ops a) = true) : s.shared a = s.view a := by
  simp only [State.shared, State.view, h, Bool.true_and]

omit [DecidableEq A] in
theorem view_eq (hb : isActive (s.ops b) = false) (hops : s'.ops b = s.ops b) :
    s'.view b = s.view b := by
  simp only [State.view, hops, hb, Bool.false_and]

theorem ops_setOp_self (s : State A κ α) (a : A) (t : ReadOp.State κ α) : (s.setOp a t).ops a = t := by
  simp only [State.setOp, Function.update_self]

theorem ops_setOp_ne (s : State A κ α) (t : ReadOp.State κ α) (h : b ≠ a) :
    (s.setOp a t).ops b = s.ops b := by
  simp only [State.setOp, Function.update_of_ne h]

/-! ### One operation -/

omit [DecidableEq A] in
theorem active_of_busy (hr : ReadOp.RaceInv t) (hb : isBusy t = true) : isActive t = true := by
  have hnil : t.completions = [] := by
    by_contra hne
    simp [isBusy, (hr.completed hne).1] at hb
  cases hp : t.pc with
  | startError err => exact (hr.failed err hp).elim
  | start => simp [isBusy, hp] at hb
  | _ => simp [isActive, hp, hnil]

theorem active_of_reading (hr : ReadOp.RaceInv t) (hp : t.pc ≠ .start) (hread : t.reading = true) :
    isActive t = true := by
  have hnil : t.completions = [] := by
    by_contra hne
    simp [(hr.completed hne).2] at hread
  cases hpc : t.pc with
  | startError err => exact (hr.failed err hpc).elim
  | start => exact (hp hpc).elim
  | _ => simp [isActive, hpc, hnil]

theorem active_of_queued (hr : ReadOp.RaceInv t) (hp : t.pc = .idle) (hq : 0 < t.op.queued) :
    isActive t = true := by
  have hnil : t.completions = [] := by
    by_contra hne
    have hzero := (hr.queued (Or.inr (Or.inr hne))).2.1
    omega
  simp [isActive, hp, hnil]

theorem refused_of_start (hr : ReadOp.RaceInv t) (hp : t.pc = .start) (err : Int) :
    Refused ({ t with pc := .startError err } : ReadOp.State κ α) := by
  obtain ⟨htaker, hcb, -⟩ := hr.early (by simp [hp, ReadOp.Pc.early])
  have hclear := hr.op.clear (by simp [htaker])
  have hnil : t.completions = [] := by
    by_contra hne
    rw [(hr.completed hne).1] at hp
    cases hp
  exact ⟨Or.inl ⟨⟨err, rfl⟩, hnil⟩, hcb, htaker, Nat.le_zero.mp (hclear.1 ▸ hr.op.queued)⟩

theorem inv_setOp (hi : Inv k s) (hops : s'.ops = Function.update s.ops a t)
    (hreading : s'.reading = t.reading) (hothers : ∀ b, b ≠ a → isActive (s.ops b) = false)
    (hidle : ∀ b, b ≠ a → isBusy (s.ops b) = false)
    (hrun : s'.running = if isBusy t then some (a, a) else none)
    (halone : Refused t ∨ (ReadOp.system (k a)).ReachableVia ReadOp.Started t)
    (hread : t.reading = true → isActive t = true) (hdata : s'.data = some (.op a))
    (hcallback : isActive t = true → s'.callback = some a) (hclose : s'.isClosing = false) :
    Inv k s' := by
  have hself : s'.ops a = t := by
    rw [hops, Function.update_self]
  have hother (b : A) (hb : b ≠ a) : s'.ops b = s.ops b := by
    rw [hops, Function.update_of_ne hb]
  have hactive (b : A) (h : isActive (s'.ops b) = true) : b = a := by
    by_contra hb
    rw [hother b hb, hothers b hb] at h
    cases h
  refine ⟨⟨fun b hb => ?_, fun hc => ?_⟩, fun hr => ?_, fun b hb => ?_, fun b c hbc => ?_, fun b => ?_⟩
  · cases hactive b hb
    exact ⟨hdata, hcallback (hself ▸ hb)⟩
  · rw [hclose] at hc
    cases hc
  · exact ⟨a, by rw [hself]; exact hread (hreading ▸ hr)⟩
  · by_cases hba : b = a
    · subst hba
      rw [hrun, if_pos (hself ▸ hb)]
    · rw [hother b hba, hidle b hba] at hb
      cases hb
  · rw [hrun] at hbc
    split at hbc
    next hbusy =>
      cases hbc
      exact ⟨rfl, by rw [hself]; exact hbusy, hdata⟩
    next => cases hbc
  · by_cases hba : b = a
    · subst hba
      have hview : s'.view b = t := by
        cases hr : t.reading with
        | true => simp only [State.view, hself, hread hr, hreading, Bool.true_and]
        | false => simp only [State.view, hself, hreading, hr, Bool.and_false]; rw [← hr]
      rw [Alone, hself, hview]
      exact halone
    · rw [Alone, view_eq (hothers b hba) (hother b hba), hother b hba]
      exact hi.alone b

/-! ### The socket -/

omit [DecidableEq A] in
theorem Inv.closing_of_running (hi : Inv k s) (hd : s.data = some (.op a)) : s.isClosing = false := by
  by_contra hc
  have hclose := hi.addressed.close (by simpa using hc)
  rw [hd] at hclose
  cases hclose

omit [DecidableEq A] in
theorem Inv.idle_of (hi : Inv k s) (hr : s.running = none ∨ s.running = some (a, a)) (hb : b ≠ a) :
    isBusy (s.ops b) = false := by
  by_contra hbusy
  have hrun := hi.busy b (by simpa using hbusy)
  rcases hr with hr | hr
  · rw [hr] at hrun
    cases hrun
  · rw [hr] at hrun
    cases hrun
    exact hb rfl

omit [DecidableEq A] in
theorem Inv.others_of (hi : Inv k s) (hd : s.data = some (.op a)) (hb : b ≠ a) :
    isActive (s.ops b) = false := by
  by_contra hact
  have hdata := (hi.addressed.op b (by simpa using hact)).1
  rw [hd] at hdata
  cases hdata
  exact hb rfl

theorem Inv.start {err : Int} (hi : Inv k s) (hok : Exclusive s (.start a err))
    (hrun : s.running = none) (hstep : ReadOp.step (k a) (s.shared a) (.start err) = some t) :
    Inv k { s.setOp a t with
      data := some (.op a)
      callback := if isError err then s.callback else some a
      running := some (a, a) } := by
  obtain ⟨hnone, hclose⟩ := hok
  have hoff : s.reading = false := by
    by_contra hon
    obtain ⟨b, hb⟩ := hi.reading (by simpa using hon)
    rw [hnone b] at hb
    cases hb
  have hshared : s.shared a = s.view a := by
    simp only [State.shared, State.view, hoff, Bool.and_false]
  rw [hshared] at hstep
  have hpc : (s.ops a).pc = .start := by
    cases ReadOp.step_cases hstep <;> assumption
  have hreach : (ReadOp.system (k a)).ReachableVia ReadOp.Started (s.view a) := by
    rcases hi.alone a with hrefused | hreach
    · rcases hrefused.failing with ⟨⟨e, he⟩, -⟩ | ⟨he, -⟩
      · rw [hpc] at he
        cases he
      · rw [hpc] at he
        cases he
    · exact hreach
  have hrace := ReadOp.reachable_raceInv hreach
  have hothers (b : A) (_ : b ≠ a) : isActive (s.ops b) = false := hnone b
  have hidle (b : A) (hb : b ≠ a) : isBusy (s.ops b) = false := hi.idle_of (Or.inl hrun) hb
  cases ReadOp.step_cases hstep with
  | startFailed _ hp he =>
    refine inv_setOp hi rfl rfl hothers hidle rfl (Or.inl (refused_of_start hrace hp err)) ?_ rfl ?_
      hclose
    · intro hr
      simp [State.view, hoff] at hr
    · intro hact
      simp [isActive] at hact
  | start _ hp he =>
    have hact : isActive ({ s.view a with reading := true, pc := .emplace } : ReadOp.State κ α) = true := by
      have hnil : (s.view a).completions = [] := by
        by_contra hne
        rw [(hrace.completed hne).1] at hp
        cases hp
      simp [isActive, hnil]
    refine inv_setOp hi rfl rfl hothers hidle rfl (Or.inr (hreach.step (.start err) he hstep))
      (fun _ => hact) rfl (fun _ => ?_) hclose
    simp [he]

omit [DecidableEq A] in
theorem pc_ne_start {k : ReadOp.OpState κ α} {s t : ReadOp.State κ α} {act : ReadOp.Action α}
    (h : ReadOp.Step k s act t) (hp : s.pc ≠ .start) : t.pc ≠ .start := by
  cases h with
  | readCallback nrd addr hc =>
    rcases k.readCallback_cases s nrd addr with ⟨he, -⟩ | he | he <;> simp [he]
  | condition nrd addr hc =>
    obtain ⟨p, c, n, hp', he⟩ := k.condition_cases s nrd addr
    rw [he]
    rcases hp' with rfl | ⟨rfl, -⟩ <;> simp
  | requestStop | callback => exact hp
  | _ => simp

omit [DecidableEq A] in
theorem ne_start_of_active (h : isActive t = true) : t.pc ≠ .start := by
  intro hp
  simp [isActive, hp] at h

omit [DecidableEq A] in
theorem reachable_stepActive {act : ReadOp.Action α} (hact : isActive (s.ops a) = true)
    (hreach : (ReadOp.system (k a)).ReachableVia ReadOp.Started (s.view a))
    (hstart : ReadOp.Started (s.view a) act) (hstep : ReadOp.step (k a) (s.shared a) act = some t) :
    (ReadOp.system (k a)).ReachableVia ReadOp.Started t ∧ (t.reading = true → isActive t = true) := by
  rw [shared_eq_view hact] at hstep
  have ht := hreach.step act hstart hstep
  have hne := pc_ne_start (ReadOp.step_cases hstep) (ne_start_of_active hact)
  exact ⟨ht, active_of_reading (ReadOp.reachable_raceInv ht) hne⟩

omit [DecidableEq A] in
theorem Refused.inactive (h : Refused t) : isActive t = false := by
  rcases h.failing with ⟨⟨err, hp⟩, -⟩ | ⟨hp, err, hone⟩
  · simp [isActive, hp]
  · simp [isActive, hp, hone]

omit [DecidableEq A] in
theorem Inv.reachable_of_active (hi : Inv k s) (hact : isActive (s.ops a) = true) :
    (ReadOp.system (k a)).ReachableVia ReadOp.Started (s.view a) := by
  rcases hi.alone a with hrefused | hreach
  · rw [hrefused.inactive] at hact
    cases hact
  · exact hreach

theorem Inv.loop {c : A} (hi : Inv k s) (hrun : s.running = some (a, c))
    (hstep : ReadOp.step (k c) (s.shared a) .loop = some t) (hops : s'.ops = Function.update s.ops a t)
    (hreading : s'.reading = t.reading) (hr : s'.running = if isBusy t then some (a, c) else none)
    (hdata : s'.data = s.data) (hcb : s'.callback = s.callback)
    (hclosing : s'.isClosing = s.isClosing) : Inv k s' := by
  obtain ⟨rfl, hbusy, hd⟩ := hi.running a c hrun
  have hothers (b : A) (hb : b ≠ c) : isActive (s.ops b) = false := hi.others_of hd hb
  have hidle (b : A) (hb : b ≠ c) : isBusy (s.ops b) = false := hi.idle_of (Or.inr hrun) hb
  have hclose : s'.isClosing = false := by
    rw [hclosing]
    exact hi.closing_of_running hd
  rcases hi.alone c with hrefused | hreach
  · -- the refused start completes, and no event can come to it any more
    obtain ⟨⟨err, hp⟩, hnil⟩ : (∃ err, (s.ops c).pc = .startError err) ∧
        (s.ops c).completions = [] := by
      rcases hrefused.failing with hp | ⟨hp, -⟩
      · exact hp
      · simp [isBusy, hp] at hbusy
    have hoff : s.reading = false := by
      by_contra hon
      obtain ⟨b, hb⟩ := hi.reading (by simpa using hon)
      by_cases hbc : b = c
      · rw [hbc, hrefused.inactive] at hb
        cases hb
      · rw [hothers b hbc] at hb
        cases hb
    simp only [ReadOp.step, ReadOp.loopStep, State.shared, hp, Option.some.injEq] at hstep
    subst hstep
    refine inv_setOp hi hops hreading hothers hidle hr (Or.inl ⟨Or.inr ⟨rfl, err, by simp [hnil]⟩,
      hrefused.callback, hrefused.taker, hrefused.queued⟩) (fun hon => ?_) (hdata.trans hd)
      (fun hact => ?_) hclose
    · simp [hoff] at hon
    · simp [isActive] at hact
  · have hact : isActive (s.ops c) = true :=
      active_of_busy (t := s.view c) (ReadOp.reachable_raceInv hreach) hbusy
    have hstart : ReadOp.Started (s.view c) .loop := trivial
    obtain ⟨ht, hread⟩ := reachable_stepActive hact hreach hstart hstep
    exact inv_setOp hi hops hreading hothers hidle hr (Or.inr ht) hread (hdata.trans hd)
      (fun _ => hcb.trans (hi.addressed.op c hact).2) hclose

theorem Inv.enter {act : ReadOp.Action α} (hi : Inv k s) (hact : isActive (s.ops a) = true)
    (hrun : s.running = none)
    (hreach : (ReadOp.system (k a)).ReachableVia ReadOp.Started (s.view a))
    (hstart : ReadOp.Started (s.view a) act) (hstep : ReadOp.step (k a) (s.shared a) act = some t)
    (hbusy : isBusy t = true) (hops : s'.ops = Function.update s.ops a t)
    (hreading : s'.reading = t.reading) (hr : s'.running = some (a, a)) (hdata : s'.data = s.data)
    (hcb : s'.callback = s.callback) (hclosing : s'.isClosing = s.isClosing) : Inv k s' := by
  obtain ⟨hd, hc⟩ := hi.addressed.op a hact
  obtain ⟨ht, hread⟩ := reachable_stepActive hact hreach hstart hstep
  refine inv_setOp hi hops hreading (fun b hb => hi.others_of hd hb)
    (fun b hb => hi.idle_of (Or.inl hrun) hb) ?_ (Or.inr ht) hread (hdata.trans hd)
    (fun _ => hcb.trans hc) ?_
  · rw [hr, if_pos hbusy]
  · rw [hclosing]
    exact hi.closing_of_running hd

theorem Inv.foreign {op : TStopOperation} (act : ReadOp.Action α) (hi : Inv k s)
    (hop : Refused (s.ops a) → Refused ({ s.ops a with op := op } : ReadOp.State κ α))
    (hstart : ∀ t : ReadOp.State κ α, ReadOp.Started t act)
    (hstep : ReadOp.step (k a) (s.view a) act = some { s.view a with op := op }) :
    Inv k { s with ops := Function.update s.ops a { s.ops a with op := op } } := by
  have hsame (b : A) : isActive (Function.update s.ops a { s.ops a with op := op } b) =
      isActive (s.ops b) ∧ isBusy (Function.update s.ops a { s.ops a with op := op } b) =
      isBusy (s.ops b) := by
    by_cases hb : b = a
    · subst hb
      rw [Function.update_self]
      exact ⟨rfl, rfl⟩
    · rw [Function.update_of_ne hb]
      exact ⟨rfl, rfl⟩
  refine ⟨⟨fun b hb => hi.addressed.op b ((hsame b).1 ▸ hb), hi.addressed.close⟩, fun hr => ?_,
    fun b hb => hi.busy b ((hsame b).2 ▸ hb), fun b c hbc => ?_, fun b => ?_⟩
  · obtain ⟨b, hb⟩ := hi.reading hr
    exact ⟨b, (hsame b).1.trans hb⟩
  · obtain ⟨hc, hbusy, hd⟩ := hi.running b c hbc
    exact ⟨hc, (hsame b).2.trans hbusy, hd⟩
  · by_cases hb : b = a
    · subst hb
      rcases hi.alone b with hrefused | hreach
      · left
        simp only [Function.update_self]
        exact hop hrefused
      · right
        have hview : State.view { s with ops := Function.update s.ops b { s.ops b with op := op } } b =
            { s.view b with op := op } := by
          simp only [State.view, Function.update_self]
          rfl
        rw [hview]
        exact hreach.step act (hstart _) hstep
    · have hops : (Function.update s.ops a { s.ops a with op := op }) b = s.ops b :=
        Function.update_of_ne hb _ _
      simp only [Alone, State.view, hops]
      exact hi.alone b

theorem Inv.step {act : Action A α} (hi : Inv k s) (hok : Exclusive s act) (h : Step k s act s') :
    Inv k s' := by
  cases h with
  | start a err t hrun hlib hstep => exact hi.start hok hrun hstep
  | loop a c t hrun hstep => exact hi.loop hrun hstep rfl rfl rfl rfl rfl rfl
  | read a c nrd addr t hrun hcb hd hstep =>
    have hon : s.reading = true ∧ isBusy t = true := by
      cases ReadOp.step_cases hstep with
      | read _ _ hp hr => exact ⟨hr, rfl⟩
    obtain ⟨b, hb⟩ := hi.reading hon.1
    obtain ⟨hdb, hcb'⟩ := hi.addressed.op b hb
    obtain rfl : a = b := Owner.op.inj (Option.some.inj (hd.symm.trans hdb))
    obtain rfl : c = a := Option.some.inj (hcb.symm.trans hcb')
    have hstart : ReadOp.Started (s.view c) (.read nrd addr) := trivial
    exact hi.enter hb hrun (hi.reachable_of_active hb) hstart hstep hon.2 rfl rfl rfl rfl rfl rfl
  | apply a t hrun hstep =>
    have hq : (s.ops a).pc = .idle ∧ 0 < (s.ops a).op.queued ∧ isBusy t = true := by
      cases ReadOp.step_cases hstep with
      | apply hp hq => exact ⟨hp, hq, rfl⟩
    have hreach : (ReadOp.system (k a)).ReachableVia ReadOp.Started (s.view a) := by
      rcases hi.alone a with hrefused | hreach
      · have hzero := hrefused.queued
        omega
      · exact hreach
    have hact : isActive (s.ops a) = true :=
      active_of_queued (t := s.view a) (ReadOp.reachable_raceInv hreach) hq.1 hq.2.1
    have hstart : ReadOp.Started (s.view a) .apply := trivial
    exact hi.enter hact hrun hreach hstart hstep hq.2.2 rfl rfl rfl rfl rfl rfl
  | close hrun hclosing =>
    obtain ⟨hnone, -⟩ := hok
    refine ⟨⟨fun a ha => ?_, fun _ => rfl⟩, fun hr => (by cases hr), hi.busy, fun a c hac => ?_,
      fun a => ?_⟩
    · rw [hnone a] at ha
      cases ha
    · rw [hrun] at hac
      cases hac
    · have hview : State.view { s with data := some .close, closing := true, reading := false } a =
          s.view a := by
        simp only [State.view, hnone a, Bool.false_and]
      rw [Alone, hview]
      exact hi.alone a
  | closed hrun hclosing hd =>
    refine ⟨⟨hi.addressed.op, fun hc => ?_⟩, hi.reading, hi.busy, hi.running, hi.alone⟩
    simp [State.isClosing] at hc
  | requestStop a =>
    refine Inv.foreign .requestStop hi (fun hr => ⟨hr.failing, ?_, hr.taker, hr.queued⟩)
      (fun _ => trivial) rfl
    simp [TStopOperation.requestStop, StopToken.request, hr.callback]
  | callback a op hop =>
    refine Inv.foreign .callback hi (fun hr => ?_) (fun _ => trivial) ?_
    · simp [TStopOperation.callbackStep, hr.callback] at hop
    · exact Option.map_eq_some_iff.mpr ⟨op, hop, rfl⟩

theorem inv_of_reachable (h : (system k).ReachableVia Exclusive s) : Inv k s := by
  refine System.ReachableVia.invariant (K := fun _ => True) (fun _ _ => trivial) ?_ ?_ h
  · rintro _ ⟨c, rfl⟩
    refine ⟨⟨by simp [isActive], by simp [State.isClosing]⟩, by simp, by simp [isBusy], by simp, fun a => ?_⟩
    exact Or.inr (.initial ⟨c a, rfl⟩)
  · intro s act s' _ hi hok hs
    exact hi.step hok (step_cases hs)

/-! ### The results -/

theorem addressed_of_exclusive (h : (system k).ReachableVia Exclusive s) : Addressed s :=
  (inv_of_reachable h).addressed

/-- The condition is exact: any other start or close takes the handle away from
the one it belongs to. -/
theorem not_addressed {act : Action A α} (hok : ¬Exclusive s act) (hs : step k s act = some s') :
    ¬Addressed s' := by
  intro haddr
  cases step_cases hs with
  | start a err t hrun hlib hstep =>
    have hpc : (s.ops a).pc = .start := by
      cases ReadOp.step_cases hstep <;> assumption
    have hnone (b : A) : isActive (s.ops b) = false := by
      by_contra hb
      have hba : b ≠ a := by
        intro hba
        simp [hba, isActive, hpc] at hb
      have hact : isActive ((s.setOp a t).ops b) = true := by
        rw [ops_setOp_ne s t hba]
        simpa using hb
      exact hba (Owner.op.inj (Option.some.inj (haddr.op b hact).1)).symm
    have hclose : s.isClosing = false := by
      by_contra hc
      have hdata := haddr.close (by simpa [State.isClosing, State.setOp] using hc)
      cases hdata
    exact hok ⟨hnone, hclose⟩
  | close hrun hclosing =>
    have hnone (b : A) : isActive (s.ops b) = false := by
      by_contra hb
      have hdata := (haddr.op b (by simpa using hb)).1
      cases hdata
    exact hok ⟨hnone, by simp [State.isClosing, hclosing]⟩
  | _ => exact hok trivial

theorem addressed_sequence : ∃ s : State Bool Unit Unit,
    (system fun _ => .readSome).ReachableVia Exclusive s ∧
      s.data = some (.op false) ∧ isActive (s.ops false) = true ∧ Addressed s := by
  have h0 : (system fun _ => .readSome).ReachableVia Exclusive
      ({ ops := fun _ => { conditionState := () } } : State Bool Unit Unit) :=
    .initial ⟨fun _ => (), rfl⟩
  have h1 := h0.step (Action.start true 0) ⟨fun _ => rfl, rfl⟩ rfl
  have h2 := h1.step Action.loop trivial rfl
  have h3 := h2.step Action.loop trivial rfl
  have h4 := h3.step Action.loop trivial rfl
  have h5 := h4.step (Action.read 5 none) trivial rfl
  have h6 := h5.step Action.loop trivial rfl
  have h7 := h6.step Action.loop trivial rfl
  have h8 := h7.step Action.loop trivial rfl
  have h9 := h8.step Action.loop trivial rfl
  have h10 := h9.step Action.loop trivial rfl
  have h11 := h10.step (Action.start false 0) ⟨fun b => by cases b <;> rfl, rfl⟩ rfl
  exact ⟨_, h11, rfl, rfl, addressed_of_exclusive h11⟩

/-- A second read is refused with UV_EALREADY, and the handle names it though the
first one is still under way. -/
theorem addressed_overlapping : ∃ s : State Bool Unit Unit,
    (system fun _ => .readSome).Reachable s ∧ isActive (s.ops true) = true ∧
      s.data = some (.op false) ∧ ¬Addressed s := by
  have h0 : (system fun _ => .readSome).Reachable
      ({ ops := fun _ => { conditionState := () } } : State Bool Unit Unit) :=
    .initial ⟨fun _ => (), rfl⟩
  have h1 := h0.step (Action.start true 0) rfl
  have h2 := h1.step Action.loop rfl
  have h3 := h2.step Action.loop rfl
  have h4 := h3.step Action.loop rfl
  have h5 := h4.step (Action.start false (-114)) rfl
  refine ⟨_, h5, rfl, rfl, fun haddr => ?_⟩
  cases (haddr.op true rfl).1

end UvExec.SocketReads
