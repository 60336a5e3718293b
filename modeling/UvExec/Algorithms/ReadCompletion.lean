import UvExec.Algorithms.ReadOpState

/-! # One completion for every reading operation, with reading off

A read callback and a stop request race for `Used`; whoever takes it stops
reading and completes the receiver. -/

namespace UvExec.ReadOp
open Lib
variable {κ α : Type}

/-- Runs in which reading is started. -/
def Started (_ : State κ α) : Action α → Prop
  | .start err => isError err = false
  | _ => True

def Pc.early : Pc α → Bool
  | .start | .startError _ | .emplace | .setup => true
  | .setupDone | .idle | .readCallback _ _ | .condition _ _ | .testAndSet _ _ | .reset _ _
  | .readStop _ _ | .resetUnsafe | .stopReadStop | .complete _ => false

def Pc.won : Pc α → Bool
  | .reset _ _ | .readStop _ _ => true
  | .start | .startError _ | .emplace | .setup | .setupDone | .idle | .readCallback _ _
  | .condition _ _ | .testAndSet _ _ | .resetUnsafe | .stopReadStop | .complete _ => false

def Pc.stopping : Pc α → Bool
  | .resetUnsafe | .stopReadStop => true
  | .start | .startError _ | .emplace | .setup | .setupDone | .idle | .readCallback _ _
  | .condition _ _ | .testAndSet _ _ | .reset _ _ | .readStop _ _ | .complete _ => false

def Pc.completing : Pc α → Bool
  | .complete _ => true
  | .start | .startError _ | .emplace | .setup | .setupDone | .idle | .readCallback _ _
  | .condition _ _ | .testAndSet _ _ | .reset _ _ | .readStop _ _ | .resetUnsafe
  | .stopReadStop => false

/-- Who may have taken the flag, by the point that the loop's thread is at. -/
structure RaceInv (s : State κ α) : Prop where
  op : s.op.Inv
  failed : ∀ err, s.pc ≠ .startError err
  early : s.pc.early = true →
    s.op.taker = none ∧ s.op.token.callback = .absent ∧ s.op.engaged = false
  won : s.pc.won = true → s.op.taker = some .completion
  lost : s.pc.stopping = true → s.op.taker = some .stop
  taken : s.op.taker = some .completion →
    s.pc.won = true ∨ s.pc.completing = true ∨ s.completions ≠ []
  queued : s.pc.stopping = true ∨ s.pc.completing = true ∨ s.completions ≠ [] →
    s.op.taker ≠ none ∧ s.op.queued = 0 ∧ s.op.scheduling = false
  complete : ∀ c, s.pc = .complete c → s.reading = false ∧ s.completions = [] ∧
    s.op.taker = some c.taker
  completed : s.completions ≠ [] → s.pc = .idle ∧ s.reading = false
  outcome : ∀ c ∈ s.completions, s.op.taker = some c.taker
  once : s.completions.length ≤ 1
  applied : 0 < s.applied → s.pc.stopping = true ∨ s.pc.completing = true ∨ s.completions ≠ []
  receiver : s.pc = .setup ∨ s.pc.early = false → s.completions = [] → s.receiver = .member

theorem OpState.outcome_taker (k : OpState κ α) (s : State κ α) (nrd : Int) (addr : Option α) :
    (k.outcome s nrd addr).taker = .completion := by
  cases k with
  | readSome | readUntil size cond | receive | receiveFrom copyAddress =>
    simp only [outcome]
    repeat' split
    all_goals rfl

theorem opInv_step {k : OpState κ α} {s s' : State κ α} {a : Action α} (hi : RaceInv s)
    (h : Step k s a s') : s'.op.Inv := by
  have hop := hi.op
  cases h with
  | setup hc => exact hop.setup (hi.early (by simp [hc, Pc.early])).2.1
  | setupDone hc hrun => exact hop.engage
  | won nrd addr hc hu =>
    have hw := hop.testAndSet
    rwa [TStopOperation.testAndSet, if_neg (by simp [hu])] at hw
  | condition nrd addr hc =>
    rcases k.condition_cases s nrd addr with ⟨p, c, t, -, he⟩
    rw [he]
    exact hop
  | reset nrd addr op hc hr | resetUnsafe op hc hr => exact hop.resetCallback hr
  | apply hc hq => exact hop.beginApply (by simp [TStopOperation.beginApply, hq])
  | requestStop => exact hop.requestStop
  | callback op hr => exact hop.callbackStep hr
  | _ => exact hop

variable {k : OpState κ α} {s s' : State κ α} {a : Action α} {nrd : Int} {addr : Option α}

theorem RaceInv.foreign {op : TStopOperation} (hi : RaceInv s) (hop : op.Inv)
    (h : s.op.Foreign op) : RaceInv { s with op := op } where
  op := hop
  failed := hi.failed
  early hp := by
    obtain ⟨ht, hcb, he⟩ := hi.early hp
    exact ⟨(h.taker_of_absent hcb).trans ht, h.absent.mpr hcb, h.engaged.trans he⟩
  won hp := h.taker_some (hi.won hp)
  lost hp := h.taker_some (hi.lost hp)
  taken ht := hi.taken (h.completion ht)
  queued hp := by
    obtain ⟨hne, hq, hs⟩ := hi.queued hp
    obtain ⟨t, ht⟩ := Option.ne_none_iff_exists'.mp hne
    have hspent := h.spent (hi.op.spent ht hq hs)
    exact ⟨by simp [h.taker_some ht], hspent.queued, hspent.quiet⟩
  complete c hp := by
    obtain ⟨hr, hnil, ht⟩ := hi.complete c hp
    exact ⟨hr, hnil, h.taker_some ht⟩
  completed := hi.completed
  outcome c hc := h.taker_some (hi.outcome c hc)
  once := hi.once
  applied := hi.applied
  receiver := hi.receiver

theorem RaceInv.uncompleted (hi : RaceInv s) (hp : s.pc ≠ .idle) : s.completions = [] := by
  by_contra hne
  exact hp (hi.completed hne).1

theorem RaceInv.requestStop (hi : RaceInv s) : RaceInv { s with op := s.op.requestStop } :=
  hi.foreign hi.op.requestStop s.op.requestStop_foreign

theorem RaceInv.callback {op : TStopOperation} (hi : RaceInv s) (h : s.op.callbackStep = some op) :
    RaceInv { s with op := op } :=
  hi.foreign (hi.op.callbackStep h) (hi.op.callbackStep_foreign h)

/-- In a read callback that has not taken the flag. -/
def Pc.racing : Pc α → Bool
  | .readCallback _ _ | .condition _ _ | .testAndSet _ _ => true
  | .start | .startError _ | .emplace | .setup | .setupDone | .idle | .reset _ _ | .readStop _ _
  | .resetUnsafe | .stopReadStop | .complete _ => false

theorem RaceInv.unsettled (hi : RaceInv s) (hc : s.pc.racing = true) :
    ¬(s.pc.stopping = true ∨ s.pc.completing = true ∨ s.completions ≠ []) := by
  rintro (h | h | h)
  · cases hp : s.pc <;> simp [hp, Pc.racing, Pc.stopping] at hc h
  · cases hp : s.pc <;> simp [hp, Pc.racing, Pc.completing] at hc h
  · simp [(hi.completed h).1, Pc.racing] at hc

/-- The callback goes on, or is over without the flag. -/
theorem RaceInv.goesOn {p : Pc α} (hi : RaceInv s) (hc : s.pc.racing = true)
    (hp : p.racing = true ∨ p = .idle) (c : κ) (n : ℕ) :
    RaceInv { s with pc := p, conditionState := c, readTotal := n } := by
  have hno := hi.unsettled hc
  have hearly : s.pc.early = false ∧ s.pc.won = false := by
    cases hpc : s.pc <;> simp [hpc, Pc.racing, Pc.early, Pc.won] at hc ⊢
  have hopen : p.early = false ∧ p.won = false ∧ p.stopping = false ∧ p.completing = false := by
    rcases hp with hp | rfl
    · cases p <;> simp [Pc.racing, Pc.early, Pc.won, Pc.stopping, Pc.completing] at hp ⊢
    · exact ⟨rfl, rfl, rfl, rfl⟩
  have hnil : s.completions = [] := by
    by_contra hne
    exact hno (Or.inr (Or.inr hne))
  refine ⟨hi.op, ?_, ?_, ?_, ?_, ?_, ?_, ?_, fun hne => (hne hnil).elim, hi.outcome, hi.once, ?_, ?_⟩
  · rintro err rfl
    simp [Pc.early] at hopen
  · simp [hopen]
  · simp [hopen]
  · simp [hopen]
  · intro ht
    rcases hi.taken ht with h | h
    · simp [hearly] at h
    · exact (hno (Or.inr h)).elim
  · rintro (h | h | h)
    · simp [hopen] at h
    · simp [hopen] at h
    · exact (h hnil).elim
  · rintro d rfl
    simp [Pc.completing] at hopen
  · exact fun happ => (hno (hi.applied happ)).elim
  · exact fun _ => hi.receiver (Or.inr hearly.1)

theorem RaceInv.readCallback (hi : RaceInv s) (hc : s.pc = .readCallback nrd addr) :
    RaceInv { s with pc := k.readCallback s nrd addr } := by
  refine hi.goesOn (by rw [hc]; rfl) ?_ s.conditionState s.readTotal
  rcases k.readCallback_cases s nrd addr with ⟨he, -⟩ | he | he
  · exact Or.inr he
  · exact Or.inl (by rw [he]; rfl)
  · exact Or.inl (by rw [he]; rfl)

theorem RaceInv.condition (hi : RaceInv s) (hc : s.pc = .condition nrd addr) :
    RaceInv (k.condition s nrd addr) := by
  obtain ⟨p, c, n, hp, he⟩ := k.condition_cases s nrd addr
  rw [he]
  refine hi.goesOn (by rw [hc]; rfl) ?_ c n
  rcases hp with rfl | ⟨rfl, -⟩
  · exact Or.inl rfl
  · exact Or.inr rfl

theorem RaceInv.notTaken (hi : RaceInv s) (hc : s.pc = .testAndSet nrd addr) :
    RaceInv ({ s with pc := .idle } : State κ α) :=
  hi.goesOn (by rw [hc]; rfl) (Or.inr rfl) s.conditionState s.readTotal

theorem failed_step (hi : RaceInv s) (hok : Started s a) (h : Step k s a s') :
    ∀ err, s'.pc ≠ .startError err := by
  cases h with
  | startFailed err hc he =>
    have hno : isError err = false := hok
    simp [he] at hno
  | readCallback nrd addr hc => exact (hi.readCallback hc).failed
  | condition nrd addr hc => exact (hi.condition hc).failed
  | lost nrd addr hc => exact (hi.notTaken hc).failed
  | requestStop => exact hi.requestStop.failed
  | callback op hr => exact (hi.callback hr).failed
  | _ => simp

theorem early_step (hi : RaceInv s) (hok : Started s a) (h : Step k s a s') :
    s'.pc.early = true →
      s'.op.taker = none ∧ s'.op.token.callback = .absent ∧ s'.op.engaged = false := by
  cases h with
  | startFailed err hc he =>
    have hno : isError err = false := hok
    simp [he] at hno
  | start err hc | emplace hc => exact fun _ => hi.early (by rw [hc]; rfl)
  | readCallback nrd addr hc => exact (hi.readCallback hc).early
  | condition nrd addr hc => exact (hi.condition hc).early
  | lost nrd addr hc => exact (hi.notTaken hc).early
  | requestStop => exact hi.requestStop.early
  | callback op hr => exact (hi.callback hr).early
  | _ => exact Bool.noConfusion

theorem won_step (hi : RaceInv s) (h : Step k s a s') :
    s'.pc.won = true → s'.op.taker = some .completion := by
  cases h with
  | won => exact fun _ => rfl
  | reset nrd addr op hc hr =>
    exact fun _ => (TStopOperation.resetCallback_taker hr).trans (hi.won (by rw [hc]; rfl))
  | readCallback nrd addr hc => exact (hi.readCallback hc).won
  | condition nrd addr hc => exact (hi.condition hc).won
  | lost nrd addr hc => exact (hi.notTaken hc).won
  | requestStop => exact hi.requestStop.won
  | callback op hr => exact (hi.callback hr).won
  | _ => exact Bool.noConfusion

theorem lost_step (hi : RaceInv s) (h : Step k s a s') :
    s'.pc.stopping = true → s'.op.taker = some .stop := by
  cases h with
  | apply hc hq => exact fun _ => (hi.op.of_queued hq).1
  | resetUnsafe op hc hr =>
    exact fun _ => (TStopOperation.resetCallback_taker hr).trans (hi.lost (by rw [hc]; rfl))
  | readCallback nrd addr hc => exact (hi.readCallback hc).lost
  | condition nrd addr hc => exact (hi.condition hc).lost
  | lost nrd addr hc => exact (hi.notTaken hc).lost
  | requestStop => exact hi.requestStop.lost
  | callback op hr => exact (hi.callback hr).lost
  | _ => exact Bool.noConfusion

theorem taken_step (hi : RaceInv s) (h : Step k s a s') : s'.op.taker = some .completion →
    s'.pc.won = true ∨ s'.pc.completing = true ∨ s'.completions ≠ [] := by
  intro ht
  cases h with
  | won | reset => exact Or.inl rfl
  | readStop | stopReadStop => exact Or.inr (Or.inl rfl)
  | startError | complete => exact Or.inr (Or.inr (by simp))
  | resetUnsafe op hc hr =>
    rw [TStopOperation.resetCallback_taker hr, hi.lost (by rw [hc]; rfl)] at ht
    cases ht
  | readCallback nrd addr hc => exact (hi.readCallback hc).taken ht
  | condition nrd addr hc => exact (hi.condition hc).taken ht
  | lost nrd addr hc => exact (hi.notTaken hc).taken ht
  | requestStop => exact hi.requestStop.taken ht
  | callback op hr => exact (hi.callback hr).taken ht
  | startFailed err hc | start err hc | emplace hc | setup hc | setupDone hc | read nrd addr hc
  | apply hc =>
    rcases hi.taken ht with h | h | h
    · simp [hc, Pc.won] at h
    · simp [hc, Pc.completing] at h
    · exact Or.inr (Or.inr h)

/-- The flag is taken by the one that goes on to complete the operation. -/
theorem queued_step (hi : RaceInv s) (h : Step k s a s') :
    s'.pc.stopping = true ∨ s'.pc.completing = true ∨ s'.completions ≠ [] →
      s'.op.taker ≠ none ∧ s'.op.queued = 0 ∧ s'.op.scheduling = false := by
  intro hp
  cases h with
  | startError err hc => exact (hi.failed err hc).elim
  | readStop nrd addr hc =>
    have ht := hi.won (by rw [hc]; rfl)
    exact ⟨by simp [ht], hi.op.of_completion ht⟩
  | resetUnsafe op hc hr =>
    obtain ⟨-, hq, hs⟩ := hi.queued (Or.inl (by rw [hc]; rfl))
    have ht := hi.lost (by rw [hc]; rfl)
    have hspent := (hi.op.spent ht hq hs).resetCallback hr
    exact ⟨by simp [TStopOperation.resetCallback_taker hr, ht], hspent.queued, hspent.quiet⟩
  | stopReadStop hc => exact hi.queued (Or.inl (by rw [hc]; rfl))
  | complete c hc => exact hi.queued (Or.inr (Or.inl (by rw [hc]; rfl)))
  | apply hc hq =>
    obtain ⟨ht, hs, -, hone⟩ := hi.op.of_queued hq
    exact ⟨by simp [ht], by simp [hone], hs⟩
  | readCallback nrd addr hc => exact (hi.readCallback hc).queued hp
  | condition nrd addr hc => exact (hi.condition hc).queued hp
  | lost nrd addr hc => exact (hi.notTaken hc).queued hp
  | requestStop => exact hi.requestStop.queued hp
  | callback op hr => exact (hi.callback hr).queued hp
  | startFailed err hc | start err hc | emplace hc | setup hc | setupDone hc | won nrd addr hc
  | reset nrd addr op hc =>
    simp [hi.uncompleted (by simp [hc]), Pc.stopping, Pc.completing] at hp
  | read nrd addr hc => exact hi.queued (Or.inr (Or.inr (by simpa [Pc.stopping, Pc.completing] using hp)))

theorem complete_step (hi : RaceInv s) (h : Step k s a s') : ∀ c, s'.pc = .complete c →
    s'.reading = false ∧ s'.completions = [] ∧ s'.op.taker = some c.taker := by
  intro c hp
  cases h with
  | readStop nrd addr hc =>
    cases hp
    refine ⟨rfl, hi.uncompleted (by simp [hc]), ?_⟩
    rw [k.outcome_taker]
    exact hi.won (by rw [hc]; rfl)
  | stopReadStop hc =>
    cases hp
    exact ⟨rfl, hi.uncompleted (by simp [hc]), hi.lost (by rw [hc]; rfl)⟩
  | readCallback nrd addr hc => exact (hi.readCallback hc).complete c hp
  | condition nrd addr hc => exact (hi.condition hc).complete c hp
  | lost nrd addr hc => exact (hi.notTaken hc).complete c hp
  | requestStop => exact hi.requestStop.complete c hp
  | callback op hr => exact (hi.callback hr).complete c hp
  | _ => cases hp

theorem completed_step (hi : RaceInv s) (h : Step k s a s') :
    s'.completions ≠ [] → s'.pc = .idle ∧ s'.reading = false := by
  intro hne
  cases h with
  | startError err hc => exact (hi.failed err hc).elim
  | complete c hc => exact ⟨rfl, (hi.complete c hc).1⟩
  | read nrd addr hc hr => simp [(hi.completed hne).2] at hr
  | apply hc hq =>
    have hzero := (hi.queued (Or.inr (Or.inr hne))).2.1
    omega
  | readCallback nrd addr hc => exact (hi.readCallback hc).completed hne
  | condition nrd addr hc => exact (hi.condition hc).completed hne
  | lost nrd addr hc => exact (hi.notTaken hc).completed hne
  | requestStop => exact hi.requestStop.completed hne
  | callback op hr => exact (hi.callback hr).completed hne
  | startFailed err hc | start err hc | emplace hc | setup hc | setupDone hc | won nrd addr hc
  | reset nrd addr op hc | readStop nrd addr hc | resetUnsafe op hc | stopReadStop hc =>
    exact (hne (hi.uncompleted (by simp [hc]))).elim

theorem outcome_step (hi : RaceInv s) (h : Step k s a s') :
    ∀ c ∈ s'.completions, s'.op.taker = some c.taker := by
  intro c hmem
  cases h with
  | startError err hc => exact (hi.failed err hc).elim
  | complete d hc =>
    obtain ⟨-, hnil, ht⟩ := hi.complete d hc
    obtain rfl : c = d := by simpa [hnil] using hmem
    exact ht
  | won nrd addr hc =>
    rw [hi.uncompleted (by simp [hc])] at hmem
    cases hmem
  | reset nrd addr op hc hr | resetUnsafe op hc hr =>
    exact (TStopOperation.resetCallback_taker hr).trans (hi.outcome c hmem)
  | readCallback nrd addr hc => exact (hi.readCallback hc).outcome c hmem
  | condition nrd addr hc => exact (hi.condition hc).outcome c hmem
  | lost nrd addr hc => exact (hi.notTaken hc).outcome c hmem
  | requestStop => exact hi.requestStop.outcome c hmem
  | callback op hr => exact (hi.callback hr).outcome c hmem
  | _ => exact hi.outcome c hmem

theorem once_step (hi : RaceInv s) (h : Step k s a s') : s'.completions.length ≤ 1 := by
  cases h with
  | startError err hc => exact (hi.failed err hc).elim
  | complete c hc => simp [(hi.complete c hc).2.1]
  | readCallback nrd addr hc => exact (hi.readCallback hc).once
  | condition nrd addr hc => exact (hi.condition hc).once
  | lost nrd addr hc => exact (hi.notTaken hc).once
  | requestStop => exact hi.requestStop.once
  | callback op hr => exact (hi.callback hr).once
  | _ => exact hi.once

theorem applied_step (hi : RaceInv s) (h : Step k s a s') :
    0 < s'.applied → s'.pc.stopping = true ∨ s'.pc.completing = true ∨ s'.completions ≠ [] := by
  intro happ
  cases h with
  | apply | resetUnsafe => exact Or.inl rfl
  | readStop | stopReadStop => exact Or.inr (Or.inl rfl)
  | startError | complete => exact Or.inr (Or.inr (by simp))
  | readCallback nrd addr hc => exact (hi.readCallback hc).applied happ
  | condition nrd addr hc => exact (hi.condition hc).applied happ
  | lost nrd addr hc => exact (hi.notTaken hc).applied happ
  | requestStop => exact hi.requestStop.applied happ
  | callback op hr => exact (hi.callback hr).applied happ
  | startFailed err hc | start err hc | emplace hc | setup hc | setupDone hc | won nrd addr hc
  | reset nrd addr op hc | read nrd addr hc =>
    rcases hi.applied happ with h | h | h
    · simp [hc, Pc.stopping] at h
    · simp [hc, Pc.completing] at h
    · exact Or.inr (Or.inr h)

theorem receiver_step (hi : RaceInv s) (h : Step k s a s') :
    s'.pc = .setup ∨ s'.pc.early = false → s'.completions = [] → s'.receiver = .member := by
  intro hp hnil
  cases h with
  | startFailed | start => simp [Pc.early] at hp
  | startError err hc => exact (hi.failed err hc).elim
  | emplace => rfl
  | setup hc => exact hi.receiver (Or.inl hc) hnil
  | complete c hc => simp at hnil
  | readCallback nrd addr hc => exact (hi.readCallback hc).receiver hp hnil
  | condition nrd addr hc => exact (hi.condition hc).receiver hp hnil
  | lost nrd addr hc => exact (hi.notTaken hc).receiver hp hnil
  | requestStop => exact hi.requestStop.receiver hp hnil
  | callback op hr => exact (hi.callback hr).receiver hp hnil
  | setupDone hc | won nrd addr hc | reset nrd addr op hc | readStop nrd addr hc | resetUnsafe op hc
  | stopReadStop hc | read nrd addr hc | apply hc =>
    exact hi.receiver (Or.inr (by rw [hc]; rfl)) hnil

theorem raceInv_step (hi : RaceInv s) (hok : Started s a) (h : Step k s a s') : RaceInv s' where
  op := opInv_step hi h
  failed := failed_step hi hok h
  early := early_step hi hok h
  won := won_step hi h
  lost := lost_step hi h
  taken := taken_step hi h
  queued := queued_step hi h
  complete := complete_step hi h
  completed := completed_step hi h
  outcome := outcome_step hi h
  once := once_step hi h
  applied := applied_step hi h
  receiver := receiver_step hi h

theorem reachable_raceInv {k : OpState κ α} {s : State κ α} (h : (system k).ReachableVia Started s) :
    RaceInv s := by
  refine System.ReachableVia.invariant (K := fun _ => True) (fun _ _ => trivial) ?_ ?_ h
  · rintro _ ⟨c, rfl⟩
    have hop := TStopOperation.Inv.initial
    constructor <;> simp [hop, Pc.early, Pc.won, Pc.stopping, Pc.completing]
  · intro s a s' _ hi hok hs
    exact raceInv_step hi hok (step_cases hs)

/-! ### Callbacks that decide -/

/-- After a decisive callback the flag is taken, or the callback is still on its
way to take it. -/
structure DecidedInv (k : OpState κ α) (s : State κ α) : Prop where
  condition : ∀ nrd addr, s.pc = .condition nrd addr → ∃ size cond, k = .readUntil size cond
  decided : s.decided = true → s.op.taker = none → ∃ nrd addr, k.decisive nrd addr = true ∧
    (s.pc = .readCallback nrd addr ∨ s.pc = .condition nrd addr ∨ s.pc = .testAndSet nrd addr)

theorem condition_step {k : OpState κ α} {s s' : State κ α} {a : Action α} (hi : DecidedInv k s)
    (h : Step k s a s') : ∀ nrd addr, s'.pc = .condition nrd addr → ∃ size cond, k = .readUntil size cond := by
  have hcond := hi.condition
  cases h with
  | readCallback nrd addr hc =>
    intro nrd' addr' hp
    cases k with
    | readUntil size cond => exact ⟨size, cond, rfl⟩
    | readSome | receive | receiveFrom copyAddress =>
      simp only [OpState.readCallback] at hp
      split at hp <;> cases hp
  | condition nrd addr hc => exact fun _ _ _ => hcond nrd addr hc
  | requestStop | callback => exact hcond
  | _ => simp

theorem taker_step {k : OpState κ α} {s s' : State κ α} {a : Action α} (h : Step k s a s')
    (ht : s'.op.taker = none) : s.op.taker = none := by
  cases h with
  | condition nrd addr hc =>
    obtain ⟨p, c, t, -, he⟩ := k.condition_cases s nrd addr
    rwa [he] at ht
  | won nrd addr hc hu => cases ht
  | reset nrd addr op hc hr | resetUnsafe op hc hr =>
    rwa [← TStopOperation.resetCallback_taker hr]
  | callback op hr =>
    rcases TStopOperation.callbackStep_taker hr with he | he
    · rwa [← he]
    · simp [he] at ht
  | _ => exact ht

theorem decided_step {k : OpState κ α} {s s' : State κ α} {a : Action α} (hr : RaceInv s)
    (hi : DecidedInv k s) (h : Step k s a s') : s'.decided = true → s'.op.taker = none →
      ∃ nrd addr, k.decisive nrd addr = true ∧
        (s'.pc = .readCallback nrd addr ∨ s'.pc = .condition nrd addr ∨
          s'.pc = .testAndSet nrd addr) := by
  intro hd ht
  have hold := hi.decided
  have hnone := taker_step h ht
  have hunused : s.op.used ≠ true := fun hu => hr.op.used.mp hu hnone
  cases h with
  | read nrd addr hc hread =>
    refine ⟨nrd, addr, ?_, Or.inl rfl⟩
    by_contra hno
    obtain ⟨n, b, -, hp⟩ := hold (by simpa [hno] using hd) ht
    simp [hc] at hp
  | readCallback nrd addr hc =>
    obtain ⟨n, b, hdec, hp⟩ := hold hd hnone
    obtain ⟨rfl, rfl⟩ : nrd = n ∧ addr = b := by simpa [hc] using hp
    rcases k.readCallback_cases s nrd addr with ⟨-, hu⟩ | he | he
    · exact (hunused (hu hdec)).elim
    · exact ⟨nrd, addr, hdec, Or.inr (Or.inl he)⟩
    · exact ⟨nrd, addr, hdec, Or.inr (Or.inr he)⟩
  | condition nrd addr hc =>
    obtain ⟨p, c, t, hp', he⟩ := k.condition_cases s nrd addr
    rw [he] at hd ⊢
    obtain ⟨n, b, hdec, hp⟩ := hold hd hnone
    obtain ⟨rfl, rfl⟩ : nrd = n ∧ addr = b := by simpa [hc] using hp
    rcases hp' with rfl | ⟨rfl, hno⟩
    · exact ⟨nrd, addr, hdec, Or.inr (Or.inr rfl)⟩
    · simp [hno (hi.condition nrd addr hc)] at hdec
  | requestStop | callback => exact hold hd hnone
  | lost nrd addr hc hu => exact (hunused hu).elim
  | won => cases ht
  | startFailed err hc | start err hc | startError err hc | emplace hc | setup hc | setupDone hc
  | reset nrd addr op hc | readStop nrd addr hc | resetUnsafe op hc | stopReadStop hc | complete c hc
  | apply hc =>
    obtain ⟨n, b, -, hp⟩ := hold hd hnone
    simp [hc] at hp

theorem reachable_decidedInv {k : OpState κ α} {s : State κ α}
    (h : (system k).ReachableVia Started s) : DecidedInv k s := by
  refine System.ReachableVia.invariant (fun _ hr => reachable_raceInv hr) ?_ ?_ h
  · rintro _ ⟨c, rfl⟩
    constructor <;> simp
  · intro s a s' hr hi _ hs
    exact ⟨condition_step hi (step_cases hs), decided_step hr hi (step_cases hs)⟩

/-! ### The outcome -/

/-- The receiver is completed once, with reading off, so that no callback comes
any more; the stop operation is queued once at most and not any more when that
happens, and who took the flag decides whether the operation is stopped. What the loop's
thread has begun it can finish, after the stop callback where it waits for that. -/
structure CompletedOnce (k : OpState κ α) (s : State κ α) : Prop where
  once : s.completions.length ≤ 1
  stopped : (∃ c, s.pc = .complete c) ∨ s.completions ≠ [] → s.reading = false
  silent : s.completions ≠ [] → ∀ nrd addr, step k s (.read nrd addr) = none
  receiver : ∀ c, s.pc = .complete c → s.receiver = .member
  pushes : s.op.pushes ≤ 1
  unqueued : (∃ c, s.pc = .complete c) ∨ s.completions ≠ [] →
    s.op.queued = 0 ∧ s.op.scheduling = false
  signal : ∀ c ∈ s.completions, c = .stopped ↔ s.op.taker = some .stop
  applied : 0 < s.applied → s.pc = .idle → s.completions ≠ []
  decided : s.decided = true → s.op.taker ≠ some .stop → s.pc = .idle → s.completions ≠ []
  progress : s.pc ≠ .start → s.pc ≠ .idle → (loopStep k s).isSome ∨ s.op.callbackStep.isSome

theorem loop_progress (k : OpState κ α) {s : State κ α} (hs : s.pc ≠ .start) (hidle : s.pc ≠ .idle) :
    (loopStep k s).isSome ∨ s.op.callbackStep.isSome := by
  cases hp : s.pc with
  | start => exact (hs hp).elim
  | idle => exact (hidle hp).elim
  | setupDone => simpa [loopStep, hp] using s.op.setupDone_progress
  | reset | resetUnsafe => simpa [loopStep, hp] using s.op.resetCallback_progress
  | _ => simp [loopStep, hp]

theorem completed_of_idle {s : State κ α} (hp : s.pc = .idle)
    (h : s.pc.stopping = true ∨ s.pc.completing = true ∨ s.completions ≠ []) :
    s.completions ≠ [] := by
  rcases h with h | h | h
  · simp [hp, Pc.stopping] at h
  · simp [hp, Pc.completing] at h
  · exact h

/-- Every order of read callbacks, a stop request and the queued stop operation
leads to one completion. -/
theorem read_completed_once {k : OpState κ α} {s : State κ α}
    (h : (system k).ReachableVia Started s) : CompletedOnce k s := by
  have hi := reachable_raceInv h
  have hd := reachable_decidedInv h
  have hstop : (∃ c, s.pc = .complete c) ∨ s.completions ≠ [] → s.reading = false := by
    rintro (⟨c, hc⟩ | hne)
    · exact (hi.complete c hc).1
    · exact (hi.completed hne).2
  refine ⟨hi.once, hstop, ?_, ?_, hi.op.pushes_le, ?_, ?_, ?_, ?_, loop_progress k⟩
  · intro hne nrd addr
    simp [step, (hi.completed hne).1, (hi.completed hne).2]
  · intro c hc
    exact hi.receiver (Or.inr (by simp [hc, Pc.early])) (hi.complete c hc).2.1
  · rintro (⟨c, hc⟩ | hne)
    · exact (hi.queued (Or.inr (Or.inl (by simp [hc, Pc.completing])))).2
    · exact (hi.queued (Or.inr (Or.inr hne))).2
  · intro c hc
    rw [hi.outcome c hc]
    cases c <;> simp [Completion.taker]
  · exact fun hap hp => completed_of_idle hp (hi.applied hap)
  · intro hdec hns hp
    cases ht : s.op.taker with
    | none =>
      obtain ⟨n, b, -, hpc⟩ := hd.decided hdec ht
      simp [hp] at hpc
    | some t =>
      cases t with
      | stop => exact (hns ht).elim
      | completion =>
        rcases hi.taken ht with hw | hsettled
        · simp [hp, Pc.won] at hw
        · exact completed_of_idle hp (Or.inr hsettled)

/-- A stop request on another thread takes the flag while the user's condition
is being called, and the operation is stopped though its condition held. -/
theorem read_completed_once_race :
    ∃ s : State ℕ Unit, (system (.readUntil UInt64.size fun c n => (3 ≤ c + n, c + n))).ReachableVia Started s ∧
      s.completions = [.stopped] ∧ s.readTotal = 4 ∧
      CompletedOnce (.readUntil UInt64.size fun c n => (3 ≤ c + n, c + n)) s := by
  have h0 : (system (.readUntil UInt64.size fun c n => (3 ≤ c + n, c + n))).ReachableVia Started
      ({ conditionState := 0 } : State ℕ Unit) := .initial ⟨0, rfl⟩
  have h1 := h0.step (Action.start 0) rfl rfl
  have h2 := h1.step Action.loop trivial rfl
  have h3 := h2.step Action.loop trivial rfl
  have h4 := h3.step Action.loop trivial rfl
  have h5 := h4.step (Action.read 4 none) trivial rfl
  have h6 := h5.step Action.loop trivial rfl
  have h7 := h6.step Action.requestStop trivial rfl
  have h8 := h7.step Action.callback trivial rfl
  have h9 := h8.step Action.loop trivial rfl
  have h10 := h9.step Action.loop trivial rfl
  have h11 := h10.step Action.callback trivial rfl
  have h12 := h11.step Action.callback trivial rfl
  have h13 := h12.step Action.apply trivial rfl
  have h14 := h13.step Action.loop trivial rfl
  have h15 := h14.step Action.loop trivial rfl
  have h16 := h15.step Action.loop trivial rfl
  exact ⟨_, h16, rfl, rfl, read_completed_once h16⟩

end UvExec.ReadOp
