import UvExec.Algorithms.EventOpState

/-! # One close and one completion for every timer and signal operation

The event and a stop request race for `Used`. Whoever takes it closes the
handle, and `CloseCallback` reads the outcome off the stop callback, which only
the event's side has reset by then. -/

namespace UvExec.EventOp
open Lib

/-- Runs in which the handle is initialised and armed. -/
def Armed (_ : State) : Action → Prop
  | .init err => isError err = false
  | .start _ err => isError err = false
  | _ => True

def Pc.early : Pc → Bool
  | .init | .initError _ | .start | .startError _ | .emplace | .setup => true
  | .setupDone | .idle | .testAndSet | .reset | .close | .stop | .stopClose | .resetUnsafe
  | .complete _ => false

def Pc.inClose : Pc → Bool
  | .resetUnsafe | .complete _ => true
  | .init | .initError _ | .start | .startError _ | .emplace | .setup | .setupDone | .idle
  | .testAndSet | .reset | .close | .stop | .stopClose => false

def HandleState.closes : HandleState → Bool
  | .closing | .closed => true
  | .uninitialized | .inactive | .active => false

def completionOf : Taker → Completion Unit
  | .completion => .value ()
  | .stop => .stopped

/-- Who may have taken the flag, by the point that the loop's thread is at. -/
structure RaceInv (s : State) : Prop where
  op : s.op.Inv
  failed : ∀ err, s.pc ≠ .initError err ∧ s.pc ≠ .startError err
  early : s.pc.early = true →
    s.op.taker = none ∧ s.op.token.callback = .absent ∧ s.op.engaged = false
  won : s.pc = .reset ∨ s.pc = .close → s.op.taker = some .completion
  lost : s.pc = .stop ∨ s.pc = .stopClose → s.op.taker = some .stop
  taken : s.op.taker = some .completion → s.pc = .reset ∨ s.pc = .close ∨ s.closes = 1
  queued : s.pc = .stop ∨ s.pc = .stopClose ∨ s.closes = 1 → s.op.queued = 0 ∧ s.op.scheduling = false
  disengaged : s.pc = .close ∨ s.closes = 1 → s.op.taker = some .completion →
    s.op.engaged = false ∧ s.op.token.callback = .absent
  engaged : s.op.taker = some .stop →
    s.op.engaged = true ∨ s.pc = .setupDone ∨ (∃ c, s.pc = .complete c) ∨ s.completions ≠ []
  registered : s.op.token.callback ≠ .absent → s.op.engaged = true ∨ s.pc = .setupDone
  active : s.handle = .active → s.closes = 0 ∧ s.pc ≠ .testAndSet ∧ s.pc ≠ .reset ∧ s.pc ≠ .close
  closes : s.closes = if s.handle.closes then 1 else 0
  decided : s.closes = 1 → s.op.taker ≠ none
  inClose : s.pc.inClose = true → s.handle = .closed ∧ s.completions = []
  outside : s.pc = .idle ∨ s.pc.inClose = true ∨ s.closes = 0
  completed : s.completions ≠ [] ↔ s.handle = .closed ∧ s.pc = .idle
  outcome : ∀ c, s.pc = .complete c ∨ c ∈ s.completions → s.op.taker.map completionOf = some c
  once : s.completions.length ≤ 1

theorem opInv_step {k : OpState} {s s' : State} {a : Action} (hi : RaceInv s)
    (h : Step k s a s') : s'.op.Inv := by
  have hop := hi.op
  cases h with
  | setup hc => exact hop.setup (hi.early (by simp [hc, Pc.early])).2.1
  | setupDone hc hrun => exact hop.engage
  | won hc hu =>
    have hw := hop.testAndSet
    rwa [TStopOperation.testAndSet, if_neg (by simp [hu])] at hw
  | reset op hc hr | resetStopped op hc he hr => exact hop.resetCallback hr
  | apply hc hq => exact hop.beginApply (by simp [TStopOperation.beginApply, hq])
  | requestStop => exact hop.requestStop
  | callback op hr => exact hop.callbackStep hr
  | _ => exact hop

/-- `CloseCallback` finds the stop callback in place just when it was the stop
callback that took the flag. -/
theorem RaceInv.taker_eq {s : State} (hi : RaceInv s) (hc : s.pc = .resetUnsafe) :
    s.op.taker = some (if s.op.engaged then .stop else .completion) := by
  have hclosed := hi.inClose (by simp [hc, Pc.inClose])
  have hone : s.closes = 1 := by
    rw [hi.closes, hclosed.1]
    rfl
  cases ht : s.op.taker with
  | none => exact (hi.decided hone ht).elim
  | some t =>
    cases t with
    | completion => simp [hi.disengaged (Or.inr hone) ht]
    | stop =>
      rcases hi.engaged ht with he | hp | ⟨c, hp⟩ | hne
      · simp [he]
      · simp [hc] at hp
      · simp [hc] at hp
      · exact (hne hclosed.2).elim

variable {k : OpState} {s s' : State} {a : Action}

/-- The handle is not closed outside of `idle` and of `CloseCallback`. -/
theorem RaceInv.unclosed (hi : RaceInv s) (hidle : s.pc ≠ .idle) (hc : s.pc.inClose = false) :
    s.closes = 0 := by
  rcases hi.outside with h | h | h
  · exact (hidle h).elim
  · simp [hc] at h
  · exact h

theorem RaceInv.uncompleted (hi : RaceInv s) (h : s.handle ≠ .closed ∨ s.pc ≠ .idle) :
    s.completions = [] := by
  by_contra hne
  obtain ⟨hclosed, hidle⟩ := hi.completed.mp hne
  exact h.elim (fun h => h hclosed) (fun h => h hidle)

theorem RaceInv.handle_closes (hi : RaceInv s) (h : s.closes = 0) : s.handle.closes = false := by
  by_contra hne
  simp [hi.closes, hne] at h

theorem RaceInv.foreign {op : TStopOperation} (hi : RaceInv s) (hop : op.Inv)
    (h : s.op.Foreign op) : RaceInv { s with op := op } where
  op := hop
  failed := hi.failed
  early hp := by
    obtain ⟨ht, hcb, he⟩ := hi.early hp
    exact ⟨(h.taker_of_absent hcb).trans ht, h.absent.mpr hcb, h.engaged.trans he⟩
  won hp := h.taker_some (hi.won hp)
  lost hp := h.taker_some (hi.lost hp)
  taken ht := hi.taken (h.completion ht)
  queued hp := by
    obtain ⟨hq, hs⟩ := hi.queued hp
    obtain ⟨t, ht⟩ : ∃ t, s.op.taker = some t := by
      rcases hp with hp | hp | hp
      · exact ⟨_, hi.lost (Or.inl hp)⟩
      · exact ⟨_, hi.lost (Or.inr hp)⟩
      · exact Option.ne_none_iff_exists'.mp (hi.decided hp)
    have hspent := h.spent (hi.op.spent ht hq hs)
    exact ⟨hspent.queued, hspent.quiet⟩
  disengaged hp ht := by
    obtain ⟨he, hcb⟩ := hi.disengaged hp (h.completion ht)
    exact ⟨h.engaged.trans he, h.absent.mpr hcb⟩
  engaged ht := by
    rcases h.taker with heq | ⟨-, -, hne⟩
    · exact (hi.engaged (heq.symm.trans ht)).imp_left h.engaged.trans
    · rcases hi.registered hne with he | hp
      · exact Or.inl (h.engaged.trans he)
      · exact Or.inr (Or.inl hp)
  registered hne := (hi.registered (mt h.absent.mpr hne)).imp_left h.engaged.trans
  active := hi.active
  closes := hi.closes
  decided hc := by
    obtain ⟨t, ht⟩ := Option.ne_none_iff_exists'.mp (hi.decided hc)
    simp [h.taker_some ht]
  inClose := hi.inClose
  outside := hi.outside
  completed := hi.completed
  outcome c hc := by
    obtain ⟨t, ht, hct⟩ := Option.map_eq_some_iff.mp (hi.outcome c hc)
    simp [h.taker_some ht, hct]
  once := hi.once

theorem RaceInv.requestStop (hi : RaceInv s) : RaceInv { s with op := s.op.requestStop } :=
  hi.foreign hi.op.requestStop s.op.requestStop_foreign

theorem RaceInv.callback {op : TStopOperation} (hi : RaceInv s) (h : s.op.callbackStep = some op) :
    RaceInv { s with op := op } :=
  hi.foreign (hi.op.callbackStep h) (hi.op.callbackStep_foreign h)

theorem failed_step (hi : RaceInv s) (hok : Armed s a) (h : Step k s a s') :
    ∀ err, s'.pc ≠ .initError err ∧ s'.pc ≠ .startError err := by
  cases h with
  | initFailed err hc he | startFailed now err hc he =>
    have hno : isError err = false := hok
    simp [he] at hno
  | requestStop => exact hi.requestStop.failed
  | callback op hr => exact (hi.callback hr).failed
  | _ => exact fun _ => ⟨Pc.noConfusion, Pc.noConfusion⟩

theorem early_step (hi : RaceInv s) (hok : Armed s a) (h : Step k s a s') :
    s'.pc.early = true →
      s'.op.taker = none ∧ s'.op.token.callback = .absent ∧ s'.op.engaged = false := by
  cases h with
  | initFailed err hc he | startFailed now err hc he =>
    have hno : isError err = false := hok
    simp [he] at hno
  | init err hc | start now err hc | emplace hc => exact fun _ => hi.early (by rw [hc]; rfl)
  | initError err hc => exact ((hi.failed err).1 hc).elim
  | requestStop => exact hi.requestStop.early
  | callback op hr => exact (hi.callback hr).early
  | _ => exact fun hp => Bool.noConfusion hp

theorem won_step (hi : RaceInv s) (h : Step k s a s') :
    s'.pc = .reset ∨ s'.pc = .close → s'.op.taker = some .completion := by
  cases h with
  | won => exact fun _ => rfl
  | reset op hc hr =>
    exact fun _ => (TStopOperation.resetCallback_taker hr).trans (hi.won (Or.inl hc))
  | requestStop => exact hi.requestStop.won
  | callback op hr => exact (hi.callback hr).won
  | _ => simp

theorem lost_step (hi : RaceInv s) (h : Step k s a s') :
    s'.pc = .stop ∨ s'.pc = .stopClose → s'.op.taker = some .stop := by
  cases h with
  | apply hc hq => exact fun _ => (hi.op.of_queued hq).1
  | stop hc => exact fun _ => hi.lost (Or.inl hc)
  | requestStop => exact hi.requestStop.lost
  | callback op hr => exact (hi.callback hr).lost
  | _ => simp

/-- Elsewhere it is a closed handle that tells of the event's side. -/
theorem RaceInv.closes_of_taken (hi : RaceInv s) (ht : s.op.taker = some .completion)
    (hr : s.pc ≠ .reset) (hc : s.pc ≠ .close) : s.closes = 1 := by
  rcases hi.taken ht with h | h | h
  · exact (hr h).elim
  · exact (hc h).elim
  · exact h

theorem taken_step (hi : RaceInv s) (h : Step k s a s') :
    s'.op.taker = some .completion → s'.pc = .reset ∨ s'.pc = .close ∨ s'.closes = 1 := by
  intro ht
  cases h with
  | won => exact Or.inl rfl
  | reset => exact Or.inr (Or.inl rfl)
  | close hc =>
    have hzero := hi.unclosed (by simp [hc]) (by rw [hc]; rfl)
    exact Or.inr (Or.inr (by simp [hzero]))
  | stopClose hc => simp [hi.lost (Or.inr hc)] at ht
  | resetStopped op hc he hr =>
    rw [TStopOperation.resetCallback_taker hr] at ht
    exact Or.inr (Or.inr (hi.closes_of_taken ht (by simp [hc]) (by simp [hc])))
  | requestStop => exact hi.requestStop.taken ht
  | callback op hr => exact (hi.callback hr).taken ht
  | initFailed err hc | init err hc | startFailed now err hc | start now err hc | initError err hc
  | startError err hc | emplace hc | setup hc | setupDone hc | lost hc | stop hc | resetValue hc
  | complete c hc | fire hc | apply hc | closed hc =>
    exact Or.inr (Or.inr (hi.closes_of_taken ht (by simp [hc]) (by simp [hc])))

theorem queued_step (hi : RaceInv s) (h : Step k s a s') :
    s'.pc = .stop ∨ s'.pc = .stopClose ∨ s'.closes = 1 →
      s'.op.queued = 0 ∧ s'.op.scheduling = false := by
  intro hp
  cases h with
  | close hc => exact hi.op.of_completion (hi.won (Or.inr hc))
  | stop hc => exact hi.queued (Or.inl hc)
  | stopClose hc => exact hi.queued (Or.inr (Or.inl hc))
  | apply hc hq =>
    obtain ⟨-, hs, -, hone⟩ := hi.op.of_queued hq
    exact ⟨by simp [hone], hs⟩
  | setup hc =>
    have hzero := hi.unclosed (by simp [hc]) (by rw [hc]; rfl)
    simp [hzero] at hp
  | reset op hc hr =>
    have hzero := hi.unclosed (by simp [hc]) (by rw [hc]; rfl)
    simp [hzero] at hp
  | resetStopped op hc he hr =>
    obtain ⟨hq, hs⟩ := hi.queued (Or.inr (Or.inr (by simpa using hp)))
    have hspent := (hi.op.spent (hi.taker_eq hc) hq hs).resetCallback hr
    exact ⟨hspent.queued, hspent.quiet⟩
  | requestStop => exact hi.requestStop.queued hp
  | callback op hr => exact (hi.callback hr).queued hp
  | _ => exact hi.queued (Or.inr (Or.inr (by simpa using hp)))

theorem disengaged_step (hi : RaceInv s) (h : Step k s a s') :
    s'.pc = .close ∨ s'.closes = 1 → s'.op.taker = some .completion →
      s'.op.engaged = false ∧ s'.op.token.callback = .absent := by
  intro hp ht
  cases h with
  | reset op hc hr =>
    rcases TStopOperation.resetCallback_cases hr with ⟨he, rfl⟩ | ⟨-, -, rfl⟩
    · refine ⟨he, ?_⟩
      by_contra hne
      rcases hi.registered hne with h | h
      · simp [he] at h
      · simp [hc] at h
    · exact ⟨rfl, rfl⟩
  | close hc => exact hi.disengaged (Or.inl hc) ht
  | stopClose hc => simp [hi.lost (Or.inr hc)] at ht
  | setup hc | setupDone hc | won hc =>
    have hzero := hi.unclosed (by simp [hc]) (by rw [hc]; rfl)
    simp [hzero] at hp
  | resetStopped op hc he hr =>
    rw [TStopOperation.resetCallback_taker hr, hi.taker_eq hc, he] at ht
    simp at ht
  | requestStop => exact hi.requestStop.disengaged hp ht
  | callback op hr => exact (hi.callback hr).disengaged hp ht
  | _ => exact hi.disengaged (Or.inr (by simpa using hp)) ht

theorem engaged_step (hi : RaceInv s) (h : Step k s a s') :
    s'.op.taker = some .stop →
      s'.op.engaged = true ∨ s'.pc = .setupDone ∨ (∃ c, s'.pc = .complete c) ∨ s'.completions ≠ [] := by
  intro ht
  cases h with
  | setup => exact Or.inr (Or.inl rfl)
  | setupDone => exact Or.inl rfl
  | won => cases ht
  | reset op hc hr =>
    rw [TStopOperation.resetCallback_taker hr, hi.won (Or.inl hc)] at ht
    cases ht
  | resetStopped => exact Or.inr (Or.inr (Or.inl ⟨_, rfl⟩))
  | resetValue => exact Or.inr (Or.inr (Or.inl ⟨_, rfl⟩))
  | initError | startError | complete => exact Or.inr (Or.inr (Or.inr (by simp)))
  | requestStop => exact hi.requestStop.engaged ht
  | callback op hr => exact (hi.callback hr).engaged ht
  | initFailed err hc | init err hc | startFailed now err hc | start now err hc | emplace hc
  | lost hc | close hc | stop hc | stopClose hc | fire hc | apply hc | closed hc =>
    rcases hi.engaged ht with h | h | ⟨c, h⟩ | h
    · exact Or.inl h
    · simp [hc] at h
    · simp [hc] at h
    · exact Or.inr (Or.inr (Or.inr h))

theorem registered_step (hi : RaceInv s) (h : Step k s a s') :
    s'.op.token.callback ≠ .absent → s'.op.engaged = true ∨ s'.pc = .setupDone := by
  intro hne
  cases h with
  | setup => exact Or.inr rfl
  | setupDone => exact Or.inl rfl
  | reset op hc hr | resetStopped op hc he hr =>
    rcases TStopOperation.resetCallback_cases hr with ⟨-, rfl⟩ | ⟨-, -, rfl⟩
    · exact (hi.registered hne).imp_right (by simp [hc])
    · exact (hne rfl).elim
  | requestStop => exact hi.requestStop.registered hne
  | callback op hr => exact (hi.callback hr).registered hne
  | initFailed err hc | init err hc | startFailed now err hc | start now err hc | initError err hc
  | startError err hc | emplace hc | lost hc | won hc | close hc | stop hc | stopClose hc
  | resetValue hc | complete c hc | fire hc | apply hc | closed hc =>
    exact (hi.registered hne).imp_right (by simp [hc])

theorem active_step (hi : RaceInv s) (h : Step k s a s') : s'.handle = .active →
    s'.closes = 0 ∧ s'.pc ≠ .testAndSet ∧ s'.pc ≠ .reset ∧ s'.pc ≠ .close := by
  intro ha
  cases h with
  | init | close | stop | stopClose | fire | closed => cases ha
  | start now err hc =>
    exact ⟨hi.unclosed (by simp [hc]) (by rw [hc]; rfl), by simp, by simp, by simp⟩
  | won hc => exact ((hi.active ha).2.1 hc).elim
  | reset op hc => exact ((hi.active ha).2.2.1 hc).elim
  | requestStop => exact hi.requestStop.active ha
  | callback op hr => exact (hi.callback hr).active ha
  | _ => exact ⟨(hi.active ha).1, by simp, by simp, by simp⟩

theorem closes_step (hi : RaceInv s) (h : Step k s a s') :
    s'.closes = if s'.handle.closes then 1 else 0 := by
  cases h with
  | init err hc | start now err hc | stop hc => exact hi.unclosed (by simp [hc]) (by rw [hc]; rfl)
  | close hc | stopClose hc =>
    have hzero := hi.unclosed (by simp [hc]) (by rw [hc]; rfl)
    simp [hzero, HandleState.closes]
  | fire hc ha => exact (hi.active ha).1
  | closed hc hh =>
    have hone := hi.closes
    rwa [hh] at hone
  | _ => exact hi.closes

theorem decided_step (hi : RaceInv s) (h : Step k s a s') : s'.closes = 1 → s'.op.taker ≠ none := by
  intro hone
  cases h with
  | won => simp
  | close hc => simp [hi.won (Or.inr hc)]
  | stopClose hc => simp [hi.lost (Or.inr hc)]
  | reset op hc hr | resetStopped op hc he hr =>
    rw [TStopOperation.resetCallback_taker hr]
    exact hi.decided hone
  | requestStop => exact hi.requestStop.decided hone
  | callback op hr => exact (hi.callback hr).decided hone
  | _ => exact hi.decided hone

theorem inClose_step (hi : RaceInv s) (h : Step k s a s') :
    s'.pc.inClose = true → s'.handle = .closed ∧ s'.completions = [] := by
  intro hp
  cases h with
  | resetStopped op hc | resetValue hc => exact hi.inClose (by rw [hc]; rfl)
  | closed hc hh => exact ⟨rfl, hi.uncompleted (Or.inl (by simp [hh]))⟩
  | requestStop | callback => exact hi.inClose hp
  | _ => cases hp

theorem outside_step (hi : RaceInv s) (h : Step k s a s') :
    s'.pc = .idle ∨ s'.pc.inClose = true ∨ s'.closes = 0 := by
  cases h with
  | startError | setupDone | lost | close | stopClose | complete => exact Or.inl rfl
  | resetStopped | resetValue | closed => exact Or.inr (Or.inl rfl)
  | initFailed err hc | init err hc | startFailed now err hc | start now err hc | initError err hc
  | emplace hc | setup hc | won hc | reset op hc | stop hc =>
    exact Or.inr (Or.inr (hi.unclosed (by simp [hc]) (by rw [hc]; rfl)))
  | fire hc ha => exact Or.inr (Or.inr (hi.active ha).1)
  | apply hc hq =>
    -- a queued operation means that the handle is still open
    refine Or.inr (Or.inr ?_)
    have hcloses := hi.closes
    cases hh : s.handle.closes with
    | false => simpa [hh] using hcloses
    | true =>
      have hzero := (hi.queued (Or.inr (Or.inr (by simpa [hh] using hcloses)))).1
      omega
  | requestStop | callback => exact hi.outside

theorem completed_step (hi : RaceInv s) (h : Step k s a s') :
    s'.completions ≠ [] ↔ s'.handle = .closed ∧ s'.pc = .idle := by
  cases h with
  | complete c hc =>
    exact iff_of_true (by simp) ⟨(hi.inClose (by rw [hc]; rfl)).1, rfl⟩
  | initError err hc => exact ((hi.failed err).1 hc).elim
  | startError err hc => exact ((hi.failed err).2 hc).elim
  | setupDone hc | lost hc =>
    have hopen := hi.handle_closes (hi.unclosed (by simp [hc]) (by rw [hc]; rfl))
    refine iff_of_false (fun hne => hne (hi.uncompleted (Or.inr (by simp [hc])))) (fun h => ?_)
    have hclosed : s.handle = .closed := h.1
    simp [hclosed, HandleState.closes] at hopen
  | close hc | stopClose hc =>
    exact iff_of_false (fun hne => hne (hi.uncompleted (Or.inr (by simp [hc])))) (by simp)
  | fire hc ha => exact iff_of_false (fun hne => hne (hi.uncompleted (Or.inl (by simp [ha])))) (by simp)
  | apply hc hq =>
    refine iff_of_false (fun hne => ?_) (by simp)
    have hone : s.closes = 1 := by
      rw [hi.closes, (hi.completed.mp hne).1]
      rfl
    have hzero := (hi.queued (Or.inr (Or.inr hone))).1
    omega
  | closed hc hh => exact iff_of_false (fun hne => hne (hi.uncompleted (Or.inl (by simp [hh])))) (by simp)
  | requestStop | callback => exact hi.completed
  | initFailed err hc | init err hc | startFailed now err hc | start now err hc | emplace hc | setup hc
  | won hc | reset op hc | stop hc | resetStopped op hc | resetValue hc =>
    exact iff_of_false (fun hne => hne (hi.uncompleted (Or.inr (by simp [hc])))) (by simp)

theorem outcome_step (hi : RaceInv s) (h : Step k s a s') :
    ∀ c, s'.pc = .complete c ∨ c ∈ s'.completions → s'.op.taker.map completionOf = some c := by
  intro c hor
  cases h with
  | initError err hc => exact ((hi.failed err).1 hc).elim
  | startError err hc => exact ((hi.failed err).2 hc).elim
  | won hc => simp [hi.uncompleted (Or.inr (by simp [hc]))] at hor
  | reset op hc hr => simp [hi.uncompleted (Or.inr (by simp [hc]))] at hor
  | resetStopped op hc he hr =>
    have hnil := (hi.inClose (by rw [hc]; rfl)).2
    obtain rfl : .stopped = c := by simpa [hnil] using hor
    simp [TStopOperation.resetCallback_taker hr, hi.taker_eq hc, he, completionOf]
  | resetValue hc he =>
    have hnil := (hi.inClose (by rw [hc]; rfl)).2
    obtain rfl : .value () = c := by simpa [hnil] using hor
    simp [hi.taker_eq hc, he, completionOf]
  | complete d hc =>
    have hnil := (hi.inClose (by rw [hc]; rfl)).2
    obtain rfl : c = d := by simpa [hnil] using hor
    exact hi.outcome c (Or.inl hc)
  | requestStop => exact hi.requestStop.outcome c hor
  | callback op hr => exact (hi.callback hr).outcome c hor
  | _ => exact hi.outcome c (Or.inr (by simpa using hor))

theorem once_step (hi : RaceInv s) (h : Step k s a s') : s'.completions.length ≤ 1 := by
  cases h with
  | initError err hc => exact ((hi.failed err).1 hc).elim
  | startError err hc => exact ((hi.failed err).2 hc).elim
  | complete c hc => simp [(hi.inClose (by rw [hc]; rfl)).2]
  | _ => exact hi.once

theorem raceInv_step (hi : RaceInv s) (hok : Armed s a) (h : Step k s a s') : RaceInv s' where
  op := opInv_step hi h
  failed := failed_step hi hok h
  early := early_step hi hok h
  won := won_step hi h
  lost := lost_step hi h
  taken := taken_step hi h
  queued := queued_step hi h
  disengaged := disengaged_step hi h
  engaged := engaged_step hi h
  registered := registered_step hi h
  active := active_step hi h
  closes := closes_step hi h
  decided := decided_step hi h
  inClose := inClose_step hi h
  outside := outside_step hi h
  completed := completed_step hi h
  outcome := outcome_step hi h
  once := once_step hi h

theorem reachable_raceInv {k : OpState} {s : State} (h : (system k).ReachableVia Armed s) :
    RaceInv s := by
  refine System.ReachableVia.invariant (K := fun _ => True) (fun _ _ => trivial) ?_ ?_ h
  · rintro _ rfl
    have hop := TStopOperation.Inv.initial
    constructor <;> simp [initial, hop, Pc.early, Pc.inClose, HandleState.closes]
  · intro s a s' _ hi hok hs
    exact raceInv_step hi hok (step_cases hs)

/-! ### The receiver that is completed -/

def Pc.unarmed : Pc → Bool
  | .init | .initError _ | .start | .startError _ | .emplace => true
  | .setup | .setupDone | .idle | .testAndSet | .reset | .close | .stop | .stopClose | .resetUnsafe
  | .complete _ => false

structure ReceiverInv (k : OpState) (s : State) : Prop where
  unarmed : s.pc.unarmed = true → s.receiver = (initial k).receiver
  armed : s.pc.unarmed = false → s.completions = [] → s.receiver = .member

theorem receiverInv_step {k : OpState} {s s' : State} {a : Action} (hr : RaceInv s)
    (hi : ReceiverInv k s) (h : Step k s a s') : ReceiverInv k s' := by
  cases h with
  | initFailed err hc | init err hc | startFailed now err hc | start now err hc =>
    exact ⟨fun _ => hi.unarmed (by rw [hc]; rfl), Bool.noConfusion⟩
  | initError err hc => exact ((hr.failed err).1 hc).elim
  | startError err hc => exact ((hr.failed err).2 hc).elim
  | emplace hc =>
    refine ⟨Bool.noConfusion, fun _ _ => ?_⟩
    have hinit := hi.unarmed (by rw [hc]; rfl)
    cases hk : k.receiverOptional with
    | true => rfl
    | false => simpa [initial, hk] using hinit
  | complete c hc => exact ⟨Bool.noConfusion, by simp⟩
  | requestStop | callback => exact ⟨hi.unarmed, hi.armed⟩
  | setup hc | setupDone hc | lost hc | won hc | reset op hc | close hc | stop hc | stopClose hc
  | resetStopped op hc | resetValue hc | fire hc | apply hc | closed hc =>
    exact ⟨Bool.noConfusion, fun _ => hi.armed (by rw [hc]; rfl)⟩

theorem reachable_receiverInv {k : OpState} {s : State} (h : (system k).ReachableVia Armed s) :
    ReceiverInv k s := by
  refine System.ReachableVia.invariant (fun _ hr => reachable_raceInv hr) ?_ ?_ h
  · rintro _ rfl
    constructor <;> simp [initial, Pc.unarmed]
  · intro s a s' hr hi _ hs
    exact receiverInv_step hr hi (step_cases hs)

/-! ### The outcome -/

/-- The handle is closed once, and the receiver is completed once, from
`CloseCallback` and according to who took the flag; the stop operation is queued
once at most, and not any more when that happens. What the loop's thread has
begun it can finish, after the stop callback where it waits for that. -/
structure CompletedOnce (k : OpState) (s : State) : Prop where
  closes : s.closes ≤ 1
  once : s.completions.length ≤ 1
  fromClose : ∀ a s', Armed s a → step k s a = some s' → s'.completions ≠ s.completions →
    s.handle = .closed ∧ ∃ c, s.pc = .complete c
  receiver : ∀ c, s.pc = .complete c → s.receiver = .member
  pushes : s.op.pushes ≤ 1
  unqueued : (∃ c, s.pc = .complete c) ∨ s.completions ≠ [] →
    s.op.queued = 0 ∧ s.op.scheduling = false
  signal : ∀ c ∈ s.completions, (c = .stopped ↔ s.op.taker = some .stop) ∧
    (c = .value () ↔ s.op.taker ≠ some .stop)
  completed : s.fired = true ∨ 0 < s.applied → s.handle = .closed → s.pc = .idle →
    s.completions ≠ []
  progress : s.pc ≠ .init → s.pc ≠ .start → s.pc ≠ .idle →
    (loopStep k s).isSome ∨ s.op.callbackStep.isSome

theorem loop_progress (k : OpState) {s : State} (hi : s.pc ≠ .init) (hs : s.pc ≠ .start)
    (hidle : s.pc ≠ .idle) : (loopStep k s).isSome ∨ s.op.callbackStep.isSome := by
  cases hp : s.pc with
  | init => exact (hi hp).elim
  | start => exact (hs hp).elim
  | idle => exact (hidle hp).elim
  | setupDone => simpa [loopStep, hp] using s.op.setupDone_progress
  | reset => simpa [loopStep, hp] using s.op.resetCallback_progress
  | resetUnsafe =>
    cases he : s.op.engaged with
    | true => simpa [loopStep, hp, he] using s.op.resetCallback_progress
    | false => simp [loopStep, hp, he]
  | _ => simp [loopStep, hp]

theorem completions_step {k : OpState} {s s' : State} {a : Action} (hi : RaceInv s)
    (h : Step k s a s') (hne : s'.completions ≠ s.completions) :
    s.handle = .closed ∧ ∃ c, s.pc = .complete c := by
  cases h with
  | initError err hc => exact ((hi.failed err).1 hc).elim
  | startError err hc => exact ((hi.failed err).2 hc).elim
  | complete c hc => exact ⟨(hi.inClose (by simp [hc, Pc.inClose])).1, c, hc⟩
  | _ => exact (hne rfl).elim

theorem RaceInv.signal {s : State} (hi : RaceInv s) {c : Completion Unit} (hc : c ∈ s.completions) :
    (c = .stopped ↔ s.op.taker = some .stop) ∧ (c = .value () ↔ s.op.taker ≠ some .stop) := by
  obtain ⟨t, ht, rfl⟩ := Option.map_eq_some_iff.mp (hi.outcome c (Or.inr hc))
  cases t <;> simp [ht, completionOf]

/-- Every order of the event, a stop request, the queued stop operation and the
close callback leads to one close and one completion. -/
theorem event_completed_once {k : OpState} {s : State} (h : (system k).ReachableVia Armed s) :
    CompletedOnce k s := by
  have hi := reachable_raceInv h
  have hone : (∃ c, s.pc = .complete c) ∨ s.completions ≠ [] → s.closes = 1 := by
    intro hor
    have hclosed : s.handle = .closed := by
      rcases hor with ⟨c, hc⟩ | hne
      · exact (hi.inClose (by simp [hc, Pc.inClose])).1
      · exact (hi.completed.mp hne).1
    rw [hi.closes, hclosed]
    rfl
  refine ⟨?_, hi.once, ?_, ?_, hi.op.pushes_le, ?_, fun c hc => hi.signal hc, ?_, loop_progress k⟩
  · rw [hi.closes]
    split <;> omega
  · intro a s' _ hs hne
    exact completions_step hi (step_cases hs) hne
  · intro c hc
    exact (reachable_receiverInv h).armed (by simp [hc, Pc.unarmed])
      (hi.inClose (by simp [hc, Pc.inClose])).2
  · exact fun hor => hi.queued (Or.inr (Or.inr (hone hor)))
  · exact fun _ hclosed hidle => hi.completed.mpr ⟨hclosed, hidle⟩

/-- A stop request that arrives while the constructor of the stop callback has
returned but `Setup` has not wins against the timer, which fires before the stop
operation is applied. -/
theorem event_completed_once_race : ∃ s, (system (afterOpState .at 7)).ReachableVia Armed s ∧
    s.fired = true ∧ s.completions = [.stopped] ∧ CompletedOnce (afterOpState .at 7) s := by
  have h0 : (system (afterOpState .at 7)).ReachableVia Armed (initial (afterOpState .at 7)) :=
    .initial rfl
  have h1 := h0.step (Action.init 0) rfl rfl
  have h2 := h1.step (Action.start 5 0) rfl rfl
  have h3 := h2.step Action.loop trivial rfl
  have h4 := h3.step Action.loop trivial rfl
  have h5 := h4.step Action.requestStop trivial rfl
  have h6 := h5.step Action.loop trivial rfl
  have h7 := h6.step Action.callback trivial rfl
  have h8 := h7.step Action.fire trivial rfl
  have h9 := h8.step Action.loop trivial rfl
  have h10 := h9.step Action.callback trivial rfl
  have h11 := h10.step Action.apply trivial rfl
  have h12 := h11.step Action.loop trivial rfl
  have h13 := h12.step Action.loop trivial rfl
  have h14 := h13.step Action.closed trivial rfl
  have h15 := h14.step Action.callback trivial rfl
  have h16 := h15.step Action.loop trivial rfl
  have h17 := h16.step Action.loop trivial rfl
  exact ⟨_, h17, rfl, rfl, event_completed_once h17⟩

end UvExec.EventOp
