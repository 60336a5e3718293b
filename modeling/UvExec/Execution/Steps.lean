import UvExec.Execution.Loop

/-! # Inversion of the loop's step function

One case for each statement that one step can execute, with its guards and the
state after it. Every invariant below is a case analysis on `Step`. -/

namespace UvExec.Loop
variable {C : Type} [DecidableEq C]

inductive Step (s : State C) : Action C → State C → Prop
  | callSteal (c : C) : s.pc c = .idle → Step s (.call c .syncWait)
      ({ s with call := Function.update s.call c .syncWait }.setPc c .steal |>.setWake c .pending)
  | callLock (c : C) (k : Call) : s.pc c = .idle → k ≠ .syncWait → Step s (.call c k)
      ({ s with call := Function.update s.call c k }.setPc c .lock)
  | stealReturn (c : C) : s.pc c = .steal → (s.runner c).finished = true → Step s (.thread c)
      (s.setPc c (.returned (unwrapSyncWaitReceiverState (s.destination c))))
  | stealLock (c : C) : s.pc c = .steal → (s.runner c).finished = false → Step s (.thread c)
      (s.setPc c .lock)
  | lock (c : C) : s.pc c = .lock → s.runMtx = none → Step s (.thread c)
      ({ s with runMtx := some c }.setPc c .running)
  | runningAdd (c : C) : s.pc c = .running → s.running = true → Step s (.thread c)
      ({ s with woken := Function.update s.woken c false }.setPc c .add)
  | runningAcquire (c : C) : s.pc c = .running → s.running = false → s.call c = .syncWait →
      Step s (.thread c) ({ s with woken := Function.update s.woken c false }.setPc c .acquire)
  | runningRun (c : C) : s.pc c = .running → s.running = false → s.call c ≠ .syncWait →
      Step s (.thread c) ({ s with woken := Function.update s.woken c false }.setPc c .runLocked)
  | acquired (c : C) : s.pc c = .acquire → (s.runner c).acquireIfNotFinished.2 = true →
      Step s (.thread c) (s.setRunner c (s.runner c).acquireIfNotFinished.1 |>.setPc c .runLocked)
  | notAcquired (c : C) : s.pc c = .acquire → (s.runner c).acquireIfNotFinished.2 = false →
      Step s (.thread c)
        (s.setRunner c (s.runner c).acquireIfNotFinished.1 |>.setPc c (.wakeupNext .empty))
  | runLocked (c : C) : s.pc c = .runLocked → Step s (.thread c)
      ({ s with running := true, runMtx := none }.setPc c (.uv .test))
  | uvTest (c : C) : s.pc c = .uv .test → Step s (.thread c)
      (s.setPc c (.uv (if s.stopFlag then .exit else .callbacks)))
  | uvCallbacks (c : C) : s.pc c = .uv .callbacks → Step s (.thread c)
      (s.setPc c (.uv (.poll ((s.call c).mode ≠ .nowait && !s.stopFlag))))
  | uvSignal (c : C) (b : Bool) : s.pc c = .uv (.poll b) → s.asyncSignal = true → Step s (.thread c)
      ({ s with asyncSignal := false }.setPc c (.uv .events))
  | uvPoll (c : C) : s.pc c = .uv (.poll false) → s.asyncSignal = false → Step s (.thread c)
      (s.setPc c (.uv .events))
  | uvEvent (c : C) : s.pc c = .uv (.poll true) → Step s (.event c) (s.setPc c (.uv .events))
  | uvEvents (c : C) : s.pc c = .uv .events → Step s (.thread c)
      (s.setPc c (.uv (if (s.call c).mode = .default then .test else .exit)))
  | uvExit (c : C) : s.pc c = .uv .exit → Step s (.thread c)
      ({ s with stopFlag := false, userStop := false }.setPc c .relockRun)
  | relockRun (c : C) : s.pc c = .relockRun → s.runMtx = none → Step s (.thread c)
      ({ s with runMtx := some c, running := false }.setPc c (.wakeupNext .empty))
  | nextEmpty (c : C) : s.pc c = .wakeupNext .empty → s.runners = [] → Step s (.thread c)
      (s.setPc c .unlock)
  | nextPop (c n : C) (rest : List C) : s.pc c = .wakeupNext .empty → s.runners = n :: rest →
      Step s (.thread c) ({ s with runners := rest }.setPc c (.wakeupNext (.finished n)))
  | nextSkip (c n : C) : s.pc c = .wakeupNext (.finished n) → (s.runner n).finished = true →
      Step s (.thread c) (s.setPc c (.wakeupNext .empty))
  | nextTake (c n : C) : s.pc c = .wakeupNext (.finished n) → (s.runner n).finished = false →
      Step s (.thread c) (s.setPc c (.wakeupNext (.fetchAdd n)))
  | nextFetchAdd (c n : C) : s.pc c = .wakeupNext (.fetchAdd n) → Step s (.thread c)
      ({ s with woken := Function.update s.woken n true }.setRunner n (s.runner n).wakeup
        |>.setPc c (.wakeupNext (.notify n)))
  | nextNotify (c n : C) : s.pc c = .wakeupNext (.notify n) → Step s (.thread c)
      ((s.notify n).setPc c .unlock)
  | unlock (c : C) : s.pc c = .unlock → Step s (.thread c)
      ({ s with runMtx := none }.setPc c (afterRun s c))
  | add (c : C) : s.pc c = .add → Step s (.thread c)
      ({ s with runners := s.runners.add c }.setPc c .unlockWait)
  | unlockWait (c : C) : s.pc c = .unlockWait → Step s (.thread c)
      ({ s with runMtx := none }.setPc c (.wait .load))
  | waitLoad (c : C) : s.pc c = .wait .load → Step s (.thread c)
      (s.setPc c (.wait (.test (s.runner c).awakenings)))
  | waitAgain (c : C) (w : UInt64) : s.pc c = .wait (.test w) → w ≠ 0 → (s.runner c).awakenings = w →
      Step s (.thread c) (s.setPc c (.wait (.wait w)))
  | waitLeave (c : C) (w : UInt64) : s.pc c = .wait (.test w) →
      ¬ (w ≠ 0 ∧ (s.runner c).awakenings = w) → Step s (.thread c) (s.setPc c .relock)
  | waitBlock (c : C) (w : UInt64) : s.pc c = .wait (.wait w) → (s.runner c).awakenings = w →
      Step s (.thread c) (s.setPc c (.wait (.blocked w)))
  | waitReturn (c : C) (w : UInt64) : s.pc c = .wait (.wait w) → (s.runner c).awakenings ≠ w →
      Step s (.thread c) (s.setPc c (.wait (.test w)))
  | relock (c : C) : s.pc c = .relock → s.runMtx = none → Step s (.thread c)
      ({ s with runMtx := some c }.setPc c .erase)
  | erase (c : C) : s.pc c = .erase → Step s (.thread c)
      ({ s with runners := s.runners.erase c }.setPc c .unlockLoop)
  | unlockLoop (c : C) : s.pc c = .unlockLoop → Step s (.thread c)
      ({ s with runMtx := none }.setPc c (afterWait s c))
  | spurious (c : C) (w : UInt64) : s.pc c = .wait (.blocked w) → Step s (.spurious c)
      (s.setPc c (.wait (.wait w)))
  | complete (c : C) (sig : Signal) : s.wake c = .pending → Step s (.complete c sig)
      ({ s with destination := Function.update s.destination c (emplaceResult sig) }.setWake c
        (.acquired (wakeups sig - 1)))
  | wakeAcquired (c : C) (k : ℕ) : s.wake c = .acquired k → Step s (.wake c)
      (s.setWake c (if (s.runner c).acquired then .finishLoop k else .store k))
  | wakeFinishLoop (c : C) (k : ℕ) : s.wake c = .finishLoop k → Step s (.wake c)
      ((Loop.finish s).setWake c (.store k))
  | wakeStore (c : C) (k : ℕ) : s.wake c = .store k → Step s (.wake c)
      ({ s with finishCalled := Function.update s.finishCalled c true }.setRunner c
        (s.runner c).finish |>.setWake c (.notify k))
  | wakeDone (c : C) : s.wake c = .notify 0 → Step s (.wake c) ((s.notify c).setWake c .done)
  | wakeAgain (c : C) (k : ℕ) : s.wake c = .notify (k + 1) → Step s (.wake c)
      ((s.notify c).setWake c (.acquired k))
  | finish : Step s .finish { Loop.finish s with userStop := true }
  | fire : Step s .fire { s with asyncSignal := true }

theorem uvStep_cases {s s' : State C} {c : C} {p : UvPc} (hp : s.pc c = .uv p)
    (h : uvStep s c p = some s') : Step s (.thread c) s' := by
  cases p with
  | test => cases h; exact .uvTest c hp
  | callbacks => cases h; exact .uvCallbacks c hp
  | poll b =>
    simp only [uvStep] at h
    split at h
    · cases h; exact .uvSignal c b hp ‹_›
    · cases b with
      | true => cases h
      | false => cases h; exact .uvPoll c hp (Bool.eq_false_iff.mpr ‹_›)
  | events => cases h; exact .uvEvents c hp
  | exit => cases h; exact .uvExit c hp

theorem wakeupNextStep_cases {s : State C} {c : C} {p : NextPc C} (hp : s.pc c = .wakeupNext p) :
    Step s (.thread c) (wakeupNextStep s c p) := by
  cases p with
  | empty =>
    simp only [wakeupNextStep]
    split
    · exact .nextEmpty c hp ‹_›
    · exact .nextPop c _ _ hp ‹_›
  | finished n =>
    simp only [wakeupNextStep]
    split
    · exact .nextSkip c n hp ‹_›
    · exact .nextTake c n hp (Bool.eq_false_iff.mpr ‹_›)
  | fetchAdd n => exact .nextFetchAdd c n hp
  | notify n => exact .nextNotify c n hp

theorem waitStep_cases {s s' : State C} {c : C} {p : WaitPc} (hp : s.pc c = .wait p)
    (h : waitStep s c p = some s') : Step s (.thread c) s' := by
  cases p with
  | load => cases h; exact .waitLoad c hp
  | test w =>
    cases h
    split
    next hw => exact .waitAgain c w hp hw.1 hw.2
    next hw => exact .waitLeave c w hp hw
  | wait w =>
    cases h
    split
    next hw => exact .waitBlock c w hp hw
    next hw => exact .waitReturn c w hp hw
  | blocked w => cases h

omit [DecidableEq C] in
theorem acquireMtx_some {s t : State C} {c : C} (h : acquireMtx s c = some t) :
    s.runMtx = none ∧ t = { s with runMtx := some c } := by
  simp only [acquireMtx] at h
  split at h
  · exact ⟨‹_›, (Option.some.inj h).symm⟩
  · cases h

theorem threadStep_cases {s s' : State C} {c : C} (h : threadStep s c = some s') :
    Step s (.thread c) s' := by
  simp only [threadStep] at h
  cases hp : s.pc c with
  | idle => simp [hp] at h
  | returned o => simp [hp] at h
  | steal =>
    simp only [hp, Option.some.injEq] at h
    subst h
    split
    · exact .stealReturn c hp ‹_›
    · exact .stealLock c hp (Bool.eq_false_iff.mpr ‹_›)
  | lock =>
    simp only [hp, Option.map_eq_some_iff] at h
    obtain ⟨t, ht, rfl⟩ := h
    obtain ⟨hm, rfl⟩ := acquireMtx_some ht
    exact .lock c hp hm
  | running =>
    simp only [hp, Option.some.injEq] at h
    subst h
    split
    · exact .runningAdd c hp ‹_›
    · split
      · exact .runningAcquire c hp (Bool.eq_false_iff.mpr ‹_›) ‹_›
      · exact .runningRun c hp (Bool.eq_false_iff.mpr ‹_›) ‹_›
  | acquire =>
    simp only [hp, Option.some.injEq] at h
    subst h
    split
    · exact .acquired c hp ‹_›
    · exact .notAcquired c hp (Bool.eq_false_iff.mpr ‹_›)
  | runLocked => simp only [hp, Option.some.injEq] at h; subst h; exact .runLocked c hp
  | uv p => exact uvStep_cases hp (by simpa only [hp] using h)
  | relockRun =>
    simp only [hp, Option.map_eq_some_iff] at h
    obtain ⟨t, ht, rfl⟩ := h
    obtain ⟨hm, rfl⟩ := acquireMtx_some ht
    exact .relockRun c hp hm
  | wakeupNext p => simp only [hp, Option.some.injEq] at h; subst h; exact wakeupNextStep_cases hp
  | unlock => simp only [hp, Option.some.injEq] at h; subst h; exact .unlock c hp
  | add => simp only [hp, Option.some.injEq] at h; subst h; exact .add c hp
  | unlockWait => simp only [hp, Option.some.injEq] at h; subst h; exact .unlockWait c hp
  | wait p => exact waitStep_cases hp (by simpa only [hp] using h)
  | relock =>
    simp only [hp, Option.map_eq_some_iff] at h
    obtain ⟨t, ht, rfl⟩ := h
    obtain ⟨hm, rfl⟩ := acquireMtx_some ht
    exact .relock c hp hm
  | erase => simp only [hp, Option.some.injEq] at h; subst h; exact .erase c hp
  | unlockLoop => simp only [hp, Option.some.injEq] at h; subst h; exact .unlockLoop c hp

theorem wakeStep_cases {s s' : State C} {c : C} (h : wakeStep s c = some s') :
    Step s (.wake c) s' := by
  simp only [wakeStep] at h
  split at h
  · cases h
  · cases h
  · cases h
  · cases h; exact .wakeAcquired c _ ‹_›
  · cases h; exact .wakeFinishLoop c _ ‹_›
  · cases h; exact .wakeStore c _ ‹_›
  · cases h; exact .wakeDone c ‹_›
  · cases h; exact .wakeAgain c _ ‹_›

theorem step_cases {s s' : State C} {a : Action C} (h : step s a = some s') : Step s a s' := by
  cases a with
  | call c k =>
    simp only [step] at h
    split at h
    · split at h
      · subst k; cases h; exact .callSteal c ‹_›
      · cases h; exact .callLock c k ‹_› ‹_›
    · cases h
  | thread c => exact threadStep_cases h
  | event c =>
    simp only [step] at h
    split at h
    · cases h; exact .uvEvent c ‹_›
    · cases h
  | spurious c =>
    simp only [step] at h
    split at h
    · cases h; exact .spurious c _ ‹_›
    · cases h
  | complete c sig =>
    simp only [step] at h
    split at h
    · cases h; exact .complete c sig ‹_›
    · cases h
  | wake c => exact wakeStep_cases h
  | finish => cases h; exact .finish
  | fire => cases h; exact .fire

end UvExec.Loop
