import UvExec.Execution.Waiters

/-! # Completion of a `sync_wait`

`Awakenings` is the count of wakeups and, at zero, the mark of a finished
runner. `WakeupNext` tests and increments it in two steps, and `Acq` is never
cleared, so each result below names the steps that must not occur. -/

namespace UvExec.Loop
open Lib
variable {C : Type} [DecidableEq C]

/-! ### `Finished` and `Finish` -/

/-- `Finished` tells whether `Finish` has been called, no call unwraps an empty
result, and none goes to run the loop once its sender has completed. -/
structure FinishedExact (s : State C) : Prop where
  finished : ∀ c, s.call c = .syncWait →
    ((s.runner c).finished = true ↔ s.finishCalled c = true)
  unwrap : ∀ c, s.pc c ≠ .returned .badVariantAccess
  run : ∀ c, s.pc c = .runLocked → (s.wake c).completed = false

/-- The `fetch_add` of `WakeupNext` neither lands after a `Finish` nor wraps.
`AcquireIfNotFinished` comes neither between the completion of the sender and
`Finish` nor, with a stale `Acq`, after that, and the sender does not complete
between a successful `AcquireIfNotFinished` and the run of the loop. -/
def FinishUndisturbed (s : State C) : Action C → Prop
  | .thread c =>
    match s.pc c with
    | .wakeupNext (.fetchAdd n) => s.call n = .syncWait →
        s.finishCalled n = false ∧ (s.runner n).awakenings.toNat + 1 ≠ UInt64.size
    | .acquire => (s.wake c).completed = true →
        s.finishCalled c = true ∧ (s.runner c).acq = false
    | _ => True
  | .complete c _ => s.pc c ≠ .runLocked
  | _ => True

instance (s : State C) (a : Action C) : Decidable (FinishUndisturbed s a) := by
  unfold FinishUndisturbed
  split
  · split <;> infer_instance
  · infer_instance
  · infer_instance

theorem finished_step {s s' : State C} {a : Action C} (hsync : SyncInv s)
    (hi : FinishedExact s) (hok : FinishUndisturbed s a) (h : Step s a s') : ∀ c,
    s'.call c = .syncWait → ((s'.runner c).finished = true ↔ s'.finishCalled c = true) := by
  have hf := hi.finished
  simp only [TRunner.finished_iff] at hf ⊢
  intro d hd
  cases h with
  | callSteal c hp | callLock c k hp =>
    by_cases hdc : d = c
    · subst hdc
      obtain ⟨-, hfin, hrunner, -⟩ := hsync.fresh d hp
      simp [hfin, hrunner]
    · exact hf d (by simpa [hdc] using hd)
  | nextFetchAdd c n hp =>
    by_cases hdn : d = n
    · subst hdn
      simp only [FinishUndisturbed, hp] at hok
      obtain ⟨hno, hmax⟩ := hok hd
      have hz : (s.runner d).wakeup.awakenings ≠ 0 :=
        fun hz => hmax ((TRunner.wakeup_eq_zero _).mp hz)
      simp [hz, hno]
    · simpa [hdn] using hf d hd
  | acquired c hp | notAcquired c hp =>
    by_cases hdc : d = c
    · subst hdc
      simpa using hf d hd
    · simpa [hdc] using hf d hd
  | wakeStore c k hk =>
    by_cases hdc : d = c
    · simp [hdc]
    · simpa [hdc] using hf d hd
  | _ => exact hf d hd

theorem unwrap_step {s s' : State C} {a : Action C} (hsync : SyncInv s) (hi : FinishedExact s)
    (h : Step s a s') : ∀ c, s'.pc c ≠ .returned .badVariantAccess := by
  intro d hd
  refine hi.unwrap d ?_
  cases h with
  | stealReturn c hp hfin =>
    by_cases hdc : d = c
    · subst hdc
      -- a finished runner's wakeup has written the result before
      have hcall := hsync.steal d (Or.inl hp)
      have hdone := hsync.completed d ((hi.finished d hcall).mp hfin)
      simp only [Function.update_self, Pc.returned.injEq, unwrap_ne_bad] at hd
      exact (hsync.written d hdone hd).elim
    · simpa [hdc] using hd
  | nextNotify => exact eq_of_notify (eq_of_move hd (by simp)) (by simp)
  | wakeDone | wakeAgain => exact eq_of_notify hd (by simp)
  | complete | wakeAcquired | wakeFinishLoop | wakeStore | finish | fire => exact hd
  | _ => exact eq_of_move hd (by simp)

/-- No thread goes to run the loop for a sender that has completed. -/
theorem run_step {s s' : State C} {a : Action C} (hsync : SyncInv s) (hi : FinishedExact s)
    (hok : FinishUndisturbed s a) (h : Step s a s') : ∀ c, s'.pc c = .runLocked →
      (s'.wake c).completed = false := by
  intro d hd
  have hstep := h
  cases h with
  | callSteal c hp =>
    have hdc := ne_of_move hd (by simp)
    simpa [hdc] using hi.run d (eq_of_move hd (by simp))
  | runningRun c hp hrun hcall =>
    by_cases hdc : d = c
    · simp [hdc, hsync.idle c hcall, WakePc.completed]
    · exact hi.run d (by simpa [hdc] using hd)
  | acquired c hp hacq =>
    by_cases hdc : d = c
    · subst hdc
      by_contra hcomp
      simp only [Bool.not_eq_false] at hcomp
      simp only [FinishUndisturbed, hp] at hok
      obtain ⟨hfin, hstale⟩ := hok hcomp
      -- the counter of a finished runner is at zero, so that only `Acq` can admit it
      have hz := (hi.finished d (hsync.steal d (Or.inr hp))).mpr hfin
      rw [TRunner.finished_iff] at hz
      rw [TRunner.acquireIfNotFinished_snd] at hacq
      simp [hz, hstale] at hacq
    · exact hi.run d (by simpa [hdc] using hd)
  | complete c sig hk =>
    have hdc : d ≠ c := by
      rintro rfl
      exact hok hd
    simpa [hdc] using hi.run d hd
  | wakeAcquired | wakeFinishLoop | wakeStore =>
    exact (completed_wake hstep d).trans (hi.run d hd)
  | wakeDone | wakeAgain =>
    exact (completed_wake hstep d).trans (hi.run d (eq_of_notify hd (by simp)))
  | nextNotify => exact hi.run d (eq_of_notify (eq_of_move hd (by simp)) (by simp))
  | finish | fire => exact hi.run d hd
  | _ => exact hi.run d (eq_of_move hd (by simp))

/-- In every run without such a disturbance a runner is finished exactly from
the call of `Finish` on. -/
theorem finished_iff_finish {s : State C} (h : system.ReachableVia FinishUndisturbed s) :
    FinishedExact s := by
  refine System.ReachableVia.invariant (fun _ hr => reachable_syncInv hr.reachable) ?_ ?_ h
  · rintro _ rfl
    constructor <;> simp [initial]
  · intro s a s' hsync hi hok hs
    have hstep := step_cases hs
    exact ⟨finished_step hsync hi hok hstep, unwrap_step hsync hi hstep,
      run_step hsync hi hok hstep⟩

/-- The call `false` runs the loop and hands it over to the call `true`, whose
sender completes inside. -/
def handedOver : List (Action Bool) :=
  [.call false .runOnce, .thread false, .thread false, .thread false,
   .call true .syncWait, .thread true, .thread true, .thread true, .thread true, .thread true,
   .thread true, .thread true, .thread true,
   -- one iteration of `uv_run`, then `WakeupNext` and the return
   .thread false, .thread false, .event false, .thread false, .thread false,
   .thread false, .thread false, .thread false, .thread false, .thread false, .thread false,
   -- the call `true` leaves `Wait` and takes the loop
   .thread true, .thread true, .thread true, .thread true, .thread true, .thread true,
   .thread true, .thread true, .thread true, .thread true,
   .complete true (.value false), .wake true, .wake true, .wake true, .wake true,
   .thread true, .thread true, .thread true, .thread true, .thread true, .thread true]

theorem finished_iff_finish_handedOver : ∃ s : State Bool,
    system.ReachableVia FinishUndisturbed s ∧ s.pc false = .returned .values ∧
      s.pc true = .returned .values ∧ FinishedExact s := by
  have hrun : (system.execVia FinishUndisturbed (initial : State Bool) handedOver).map
      (fun s => (s.pc false, s.pc true)) = some (.returned .values, .returned .values) := by
    decide +kernel
  obtain ⟨s, hs, heq⟩ := Option.map_eq_some_iff.mp hrun
  obtain ⟨hfalse, htrue⟩ := Prod.mk.inj heq
  have hreach := System.reachableVia_execVia handedOver (.initial rfl) hs
  exact ⟨s, hreach, hfalse, htrue, finished_iff_finish hreach⟩

/-- A step outside the condition breaks the property at once. -/
theorem finishedExact_fails {s s' : State C} {a : Action C} (hsync : SyncInv s)
    (hi : FinishedExact s) (hok : ¬ FinishUndisturbed s a) (h : step s a = some s') :
    ¬ FinishedExact s' := by
  intro hi'
  cases a with
  | thread c =>
    simp only [FinishUndisturbed] at hok
    split at hok
    next n hc =>
      simp only [step, threadStep, hc, wakeupNextStep, Option.some.injEq] at h
      subst h
      simp only [not_forall] at hok
      obtain ⟨hcall, hn⟩ := hok
      have hb := hi.finished n hcall
      have ha := hi'.finished n hcall
      simp only [TRunner.finished_iff, Function.update_self, TRunner.wakeup_eq_zero] at ha hb
      by_cases hz : (s.runner n).awakenings = 0
      · -- the increment undoes a `Finish`
        have hmax := ha.mpr (hb.mp hz)
        simp [hz, UInt64.size] at hmax
      · -- the increment wraps
        have hno : s.finishCalled n = false := by simpa [hz] using hb
        have hmax : (s.runner n).awakenings.toNat + 1 = UInt64.size := by simpa [hno] using hn
        simp [ha.mp hmax] at hno
    next hc =>
      simp only [not_forall] at hok
      obtain ⟨hcomp, hnot⟩ := hok
      -- before `Finish` the counter admits the runner, after it a stale `Acq` does
      have hadmits : (s.runner c).acquireIfNotFinished.2 = true := by
        rw [TRunner.acquireIfNotFinished_snd]
        by_cases hfin : s.finishCalled c = true
        · exact Or.inr (by simpa [hfin] using hnot)
        · have hb := hi.finished c (hsync.steal c (Or.inr hc))
          rw [TRunner.finished_iff] at hb
          exact Or.inl fun hz => hfin (hb.mp hz)
      simp only [step, threadStep, hc, hadmits, Option.some.injEq] at h
      subst h
      have hno := hi'.run c (by simp)
      rw [hcomp] at hno
      cases hno
    next => exact hok trivial
  | complete c sig =>
    simp only [FinishUndisturbed, ne_eq, not_not] at hok
    simp only [step] at h
    split at h
    · cases h
      have hno := hi'.run c hok
      simp [WakePc.completed] at hno
    · cases h
  | _ => exact hok trivial

/-- The call `false` runs the loop and tests the runner of the call `true`,
whose `Finish` comes before the increment. -/
def undoneFinish : List (Action Bool) :=
  [.call false .runOnce, .thread false, .thread false, .thread false,
   .call true .syncWait, .thread true, .thread true, .thread true, .thread true, .thread true,
   .thread true, .thread true, .thread true,
   -- one iteration of `uv_run`
   .thread false, .thread false, .event false, .thread false, .thread false,
   -- the re-lock, `Pop` and the test in `WakeupNext`
   .thread false, .thread false, .thread false,
   .complete true .stopped, .wake true, .wake true,
   .thread false]

theorem finishedExact_undone : ¬ ∀ s : State Bool, system.Reachable s → FinishedExact s := by
  intro hall
  have hrun : (system.exec (initial : State Bool) undoneFinish).map
      (fun s => (s.call true, s.finishCalled true, (s.runner true).finished)) =
        some (.syncWait, true, false) := by decide
  obtain ⟨s, hs, heq⟩ := Option.map_eq_some_iff.mp hrun
  simp only [Prod.mk.injEq] at heq
  obtain ⟨hcall, hfin, hnot⟩ := heq
  have hexact := (hall s (System.reachable_exec _ (.initial rfl) hs)).finished true hcall
  simp [hfin, hnot] at hexact

/-! ### A finished runner inside `uv_run` -/

/-- A finished runner's owner is inside `uv_run` only with the stop flag set,
and it does not enter there. -/
structure FinishedLeaves (s : State C) : Prop where
  stopped : ∀ c, s.finishCalled c = true → InsideUvRun s c → s.stopFlag = true
  enters : ∀ c, s.pc c = .runLocked → s.finishCalled c = false

/-- `AcquireIfNotFinished` runs neither when the wakeup has looked at `Acq` and
stopped the loop but not yet called `Finish`, nor on a finished runner with a
stale `Acq`; `Finish` does not fall between a successful `AcquireIfNotFinished`
and the run of the loop; `WakeupNext` does not increment a finished runner. -/
def WakeupOrdered (s : State C) : Action C → Prop
  | .thread c =>
    match s.pc c with
    | .acquire => (s.finishCalled c = true → (s.runner c).acq = false) ∧
        (s.finishCalled c = false → ∀ k, s.wake c ≠ .store k)
    | .wakeupNext (.fetchAdd n) => s.call n = .syncWait → s.finishCalled n = false
    | _ => True
  | .wake c =>
    match s.wake c with
    | .store _ => s.pc c ≠ .runLocked
    | _ => True
  | _ => True

def Pc.runs : Pc C → Bool
  | .runLocked | .uv _ => true
  | .idle | .steal | .lock | .running | .acquire | .relockRun | .wakeupNext _ | .unlock | .add
  | .unlockWait | .wait _ | .relock | .erase | .unlockLoop | .returned _ => false

omit [DecidableEq C] in
@[simp] theorem notified_runs (p : Pc C) : p.notified.runs = p.runs :=
  notified_range Pc.runs (fun _ => rfl) p

/-- No thread goes to run the loop for a finished runner, provided `Finish`
leaves the counter at zero and the step uses no stale `Acq` and lets no
`Finish` overtake the owner. -/
theorem enters_step {s s' : State C} {a : Action C} (hsync : SyncInv s)
    (hzero : ∀ c, s.call c = .syncWait → s.finishCalled c = true → (s.runner c).awakenings = 0)
    (henter : ∀ c, s.pc c = .runLocked → s.finishCalled c = false)
    (hstale : ∀ c, a = .thread c → s.pc c = .acquire → s.finishCalled c = true →
      (s.runner c).acq = false)
    (hstore : ∀ c k, a = .wake c → s.wake c = .store k → s.pc c ≠ .runLocked)
    (h : Step s a s') : ∀ c, s'.pc c = .runLocked → s'.finishCalled c = false := by
  intro d hd
  cases h with
  | callSteal | callLock => exact henter d (eq_of_move hd (by simp))
  | runningRun c hp hrun hcall =>
    by_cases hdc : d = c
    · subst hdc
      by_contra hfin
      have hcomp := hsync.completed d (by simpa using hfin)
      simp [hsync.idle d hcall, WakePc.completed] at hcomp
    · exact henter d (by simpa [hdc] using hd)
  | acquired c hp hacq =>
    by_cases hdc : d = c
    · subst hdc
      by_contra hfin
      simp only [Bool.not_eq_false] at hfin
      -- acquisition of a finished runner needs a stale `Acq`
      have hz := hzero d (hsync.steal d (Or.inr hp)) hfin
      have hs := hstale d rfl hp hfin
      rw [TRunner.acquireIfNotFinished_snd] at hacq
      simp [hz, hs] at hacq
    · exact henter d (by simpa [hdc] using hd)
  | wakeStore c k hk =>
    have hdc : d ≠ c := by
      rintro rfl
      exact hstore d k rfl hk hd
    simpa [hdc] using henter d hd
  | nextNotify => exact henter d (eq_of_notify (eq_of_move hd (by simp)) (by simp))
  | wakeDone | wakeAgain => exact henter d (eq_of_notify hd (by simp))
  | complete | wakeAcquired | wakeFinishLoop | finish | fire => exact henter d hd
  | _ => exact henter d (eq_of_move hd (by simp))

/-! ### What a step does -/

section
variable {s s' : State C} {a : Action C} {d : C}

/-- The owner of a runner comes to the run of the loop from `AcquireIfNotFinished`,
or, where there is none, from the test of `Running`. -/
theorem runs_back (h : Step s a s') (hd : (s'.pc d).runs = true) : (s.pc d).runs = true ∨
    s'.pc d = .runLocked ∧ (a = .thread d ∧ s.pc d = .acquire ∧ (s'.runner d).acq = true ∨
      s.pc d = .running ∧ s.call d ≠ .syncWait) := by
  cases h with
  | acquired c hp hacq =>
    by_cases hdc : d = c
    · subst hdc
      refine Or.inr ⟨by simp, Or.inl ⟨rfl, hp, ?_⟩⟩
      simpa [TRunner.acquireIfNotFinished_acq] using hacq
    · exact Or.inl (by simpa [hdc] using hd)
  | runningRun c hp hrun hcall =>
    by_cases hdc : d = c
    · subst hdc
      exact Or.inr ⟨by simp, Or.inr ⟨hp, hcall⟩⟩
    · exact Or.inl (by simpa [hdc] using hd)
  | nextNotify c n hp =>
    have hn := back_of_move (P := fun q : Pc C => q.runs = true) (f := (s.notify n).pc) hd
      (by simp [Pc.runs])
    exact Or.inl ((range_move Pc.runs (notified_runs _) d).symm.trans hn)
  | wakeDone c hk | wakeAgain c k hk =>
    exact Or.inl ((range_move Pc.runs (notified_runs _) d).symm.trans hd)
  | complete | wakeAcquired | wakeFinishLoop | wakeStore | finish | fire => exact Or.inl hd
  | unlock c hp =>
    refine Or.inl (back_of_move (P := fun q : Pc C => q.runs = true) hd ?_)
    simp [afterRun_range Pc.runs (s := s) (c := c) (b := false) rfl rfl]
  | unlockLoop c hp =>
    refine Or.inl (back_of_move (P := fun q : Pc C => q.runs = true) hd ?_)
    simp [afterWait_range Pc.runs (s := s) (c := c) (b := false) rfl rfl]
  | callSteal c hp | callLock c k hp | stealReturn c hp | stealLock c hp | lock c hp
  | runningAdd c hp | runningAcquire c hp | notAcquired c hp | runLocked c hp | uvTest c hp
  | uvCallbacks c hp | uvSignal c b hp | uvPoll c hp | uvEvent c hp | uvEvents c hp | uvExit c hp
  | relockRun c hp | nextEmpty c hp | nextPop c n rest hp | nextSkip c n hp | nextTake c n hp
  | nextFetchAdd c n hp | add c hp | unlockWait c hp | waitLoad c hp | waitAgain c w hp
  | waitLeave c w hp | waitBlock c w hp | waitReturn c w hp | relock c hp | erase c hp
  | spurious c w hp =>
    exact Or.inl (back_of_move (P := fun q : Pc C => q.runs = true) hd (by simp [hp, Pc.runs]))

theorem call_kept (h : Step s a s') (hd : s.pc d ≠ .idle) : s'.call d = s.call d := by
  cases h with
  | callSteal c hp | callLock c k hp =>
    have hdc : d ≠ c := by
      rintro rfl
      exact hd hp
    simp [hdc]
  | _ => rfl

theorem acq_kept (h : Step s a s') (hd : (s.runner d).acq = true) : (s'.runner d).acq = true := by
  cases h with
  | acquired c hp hacq =>
    refine kept_of_move (P := fun r : TRunner => r.acq = true) hd fun _ => ?_
    rwa [TRunner.acquireIfNotFinished_acq]
  | notAcquired c hp hacq =>
    refine kept_of_move (P := fun r : TRunner => r.acq = true) hd fun hc => ?_
    rw [TRunner.acquireIfNotFinished_acq, TRunner.acquireIfNotFinished_snd]
    exact Or.inr hc
  | nextFetchAdd | wakeStore => exact kept_of_move (P := fun r : TRunner => r.acq = true) hd id
  | _ => exact hd

/-- Only the return of `uv_run` clears the stop flag. -/
theorem stopFlag_kept (h : Step s a s') (hs : s.stopFlag = true) : s'.stopFlag = true ∨
    ∃ c, a = .thread c ∧ s.pc c = .uv .exit ∧ s'.pc c = .relockRun := by
  cases h with
  | uvExit c hp => exact Or.inr ⟨c, rfl, hp, by simp⟩
  | wakeFinishLoop | finish => exact Or.inl rfl
  | _ => exact Or.inl hs

theorem finishCalled_back (h : Step s a s') (hd : s'.finishCalled d = true) :
    s.finishCalled d = true ∨ ∃ k, s.wake d = .store k := by
  cases h with
  | wakeStore c k hk =>
    by_cases hdc : d = c
    · exact Or.inr ⟨k, hdc ▸ hk⟩
    · exact Or.inl (by simpa [hdc] using hd)
  | _ => exact Or.inl hd

theorem finishCalled_kept (h : Step s a s') (hd : s'.finishCalled d = false) :
    s.finishCalled d = false := by
  cases h with
  | wakeStore c k hk =>
    exact back_of_move (P := fun b : Bool => b = false) hd (fun hc => by simp at hc)
  | _ => exact hd

/-- The wakeup comes to `Finish` from the look at `Acq`, or past the call of finish(). -/
theorem storing_back {k : ℕ} (h : Step s a s') (hd : s'.wake d = .store k) :
    s.wake d = .store k ∨ s'.stopFlag = true ∨
      a = .wake d ∧ s.wake d = .acquired k ∧ (s.runner d).acq = false := by
  cases h with
  | wakeAcquired c j hj =>
    by_cases hdc : d = c
    · subst hdc
      simp only [Function.update_self] at hd
      split at hd
      next => cases hd
      next hacq =>
        cases hd
        exact Or.inr (Or.inr ⟨rfl, hj, by simpa [TRunner.acquired] using hacq⟩)
    · exact Or.inl (by simpa [hdc] using hd)
  | wakeFinishLoop => exact Or.inr (Or.inl rfl)
  | callSteal | complete | wakeStore | wakeDone | wakeAgain =>
    exact Or.inl (eq_of_move hd (by simp))
  | _ => exact Or.inl hd

end

def AcqInv (s : State C) : Prop :=
  ∀ c, s.call c = .syncWait → (s.pc c).runs = true → (s.runner c).acq = true

omit [DecidableEq C] in
theorem not_idle_of_runs {p : Pc C} (h : p.runs = true) : p ≠ .idle := by
  rintro rfl
  simp [Pc.runs] at h

theorem acqInv_step {s s' : State C} {a : Action C} (hi : AcqInv s) (h : Step s a s') :
    AcqInv s' := by
  intro d hd hr
  rcases runs_back h hr with hold | ⟨-, ⟨-, -, hacq⟩ | ⟨hp, hcall⟩⟩
  · rw [call_kept h (not_idle_of_runs hold)] at hd
    exact acq_kept h (hi d hd hold)
  · exact hacq
  · rw [call_kept h (by simp [hp])] at hd
    exact (hcall hd).elim

theorem reachable_acqInv {s : State C} (h : system.Reachable s) : AcqInv s := by
  refine System.Reachable.invariant ?_ ?_ h
  · rintro _ rfl
    simp [AcqInv, initial]
  · intro s a s' hi hs
    exact acqInv_step hi (step_cases hs)

/-- What the two halves of the wakeup leave behind: a stopped loop before the
store, a zero counter after it. -/
structure WakeupInv (s : State C) : Prop extends FinishedLeaves s where
  zero : ∀ c, s.call c = .syncWait → s.finishCalled c = true → (s.runner c).awakenings = 0
  storing : ∀ c k, s.wake c = .store k → s.finishCalled c = false → (s.pc c).runs = true →
    s.stopFlag = true

theorem zero_step {s s' : State C} {a : Action C} (hsync : SyncInv s) (hi : WakeupInv s)
    (hok : WakeupOrdered s a) (h : Step s a s') : ∀ c, s'.call c = .syncWait →
      s'.finishCalled c = true → (s'.runner c).awakenings = 0 := by
  intro d hd hfin
  have hz := hi.zero d
  cases h with
  | callSteal c hp | callLock c k hp =>
    have hdc : d ≠ c := by
      rintro rfl
      simp [(hsync.fresh d hp).2.1] at hfin
    exact hz (by simpa [hdc] using hd) hfin
  | nextFetchAdd c n hp =>
    simp only [WakeupOrdered, hp] at hok
    have hdn : d ≠ n := by
      rintro rfl
      simp [hok hd] at hfin
    simpa [hdn] using hz hd hfin
  | acquired c hp | notAcquired c hp =>
    rw [← hz hd hfin]
    exact range_move TRunner.awakenings (TRunner.acquireIfNotFinished_awakenings _) d
  | wakeStore c k hk =>
    by_cases hdc : d = c
    · simp [hdc]
    · simpa [hdc] using hz hd (by simpa [hdc] using hfin)
  | _ => exact hz hd hfin

omit [DecidableEq C] in
theorem WakeupOrdered.stale {s : State C} {a : Action C} (hok : WakeupOrdered s a) :
    ∀ c, a = .thread c → s.pc c = .acquire → s.finishCalled c = true →
      (s.runner c).acq = false := by
  rintro c rfl hc hfin
  simp only [WakeupOrdered, hc] at hok
  exact hok.1 hfin

omit [DecidableEq C] in
theorem WakeupOrdered.store {s : State C} {a : Action C} (hok : WakeupOrdered s a) :
    ∀ c k, a = .wake c → s.wake c = .store k → s.pc c ≠ .runLocked := by
  rintro c k rfl hk
  simpa only [WakeupOrdered, hk] using hok

omit [DecidableEq C] in
/-- A return of `uv_run`, which clears the flag, takes the only thread inside
away from there and finds none about to enter. -/
theorem uvExit_runs {s : State C} (hr : RunInv s) {c d : C} (hc : s.pc c = .uv .exit)
    (hd : (s.pc d).runs = true) : d = c := by
  have hin : (s.pc c).inRunLocked = true := by simp [hc, Pc.inRunLocked]
  cases hp : s.pc d with
  | runLocked =>
    have hno := hr.entering d (Or.inr hp)
    simp [hr.running c hin] at hno
  | uv p => exact hr.unique d c (by simp [hp, Pc.inRunLocked]) hin
  | _ => simp [hp, Pc.runs] at hd

/-- A stop stays for the thread inside until it is out of there. -/
theorem stopFlag_of_runs {s s' : State C} {a : Action C} {d : C} (hr : RunInv s) (h : Step s a s')
    (hs : s.stopFlag = true) (hold : (s.pc d).runs = true) (hd : (s'.pc d).runs = true) :
    s'.stopFlag = true := by
  rcases stopFlag_kept h hs with hkept | ⟨c, -, hc, hc'⟩
  · exact hkept
  · have hdc := uvExit_runs hr hc hold
    subst hdc
    simp [hc', Pc.runs] at hd

theorem storing_step {s s' : State C} {a : Action C} (hr : RunInv s) (hsync : SyncInv s)
    (hacq : AcqInv s) (hi : WakeupInv s) (hok : WakeupOrdered s a) (h : Step s a s') :
    ∀ c k, s'.wake c = .store k → s'.finishCalled c = false → (s'.pc c).runs = true →
      s'.stopFlag = true := by
  intro d k hk hfin hd
  have hfin' := finishCalled_kept h hfin
  rcases storing_back h hk with hold | hstop | ⟨rfl, hk', hno⟩
  · rcases runs_back h hd with hd' | ⟨-, ⟨rfl, hp, -⟩ | ⟨hp, hcall⟩⟩
    · exact stopFlag_of_runs hr h (hi.storing d k hold hfin' hd') hd' hd
    · simp only [WakeupOrdered, hp] at hok
      exact (hok.2 hfin' k hold).elim
    · simp [hsync.idle d hcall] at hold
  · exact hstop
  · -- inside the loop the wakeup finds `Acq` set and stops it first
    have hcall : s.call d = .syncWait := by
      by_contra hne
      simp [hsync.idle d hne] at hk'
    rcases runs_back h hd with hd' | ⟨-, ⟨hthread, -⟩ | ⟨-, hne⟩⟩
    · simp [hacq d hcall hd'] at hno
    · cases hthread
    · exact (hne hcall).elim

omit [DecidableEq C] in
theorem InsideUvRun.runs {s : State C} {c : C} (h : InsideUvRun s c) : (s.pc c).runs = true := by
  obtain ⟨p, hp⟩ := h
  simp [hp, Pc.runs]

omit [DecidableEq C] in
theorem WakeupInv.runs_stopped {s : State C} (hi : WakeupInv s) {c : C}
    (hfin : s.finishCalled c = true) (hr : (s.pc c).runs = true) : s.stopFlag = true := by
  cases hp : s.pc c with
  | runLocked => simp [hi.enters c hp] at hfin
  | uv p => exact hi.stopped c hfin ⟨p, hp⟩
  | _ => simp [hp, Pc.runs] at hr

theorem stopped_step {s s' : State C} {a : Action C} (hr : RunInv s) (hi : WakeupInv s)
    (h : Step s a s') :
    ∀ c, s'.finishCalled c = true → (s'.pc c).runs = true → s'.stopFlag = true ∨ s'.pc c = .runLocked := by
  intro d hfin hd
  rcases runs_back h hd with hold | ⟨hpc, -⟩
  · refine Or.inl (stopFlag_of_runs hr h ?_ hold hd)
    cases hf : s.finishCalled d with
    | true => exact hi.runs_stopped hf hold
    | false =>
      rcases finishCalled_back h hfin with hf' | ⟨k, hk⟩
      · simp [hf] at hf'
      · exact hi.storing d k hk hf hold
  · exact Or.inr hpc

/-- In every run whose wakeups keep that order no finished `sync_wait` is left
inside the loop. -/
theorem finished_leaves {s : State C} (h : system.ReachableVia WakeupOrdered s) :
    FinishedLeaves s := by
  suffices hw : WakeupInv s from hw.toFinishedLeaves
  refine System.ReachableVia.invariant (fun _ hr => hr.reachable) ?_ ?_ h
  · rintro _ rfl
    exact ⟨⟨by simp [initial], by simp [initial]⟩, by simp [initial], by simp [initial]⟩
  · intro s a s' hreach hi hok hs
    have hstep := step_cases hs
    have hrun := reachable_runInv hreach
    have hsync := reachable_syncInv hreach
    have henter := enters_step hsync hi.zero hi.enters hok.stale hok.store hstep
    refine ⟨⟨?_, henter⟩, zero_step hsync hi hok hstep,
      storing_step hrun hsync (reachable_acqInv hreach) hi hok hstep⟩
    intro c hfin hin
    rcases stopped_step hrun hi hstep c hfin hin.runs with hstop | hpc
    · exact hstop
    · simp [henter c hpc] at hfin

theorem finished_leaves_foreign : ∃ s : State Unit, system.ReachableVia WakeupOrdered s ∧
    s.finishCalled () = true ∧ InsideUvRun s () ∧ s.stopFlag = true := by
  have h0 : system.ReachableVia WakeupOrdered (initial : State Unit) := .initial rfl
  have h1 := h0.step (Action.call () .syncWait) trivial rfl
  have h2 := h1.step (Action.thread ()) trivial rfl
  have h3 := h2.step (Action.thread ()) trivial rfl
  have h4 := h3.step (Action.thread ()) trivial rfl
  have h5 := h4.step (Action.thread ())
    ⟨fun h => absurd h Bool.false_ne_true, fun _ _ => WakePc.noConfusion⟩ rfl
  have h6 := h5.step (Action.thread ()) trivial rfl
  have h7 := h6.step (Action.complete () .stopped) trivial rfl
  have h8 := h7.step (Action.wake ()) trivial rfl
  have h9 := h8.step (Action.wake ()) trivial rfl
  have h10 := h9.step (Action.wake ())
    (show (Pc.uv .test : Pc Unit) ≠ .runLocked by decide) rfl
  exact ⟨_, h10, rfl, ⟨.test, rfl⟩, (finished_leaves h10).stopped () rfl ⟨.test, rfl⟩⟩

/-- The wakeup looks at `Acq` before its owner acquires the loop and calls
`Finish` after that. -/
def overtakenFinish : List (Action Unit) :=
  [.call () .syncWait, .complete () .stopped, .wake (), .thread (), .thread (), .thread (),
   .thread (), .thread (), .wake (), .wake ()]

theorem finished_leaves_overtaken : ¬ ∀ s : State Unit, system.Reachable s →
    ∀ c, s.wake c = .done → InsideUvRun s c → s.stopFlag = true := by
  intro hall
  have hrun : (system.exec (initial : State Unit) overtakenFinish).map
      (fun s => (s.wake (), s.pc (), s.stopFlag)) = some (.done, .uv .test, false) := by decide
  obtain ⟨s, hs, heq⟩ := Option.map_eq_some_iff.mp hrun
  simp only [Prod.mk.injEq] at heq
  obtain ⟨hwake, hpc, hstop⟩ := heq
  have hset := hall s (System.reachable_exec _ (.initial rfl) hs) () hwake ⟨_, hpc⟩
  simp [hstop] at hset

end UvExec.Loop
