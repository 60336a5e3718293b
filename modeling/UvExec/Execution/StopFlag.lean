import UvExec.Execution.Completion

/-! # The stop flag of the loop

Who may find the flag set that `TLoop::finish` raises, and whether the thread
that polls hears of it. -/

namespace UvExec.Loop
open Lib
variable {C : Type} [DecidableEq C]

/-! ### Whose run a completion ends -/

/-- A wakeup stops no other call's run; `run` leaves on the flag only for a
user's finish(); outside `uv_run` the flag is clear but for a user's finish(). -/
structure RunsUndisturbed (s : State C) : Prop where
  own : ∀ c k, s.wake c = .finishLoop k → ∀ d, InsideUvRun s d → d = c
  leaves : ∀ c, s.call c = .run → s.pc c = .uv .exit → s.userStop = true
  clear : (∀ c, ¬ InsideUvRun s c) → s.userStop = false → s.stopFlag = false

/-- `Acq` is not stale when a wakeup uses it: it is found set only while the
owner runs the loop or enters, the owner's `uv_run` does not return before the
call of finish() that follows, and that call does not come before the entry. -/
def AcqFresh (s : State C) : Action C → Prop
  | .wake c =>
    match s.wake c with
    | .acquired _ => (s.runner c).acq = true → (s.pc c).runs = true
    | .finishLoop _ => s.pc c ≠ .runLocked
    | _ => True
  | .thread c =>
    match s.pc c with
    | .uv .exit => ∀ k, s.wake c ≠ .finishLoop k
    | _ => True
  | _ => True

def ExitInv (s : State C) : Prop :=
  ∀ c, (s.call c).mode = .default → s.pc c = .uv .exit → s.stopFlag = true

theorem exitInv_step {s s' : State C} {a : Action C} (hr : RunInv s) (hi : ExitInv s)
    (h : Step s a s') : ExitInv s' := by
  intro d hd hp
  cases h with
  | uvExit c hc =>
    have hold : s.pc d = .uv .exit := eq_of_move hp (by simp)
    have hdc := uvExit_runs hr hc (d := d) (by simp [hold, Pc.runs])
    simp [hdc] at hp
  | wakeFinishLoop | finish => rfl
  | callSteal c hc | callLock c k hc =>
    have hdc := ne_of_move hp (by simp)
    exact hi d (by simpa [hdc] using hd) (eq_of_move hp (by simp))
  | uvTest c hc =>
    by_cases hdc : d = c
    · subst hdc
      by_contra hno
      have hclear : s.stopFlag = false := by simpa using hno
      simp [hclear] at hp
    · exact hi d hd (by simpa [hdc] using hp)
  | uvEvents c hc =>
    -- in the default mode `uv_run` goes on with the test of the flag
    have hdc : d ≠ c := by
      rintro rfl
      simp [hd] at hp
    exact hi d hd (by simpa [hdc] using hp)
  | nextNotify => exact hi d hd (eq_of_notify (eq_of_move hp (by simp)) (by simp))
  | wakeDone | wakeAgain => exact hi d hd (eq_of_notify hp (by simp))
  | complete | wakeAcquired | wakeStore | fire => exact hi d hd hp
  | _ => exact hi d hd (eq_of_move hp (by simp))

theorem reachable_exitInv {s : State C} (h : system.Reachable s) : ExitInv s := by
  refine System.Reachable.invariant_of (fun _ hr => reachable_runInv hr) ?_ ?_ h
  · rintro _ rfl
    simp [ExitInv, initial]
  · intro s a s' hr hi hs
    exact exitInv_step hr hi (step_cases hs)

/-- A raised flag is a user's, or that of a `sync_wait` which is still inside. -/
structure StopInv (s : State C) : Prop where
  raised : s.stopFlag = true → s.userStop = true ∨ ∃ c, s.call c = .syncWait ∧ InsideUvRun s c
  stopping : ∀ c k, s.wake c = .finishLoop k → (s.pc c).runs = true

section
variable {s s' : State C} {a : Action C} {d : C}

/-- Who calls finish() has seen `Acq`. -/
theorem finishLoop_back {k : ℕ} (h : Step s a s') (hd : s'.wake d = .finishLoop k) :
    s.wake d = .finishLoop k ∨
      a = .wake d ∧ s.wake d = .acquired k ∧ (s.runner d).acq = true ∧ s'.pc = s.pc := by
  cases h with
  | wakeAcquired c j hj =>
    by_cases hdc : d = c
    · subst hdc
      simp only [Function.update_self] at hd
      split at hd
      next hacq =>
        cases hd
        exact Or.inr ⟨rfl, hj, by simpa [TRunner.acquired] using hacq, rfl⟩
      next => cases hd
    · exact Or.inl (by simpa [hdc] using hd)
  | callSteal | complete | wakeFinishLoop | wakeStore | wakeDone | wakeAgain =>
    exact Or.inl (eq_of_move hd (by simp))
  | _ => exact Or.inl hd

/-- What holds of all program points in `uv_run`, and only there and before it,
ends with the return. -/
theorem range_kept {P : Pc C → Prop} (hruns : ∀ p, P p → p.runs = true) (huv : ∀ p, P (.uv p))
    (h : Step s a s') (hd : P (s.pc d)) :
    P (s'.pc d) ∨ a = .thread d ∧ s.pc d = .uv .exit ∧ s'.stopFlag = false := by
  have hno : ∀ p : Pc C, p.runs = false → ¬ P p := fun p hp hP => by simp [hruns p hP] at hp
  have hnotify : ∀ c, P ((s.notify c).pc d) := by
    refine fun c => kept_of_move hd fun hc => ?_
    rcases notified_cases (s.pc c) with heq | ⟨w, hw, -⟩
    · exact heq.symm ▸ hc
    · exact (hno _ (by simp [Pc.runs]) (hw ▸ hc)).elim
  cases h with
  | uvExit c hp =>
    by_cases hdc : d = c
    · exact Or.inr ⟨hdc ▸ rfl, hdc ▸ hp, rfl⟩
    · exact Or.inl (by simpa [hdc] using hd)
  | nextNotify c n hp =>
    refine Or.inl (kept_of_move (hnotify n) fun hc => (hno _ ?_ hc).elim)
    rw [range_move Pc.runs (notified_runs _), hp]
    rfl
  | wakeDone c | wakeAgain c => exact Or.inl (hnotify c)
  | complete | wakeAcquired | wakeFinishLoop | wakeStore | finish | fire => exact Or.inl hd
  | runLocked c hp | uvTest c hp | uvCallbacks c hp | uvSignal c b hp | uvPoll c hp | uvEvent c hp
  | uvEvents c hp => exact Or.inl (kept_of_move hd fun _ => huv _)
  | callSteal c hp | callLock c k hp | stealReturn c hp | stealLock c hp | lock c hp
  | runningAdd c hp | runningAcquire c hp | relockRun c hp | nextEmpty c hp | nextPop c n rest hp
  | nextSkip c n hp | nextTake c n hp | nextFetchAdd c n hp | unlock c hp | add c hp
  | unlockWait c hp | waitLoad c hp | waitAgain c w hp | waitLeave c w hp | waitBlock c w hp
  | waitReturn c w hp | relock c hp | erase c hp | unlockLoop c hp | spurious c w hp
  | runningRun c hp | acquired c hp | notAcquired c hp =>
    exact Or.inl (kept_of_move hd fun hc => (hno _ rfl (hp ▸ hc)).elim)

theorem stopFlag_back (h : Step s a s') (hs : s'.stopFlag = true) :
    s.stopFlag = true ∨ a = .finish ∨ ∃ c k, a = .wake c ∧ s.wake c = .finishLoop k := by
  cases h with
  | uvExit => cases hs
  | wakeFinishLoop c k hk => exact Or.inr (Or.inr ⟨c, k, rfl, hk⟩)
  | finish => exact Or.inr (Or.inl rfl)
  | _ => exact Or.inl hs

/-- A user's finish() is forgotten together with the flag. -/
theorem userStop_kept (h : Step s a s') (hu : s.userStop = true) (hs : s'.stopFlag = true) :
    s'.userStop = true := by
  cases h with
  | uvExit => cases hs
  | finish => rfl
  | _ => exact hu

end

theorem stopping_step {s s' : State C} {a : Action C} (hi : StopInv s) (hok : AcqFresh s a)
    (h : Step s a s') : ∀ c k, s'.wake c = .finishLoop k → (s'.pc c).runs = true := by
  intro d k hk
  rcases finishLoop_back h hk with hold | ⟨rfl, hk', hacq, hpc⟩
  · have hruns := range_kept (P := fun p => p.runs = true) (fun _ => id) (fun _ => rfl) h
      (hi.stopping d k hold)
    rcases hruns with hd | ⟨rfl, hp, -⟩
    · exact hd
    · simp only [AcqFresh, hp] at hok
      exact (hok k hold).elim
  · simp only [AcqFresh, hk'] at hok
    rw [hpc]
    exact hok hacq

theorem raised_step {s s' : State C} {a : Action C} (hsync : SyncInv s) (hi : StopInv s)
    (hok : AcqFresh s a) (h : Step s a s') :
    s'.stopFlag = true → s'.userStop = true ∨ ∃ c, s'.call c = .syncWait ∧ InsideUvRun s' c := by
  intro hf
  have hinside : ∀ d, s.call d = .syncWait → InsideUvRun s d →
      ∃ c, s'.call c = .syncWait ∧ InsideUvRun s' c := by
    intro d hd hin
    have hkept := range_kept (P := fun q : Pc C => ∃ p, q = .uv p)
      (by rintro _ ⟨p, rfl⟩; rfl) (fun p => ⟨p, rfl⟩) h hin
    rcases hkept with hin' | ⟨-, -, hclear⟩
    · exact ⟨d, (call_kept h (not_idle_of_runs hin.runs)).trans hd, hin'⟩
    · simp [hf] at hclear
  rcases stopFlag_back h hf with hold | rfl | ⟨c, k, rfl, hk⟩
  · rcases hi.raised hold with hu | ⟨d, hd, hin⟩
    · exact Or.inl (userStop_kept h hu hf)
    · exact Or.inr (hinside d hd hin)
  · cases h with
    | finish => exact Or.inl rfl
  · have hcall : s.call c = .syncWait := by
      by_contra hne
      simp [hsync.idle c hne] at hk
    have hruns := hi.stopping c k hk
    simp only [AcqFresh, hk] at hok
    refine Or.inr (hinside c hcall ?_)
    cases hp : s.pc c with
    | uv p => exact ⟨p, hp⟩
    | runLocked => exact (hok hp).elim
    | _ => simp [hp, Pc.runs] at hruns

theorem reachableVia_stopInv {s : State C} (h : system.ReachableVia AcqFresh s) : StopInv s := by
  refine System.ReachableVia.invariant (fun _ hr => reachable_syncInv hr.reachable) ?_ ?_ h
  · rintro _ rfl
    constructor <;> simp [initial]
  · intro s a s' hsync hi hok hs
    exact ⟨raised_step hsync hi hok (step_cases hs), stopping_step hi hok (step_cases hs)⟩

/-- In every run without a stale `Acq` the completion of one `sync_wait` ends
no other call's run of the loop. -/
theorem completion_stops_own {s : State C} (h : system.ReachableVia AcqFresh s) :
    RunsUndisturbed s := by
  have hreach := h.reachable
  have hrun := reachable_runInv hreach
  have hi := reachableVia_stopInv h
  refine ⟨?_, ?_, ?_⟩
  · intro c k hk d hd
    have hruns := hi.stopping c k hk
    cases hp : s.pc c with
    | uv p => exact hrun.unique d c hd.inRunLocked (by simp [hp, Pc.inRunLocked])
    | runLocked =>
      have hno := hrun.entering c (Or.inr hp)
      simp [hrun.running d hd.inRunLocked] at hno
    | _ => simp [hp, Pc.runs] at hruns
  · intro c hc hp
    rcases hi.raised (reachable_exitInv hreach c (by simp [hc, Call.mode]) hp) with hu | ⟨d, hd, hin⟩
    · exact hu
    · have hdc := hrun.unique d c hin.inRunLocked (by simp [hp, Pc.inRunLocked])
      simp [hdc, hc] at hd
  · intro hout hu
    by_contra hf
    simp only [Bool.not_eq_false] at hf
    rcases hi.raised hf with hu' | ⟨d, -, hin⟩
    · simp [hu] at hu'
    · exact hout d hin

theorem step_finishLoop {s : State C} {c : C} {k : ℕ} (hk : s.wake c = .finishLoop k) :
    step s (.wake c) = some ((finish s).setWake c (.store k)) := by
  simp only [step, wakeStep, hk]

/-- A step with a stale `Acq` disturbs a run, at the latest with the call of
finish() that follows it. -/
theorem stale_disturbs {s s' : State C} {a : Action C} (hr : RunInv s) (hu : s.userStop = false)
    (hok : ¬ AcqFresh s a) (h : step s a = some s') :
    ¬ RunsUndisturbed s' ∨ ∃ c s'', step s' (.wake c) = some s'' ∧ ¬ RunsUndisturbed s'' := by
  cases a with
  | wake c =>
    simp only [AcqFresh] at hok
    split at hok
    next k hk =>
      obtain ⟨hacq, hout⟩ := Classical.not_imp.mp hok
      simp only [step, wakeStep, hk, TRunner.acquired, hacq, if_true, Option.some.injEq] at h
      subst h
      by_cases hin : ∃ d, InsideUvRun s d
      · obtain ⟨d, hd⟩ := hin
        refine Or.inl fun hi => hout ?_
        rw [← hi.own c k (by simp) d hd]
        exact hd.runs
      · have hnone : ∀ d, ¬ InsideUvRun s d := not_exists.mp hin
        refine Or.inr ⟨c, _, step_finishLoop (k := k) (by simp), fun hi => ?_⟩
        simpa using hi.clear hnone hu
    next k hk =>
      simp only [step, wakeStep, hk, Option.some.injEq] at h
      subst h
      refine Or.inl fun hi => ?_
      have hnone : ∀ d, ¬ InsideUvRun s d := by
        intro d hd
        have hno := hr.entering c (Or.inr (not_not.mp hok))
        simp [hr.running d hd.inRunLocked] at hno
      simpa using hi.clear hnone hu
    next => exact (hok trivial).elim
  | thread c =>
    simp only [AcqFresh] at hok
    split at hok
    next hc =>
      simp only [not_forall, not_not] at hok
      obtain ⟨k, hk⟩ := hok
      simp only [step, threadStep, hc, uvStep, Option.some.injEq] at h
      subst h
      have hnone : ∀ d, ∀ p, Function.update s.pc c .relockRun d ≠ .uv p := by
        intro d p hp
        by_cases hdc : d = c
        · simp [hdc] at hp
        · simp only [Function.update_of_ne hdc] at hp
          exact hdc (hr.unique d c (by simp [hp, Pc.inRunLocked]) (by simp [hc, Pc.inRunLocked]))
      refine Or.inr ⟨c, _, step_finishLoop hk, fun hi => ?_⟩
      simpa using hi.clear (fun d hd => hd.elim (hnone d)) rfl
    next => exact (hok trivial).elim
  | _ => exact (hok trivial).elim

theorem completion_stops_own_run : ∃ s : State Unit, system.ReachableVia AcqFresh s ∧
    s.wake () = .finishLoop 0 ∧ InsideUvRun s () ∧ RunsUndisturbed s := by
  have h0 : system.ReachableVia AcqFresh (initial : State Unit) := .initial rfl
  have h1 := h0.step (Action.call () .syncWait) trivial rfl
  have h2 := h1.step (Action.thread ()) trivial rfl
  have h3 := h2.step (Action.thread ()) trivial rfl
  have h4 := h3.step (Action.thread ()) trivial rfl
  have h5 := h4.step (Action.thread ()) trivial rfl
  have h6 := h5.step (Action.thread ()) trivial rfl
  have h7 := h6.step (Action.complete () .stopped) trivial rfl
  have h8 := h7.step (Action.wake ()) (fun _ => rfl) rfl
  exact ⟨_, h8, rfl, ⟨.test, rfl⟩, completion_stops_own h8⟩

/-- The call `false` leaves the loop on a user's finish() and its sender
completes before it returns, with the call `true` inside `uv_run`. -/
def staleAcq : List (Action Bool) :=
  [.call false .syncWait, .thread false, .thread false, .thread false, .thread false, .thread false,
   .finish, .thread false, .thread false,
   -- the re-lock, an empty `WakeupNext` and the unlock
   .thread false, .thread false, .thread false,
   .call true .run, .thread true, .thread true, .thread true,
   .complete false .stopped, .wake false]

theorem completion_stops_other : ¬ ∀ s : State Bool, system.Reachable s →
    RunsUndisturbed s := by
  intro hall
  have hrun : (system.exec (initial : State Bool) staleAcq).map
      (fun s => (s.wake false, s.pc true)) = some (.finishLoop 0, .uv .test) := by decide
  obtain ⟨s, hs, heq⟩ := Option.map_eq_some_iff.mp hrun
  simp only [Prod.mk.injEq] at heq
  obtain ⟨hwake, hpc⟩ := heq
  have hown := (hall s (System.reachable_exec _ (.initial rfl) hs)).own false 0 hwake true ⟨_, hpc⟩
  exact absurd hown (by decide)

/-! ### Stopping a thread that polls -/

/-- A thread that blocks in the poll with the stop flag set has a signalled
async handle to wake it. -/
def StopNotSlept (s : State C) : Prop :=
  ∀ c, s.pc c = .uv (.poll true) → s.stopFlag = true → s.asyncSignal = true

/-- `uv_stop` is not called, by a user or by a wakeup, while a thread blocks in
the poll and the async handle is not signalled. -/
def StopWakes (s : State C) : Action C → Prop
  | .finish => ∀ d, s.pc d = .uv (.poll true) → s.asyncSignal = true
  | .wake c =>
    match s.wake c with
    | .finishLoop _ => ∀ d, s.pc d = .uv (.poll true) → s.asyncSignal = true
    | _ => True
  | _ => True

theorem stopNotSlept_step {s s' : State C} {a : Action C} (hr : RunInv s) (hi : StopNotSlept s)
    (hok : StopWakes s a) (h : Step s a s') : StopNotSlept s' := by
  intro d hd hstop
  cases h with
  | finish => exact hok d hd
  | wakeFinishLoop c k hk =>
    simp only [StopWakes, hk] at hok
    exact hok d hd
  | uvSignal c b hc hsig =>
    -- the thread that takes the signal is the one inside
    have hold : s.pc d = .uv (.poll true) := eq_of_move hd (by simp)
    have hdc := hr.unique d c (by simp [hold, Pc.inRunLocked]) (by simp [hc, Pc.inRunLocked])
    simp [hdc] at hd
  | uvCallbacks c hc =>
    -- `uv_run` does not block once the flag is set
    have hdc : d ≠ c := by
      rintro rfl
      simp only at hstop
      simp [hstop] at hd
    exact hi d (by simpa [hdc] using hd) hstop
  | uvTest c hc | uvEvents c hc => exact hi d (eq_of_move hd (by split <;> simp)) hstop
  | uvExit => cases hstop
  | fire => rfl
  | nextNotify => exact hi d (eq_of_notify (eq_of_move hd (by simp)) (by simp)) hstop
  | wakeDone | wakeAgain => exact hi d (eq_of_notify hd (by simp)) hstop
  | complete | wakeAcquired | wakeStore => exact hi d hd hstop
  | _ => exact hi d (eq_of_move hd (by simp)) hstop

/-- In every run whose stops find nobody blocking in the poll without a signal
no stop is slept through. -/
theorem stop_not_slept {s : State C} (h : system.ReachableVia StopWakes s) : StopNotSlept s := by
  refine System.ReachableVia.invariant (fun _ hr => reachable_runInv hr.reachable) ?_ ?_ h
  · rintro _ rfl
    simp [StopNotSlept, initial]
  · intro s a s' hr hi hok hs
    exact stopNotSlept_step hr hi hok (step_cases hs)

theorem stop_slept {s s' : State C} {a : Action C} (hok : ¬ StopWakes s a)
    (h : step s a = some s') : ¬ StopNotSlept s' := by
  intro hi
  cases a with
  | finish =>
    cases h
    exact hok fun d hd => hi d hd rfl
  | wake c =>
    simp only [StopWakes] at hok
    split at hok
    next k hk =>
      simp only [step, wakeStep, hk, Option.some.injEq] at h
      subst h
      exact hok fun d hd => hi d hd rfl
    next => exact hok trivial
  | _ => exact hok trivial

theorem stop_not_slept_signalled : ∃ s : State Unit, system.ReachableVia StopWakes s ∧
    s.pc () = .uv (.poll true) ∧ s.stopFlag = true ∧ StopNotSlept s := by
  have h0 : system.ReachableVia StopWakes (initial : State Unit) := .initial rfl
  have h1 := h0.step (Action.call () .run) trivial rfl
  have h2 := h1.step (Action.thread ()) trivial rfl
  have h3 := h2.step (Action.thread ()) trivial rfl
  have h4 := h3.step (Action.thread ()) trivial rfl
  have h5 := h4.step (Action.thread ()) trivial rfl
  have h6 := h5.step (Action.thread ()) trivial rfl
  have h7 := h6.step Action.fire trivial rfl
  have h8 := h7.step Action.finish (fun _ _ => rfl) rfl
  exact ⟨_, h8, rfl, rfl, stop_not_slept h8⟩

def sleptFinish : List (Action Unit) :=
  [.call () .run, .thread (), .thread (), .thread (), .thread (), .thread (), .finish]

theorem stop_slept_polling : ¬ ∀ s : State Unit, system.Reachable s → StopNotSlept s := by
  intro hall
  have hrun : (system.exec (initial : State Unit) sleptFinish).map
      (fun s => (s.pc (), s.stopFlag, s.asyncSignal)) = some (.uv (.poll true), true, false) := by
    decide
  obtain ⟨s, hs, heq⟩ := Option.map_eq_some_iff.mp hrun
  simp only [Prod.mk.injEq] at heq
  obtain ⟨hpc, hstop, hsig⟩ := heq
  have hset := hall s (System.reachable_exec _ (.initial rfl) hs) () hpc hstop
  simp [hsig] at hset

end UvExec.Loop
