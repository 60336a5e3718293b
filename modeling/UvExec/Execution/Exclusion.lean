import UvExec.Execution.Steps

/-! # Mutual exclusion of the loop's runs

`RunMtx` is held exactly at the program points inside a locked section, and
`Running` is the second, hand-written lock that outlives it. -/

namespace UvExec.Loop
open Lib
variable {C : Type} [DecidableEq C]

/-- Program points at which the thread holds `RunMtx`. -/
def Pc.holds : Pc C → Bool
  | .running | .acquire | .runLocked | .wakeupNext _ | .unlock | .add | .unlockWait | .erase
  | .unlockLoop => true
  | .idle | .steal | .lock | .uv _ | .relockRun | .wait _ | .relock | .returned _ => false

/-- Between the unlock and the re-lock in `RunLocked`. -/
def Pc.inRunLocked : Pc C → Bool
  | .uv _ | .relockRun => true
  | .idle | .steal | .lock | .running | .acquire | .runLocked | .wakeupNext _ | .unlock | .add
  | .unlockWait | .wait _ | .relock | .erase | .unlockLoop | .returned _ => false

omit [DecidableEq C] in
theorem notified_range {β : Type} (range : Pc C → β)
    (h : ∀ w, range (.wait (.wait w)) = range (.wait (.blocked w))) (p : Pc C) :
    range p.notified = range p := by
  unfold Pc.notified
  split
  · exact h _
  · rfl

omit [DecidableEq C] in
@[simp] theorem notified_holds (p : Pc C) : p.notified.holds = p.holds :=
  notified_range Pc.holds (fun _ => rfl) p

omit [DecidableEq C] in
@[simp] theorem notified_inRunLocked (p : Pc C) : p.notified.inRunLocked = p.inRunLocked :=
  notified_range Pc.inRunLocked (fun _ => rfl) p

omit [DecidableEq C] in
theorem notified_cases (p : Pc C) :
    p.notified = p ∨ ∃ w, p = .wait (.blocked w) ∧ p.notified = .wait (.wait w) := by
  unfold Pc.notified
  split
  · exact Or.inr ⟨_, rfl, rfl⟩
  · exact Or.inl rfl

omit [DecidableEq C] in
theorem eq_of_notified {p q : Pc C} (h : p.notified = q) (hq : ∀ w, q ≠ .wait (.wait w)) :
    p = q := by
  rcases notified_cases p with hp | ⟨w, -, hp⟩
  · exact hp.symm.trans h
  · exact (hq w (h.symm.trans hp)).elim

theorem eq_of_notify {s : State C} {c d : C} {q : Pc C} (h : (s.notify c).pc d = q)
    (hq : ∀ w, q ≠ .wait (.wait w)) : s.pc d = q := by
  by_cases hdc : d = c
  · subst hdc
    exact eq_of_notified (by simpa using h) hq
  · simpa [hdc] using h

section
variable {s : State C} {c : C} {p : Pc C}
omit [DecidableEq C]

@[simp] theorem afterRun_eq_iff : afterRun s c = p ↔
    s.call c = .syncWait ∧ .steal = p ∨ s.call c ≠ .syncWait ∧ .returned .values = p := by
  unfold afterRun
  split <;> simp [*]

@[simp] theorem afterWait_eq_iff : afterWait s c = p ↔
    s.call c = .syncWait ∧ .steal = p ∨ s.call c ≠ .syncWait ∧ .lock = p := by
  unfold afterWait
  split <;> simp [*]

theorem afterRun_range {β : Type} (range : Pc C → β) {b : β} (hs : range .steal = b)
    (hr : range (.returned .values) = b) : range (afterRun s c) = b := by
  unfold afterRun
  split
  · exact hs
  · exact hr

theorem afterWait_range {β : Type} (range : Pc C → β) {b : β} (hs : range .steal = b)
    (hl : range .lock = b) : range (afterWait s c) = b := by
  unfold afterWait
  split
  · exact hs
  · exact hl

end

def MtxInv (s : State C) : Prop := ∀ c, s.runMtx = some c ↔ (s.pc c).holds = true

section
variable {s s' : State C} {c : C} {p : Pc C}

/-- A free mutex has no thread in a locked section. -/
theorem MtxInv.lock (hi : MtxInv s) (hm : s.runMtx = none) (hp : p.holds = true) :
    MtxInv ({ s with runMtx := some c }.setPc c p) := by
  intro d
  by_cases hdc : d = c
  · subst hdc
    simp [hp]
  · simp [hdc, Ne.symm hdc, ← hi d, hm]

theorem MtxInv.unlock (hi : MtxInv s) (hc : (s.pc c).holds = true) (hp : p.holds = false) :
    MtxInv ({ s with runMtx := none }.setPc c p) := by
  intro d
  by_cases hdc : d = c
  · subst hdc
    simp [hp]
  · simp [hdc, ← hi d, (hi c).mpr hc, Ne.symm hdc]

theorem MtxInv.move (hi : MtxInv s) (hp : p.holds = (s.pc c).holds) : MtxInv (s.setPc c p) := by
  intro d
  rw [range_move Pc.holds hp d]
  exact hi d

omit [DecidableEq C] in
theorem MtxInv.not_holds (hm : MtxInv s) (hfree : s.runMtx = none) (d : C) :
    (s.pc d).holds = false := by
  by_contra hd
  have hheld := (hm d).mpr (by simpa using hd)
  simp [hfree] at hheld

omit [DecidableEq C] in
theorem MtxInv.eq_of_holds (hm : MtxInv s) {d : C} (hc : (s.pc c).holds = true)
    (hd : (s.pc d).holds = true) : c = d := by
  have h := (hm c).mpr hc
  rw [(hm d).mpr hd] at h
  exact (Option.some.inj h).symm

omit [DecidableEq C] in
theorem MtxInv.others (hm : MtxInv s) (hc : (s.pc c).holds = true) (d : C) (hdc : d ≠ c) :
    (s.pc d).holds = false := by
  by_contra hd
  exact hdc (hm.eq_of_holds (by simpa using hd) hc)

end

theorem mtxInv_step {s s' : State C} {a : Action C} (hi : MtxInv s) (h : Step s a s') :
    MtxInv s' := by
  cases h with
  | lock c hp hm | relockRun c hp hm | relock c hp hm => exact hi.lock hm rfl
  | runLocked c hp | unlockWait c hp => exact hi.unlock (by simp [hp, Pc.holds]) rfl
  | unlock c hp => exact hi.unlock (by simp [hp, Pc.holds]) (afterRun_range Pc.holds rfl rfl)
  | unlockLoop c hp => exact hi.unlock (by simp [hp, Pc.holds]) (afterWait_range Pc.holds rfl rfl)
  | nextNotify c n hp =>
    have hn : MtxInv (s.notify n) := hi.move (notified_holds _)
    refine hn.move ?_
    rw [range_move Pc.holds (notified_holds _), hp]
    rfl
  | wakeDone c hk | wakeAgain c k hk => exact hi.move (notified_holds _)
  | complete | wakeAcquired | wakeFinishLoop | wakeStore | finish | fire => exact hi
  | callSteal c hp | callLock c k hp | stealReturn c hp | stealLock c hp | runningAdd c hp
  | runningAcquire c hp | runningRun c hp | acquired c hp | notAcquired c hp | uvTest c hp
  | uvCallbacks c hp | uvSignal c b hp | uvPoll c hp | uvEvent c hp | uvEvents c hp | uvExit c hp
  | nextEmpty c hp | nextPop c n rest hp | nextSkip c n hp | nextTake c n hp
  | nextFetchAdd c n hp | add c hp | waitLoad c hp | waitAgain c w hp | waitLeave c w hp
  | waitBlock c w hp | waitReturn c w hp | erase c hp | spurious c w hp =>
    exact hi.move (by simp [hp, Pc.holds])

/-- `Running` outlives the mutex: it is true from the unlock to the re-lock. -/
structure RunInv (s : State C) : Prop where
  unique : ∀ c d, (s.pc c).inRunLocked = true → (s.pc d).inRunLocked = true → c = d
  running : ∀ c, (s.pc c).inRunLocked = true → s.running = true
  owner : s.running = true → ∃ c, (s.pc c).inRunLocked = true
  entering : ∀ c, s.pc c = .acquire ∨ s.pc c = .runLocked → s.running = false
  adding : ∀ c, s.pc c = .add → s.running = true

section
variable {s s' : State C} {c : C} {p : Pc C}

theorem RunInv.move (hi : RunInv s) (hrun : s'.running = s.running)
    (hpc : s'.pc = Function.update s.pc c p) (hin : p.inRunLocked = (s.pc c).inRunLocked)
    (hent : p = .acquire ∨ p = .runLocked → s.running = false)
    (hadd : p = .add → s.running = true) : RunInv s' := by
  have hrange := range_move Pc.inRunLocked hin
  refine ⟨?_, ?_, ?_, ?_, ?_⟩
  · intro d e hd he
    rw [hpc, hrange] at hd he
    exact hi.unique d e hd he
  · intro d hd
    rw [hpc, hrange] at hd
    exact hrun.trans (hi.running d hd)
  · intro hr
    obtain ⟨d, hd⟩ := hi.owner (hrun.symm.trans hr)
    refine ⟨d, ?_⟩
    rw [hpc, hrange]
    exact hd
  · rw [hpc, hrun]
    exact forall_move (P := fun _ (q : Pc C) => q = .acquire ∨ q = .runLocked → _) hi.entering hent
  · rw [hpc, hrun]
    exact forall_move (P := fun _ (q : Pc C) => q = .add → _) hi.adding hadd

theorem RunInv.notify (hi : RunInv s) (hrun : s'.running = s.running)
    (hpc : s'.pc = (s.notify c).pc) : RunInv s' := by
  refine hi.move hrun hpc (notified_inRunLocked _) ?_ ?_
  · rintro (hp | hp)
    · exact hi.entering c (Or.inl (eq_of_notified hp (by simp)))
    · exact hi.entering c (Or.inr (eq_of_notified hp (by simp)))
  · exact fun hp => hi.adding c (eq_of_notified hp (by simp))

/-- A thread enters only when `Running` is false, that is when nobody is inside. -/
theorem RunInv.enter (hm : MtxInv s) (hi : RunInv s) (hc : s.pc c = .runLocked)
    (hrun : s'.running = true) (hpc : s'.pc = Function.update s.pc c (.uv .test)) : RunInv s' := by
  have hno := hi.entering c (Or.inr hc)
  have hself : s'.pc c = .uv .test := by simp [hpc]
  have hother : ∀ d, d ≠ c → s'.pc d = s.pc d := by
    intro d hdc
    rw [hpc, Function.update_of_ne hdc]
  have hinside : ∀ d, (s'.pc d).inRunLocked = true → d = c := by
    intro d hd
    by_contra hdc
    rw [hother d hdc] at hd
    simp [hi.running d hd] at hno
  refine ⟨?_, fun _ _ => hrun, fun _ => ⟨c, by simp [hself, Pc.inRunLocked]⟩, ?_, fun _ _ => hrun⟩
  · intro d e hd he
    exact (hinside d hd).trans (hinside e he).symm
  · -- nor does another thread hold the mutex
    intro d hd
    have hdc : d ≠ c := by
      rintro rfl
      simp [hself] at hd
    rw [hother d hdc] at hd
    refine (hdc (hm.eq_of_holds ?_ (by simp [hc, Pc.holds]))).elim
    rcases hd with hd | hd <;> simp [hd, Pc.holds]

theorem RunInv.leave (hm : MtxInv s) (hi : RunInv s) (hc : s.pc c = .relockRun)
    (hfree : s.runMtx = none) (hrun : s'.running = false)
    (hpc : s'.pc = Function.update s.pc c (.wakeupNext .empty)) : RunInv s' := by
  have hself : s'.pc c = .wakeupNext .empty := by simp [hpc]
  have hother : ∀ d, d ≠ c → s'.pc d = s.pc d := by
    intro d hdc
    rw [hpc, Function.update_of_ne hdc]
  have hinside : ∀ d, (s'.pc d).inRunLocked ≠ true := by
    intro d hd
    have hdc : d ≠ c := by
      rintro rfl
      simp [hself, Pc.inRunLocked] at hd
    rw [hother d hdc] at hd
    exact hdc (hi.unique d c hd (by simp [hc, Pc.inRunLocked]))
  refine ⟨fun d _ hd => (hinside d hd).elim, fun d hd => (hinside d hd).elim, ?_, fun _ _ => hrun, ?_⟩
  · simp [hrun]
  · intro d hd
    have hdc : d ≠ c := by
      rintro rfl
      simp [hself] at hd
    rw [hother d hdc] at hd
    have hno := hm.not_holds hfree d
    simp [hd, Pc.holds] at hno

end

theorem runInv_step {s s' : State C} {a : Action C} (hm : MtxInv s) (hi : RunInv s)
    (h : Step s a s') : RunInv s' := by
  cases h with
  | runLocked c hp => exact RunInv.enter hm hi hp rfl rfl
  | relockRun c hp hfree => exact RunInv.leave hm hi hp hfree rfl rfl
  | runningAdd c hp hrun =>
    exact hi.move rfl rfl (by simp [hp, Pc.inRunLocked]) (by simp) (fun _ => hrun)
  | runningAcquire c hp hrun | runningRun c hp hrun =>
    exact hi.move rfl rfl (by simp [hp, Pc.inRunLocked]) (fun _ => hrun) (by simp)
  | acquired c hp =>
    exact hi.move rfl rfl (by simp [hp, Pc.inRunLocked]) (fun _ => hi.entering c (Or.inl hp)) (by simp)
  | unlock c hp =>
    have hout : (afterRun s c).inRunLocked = false := afterRun_range Pc.inRunLocked rfl rfl
    exact hi.move rfl rfl (by rw [hp, hout]; rfl) (by simp) (by simp)
  | unlockLoop c hp =>
    have hout : (afterWait s c).inRunLocked = false := afterWait_range Pc.inRunLocked rfl rfl
    exact hi.move rfl rfl (by rw [hp, hout]; rfl) (by simp) (by simp)
  | nextNotify c n hp =>
    have hn : RunInv (s.notify n) := hi.notify rfl rfl
    refine hn.move rfl rfl ?_ (by simp) (by simp)
    rw [range_move Pc.inRunLocked (notified_inRunLocked _), hp]
    rfl
  | wakeDone c hk | wakeAgain c k hk => exact hi.notify rfl rfl
  | complete | wakeAcquired | wakeFinishLoop | wakeStore | finish | fire =>
    exact ⟨hi.unique, hi.running, hi.owner, hi.entering, hi.adding⟩
  | callSteal c hp | callLock c k hp | stealReturn c hp | stealLock c hp | lock c hp
  | notAcquired c hp | uvTest c hp | uvCallbacks c hp | uvSignal c b hp | uvPoll c hp
  | uvEvent c hp | uvEvents c hp | uvExit c hp | nextEmpty c hp | nextPop c n rest hp
  | nextSkip c n hp | nextTake c n hp | nextFetchAdd c n hp | add c hp | unlockWait c hp
  | waitLoad c hp | waitAgain c w hp | waitLeave c w hp | waitBlock c w hp | waitReturn c w hp
  | relock c hp | erase c hp | spurious c w hp =>
    exact hi.move rfl rfl (by simp [hp, Pc.inRunLocked]) (by simp) (by simp)

omit [DecidableEq C] in
theorem mtxInv_initial : MtxInv (initial : State C) := by
  intro c
  simp [initial, Pc.holds]

omit [DecidableEq C] in
theorem runInv_initial : RunInv (initial : State C) := by
  constructor <;> simp [initial, Pc.inRunLocked]

theorem reachable_mtxInv {s : State C} (h : system.Reachable s) : MtxInv s := by
  refine System.Reachable.invariant ?_ ?_ h
  · rintro _ rfl
    exact mtxInv_initial
  · intro s a s' hi hs
    exact mtxInv_step hi (step_cases hs)

theorem reachable_runInv {s : State C} (h : system.Reachable s) : RunInv s := by
  refine System.Reachable.invariant_of (fun _ hr => reachable_mtxInv hr) ?_ ?_ h
  · rintro _ rfl
    exact runInv_initial
  · intro s a s' hm hi hs
    exact runInv_step hm hi (step_cases hs)

/-! ### What is guarded by `RunMtx` -/

/-- Statements that read or write `Running` or `Runners`, `WakeupNext` included. -/
def Pc.touchesRun : Pc C → Bool
  | .running | .runLocked | .relockRun | .wakeupNext _ | .add | .erase => true
  | _ => false

abbrev State.withRun (s : State C) (running : Bool) (runners : TRunnersQueue C) : State C :=
  { s with running := running, runners := runners }

/-- A step at any other statement neither reads nor writes them: it does the
same whatever they are, and leaves them as they are. -/
theorem step_withRun (s : State C) (a : Action C) (b : Bool) (q : TRunnersQueue C)
    (ha : ∀ c, a = .thread c → (s.pc c).touchesRun = false) :
    step (s.withRun b q) a = (step s a).map fun s' => s'.withRun b q := by
  cases a with
  | call c k =>
    simp only [step]
    split
    · split <;> rfl
    · rfl
  | thread c =>
    have hc := ha c rfl
    cases hp : s.pc c with
    | running | runLocked | relockRun | wakeupNext p | add | erase => simp [hp, Pc.touchesRun] at hc
    | lock | relock =>
      simp only [step, threadStep, acquireMtx, hp]
      split <;> rfl
    | uv p =>
      cases p with
      | poll b =>
        simp only [step, threadStep, uvStep, hp]
        split
        · rfl
        · split <;> rfl
      | _ => simp only [step, threadStep, uvStep, hp, Option.map_some]
    | wait p => cases p <;> simp only [step, threadStep, waitStep, hp, Option.map_some, Option.map_none]
    | _ => simp only [step, threadStep, hp, afterRun, afterWait, Option.map_some, Option.map_none]
  | event c =>
    simp only [step]
    split <;> simp_all
  | spurious c =>
    simp only [step]
    split <;> simp_all
  | complete c sig =>
    simp only [step]
    split <;> simp_all
  | wake c =>
    simp only [step, wakeStep]
    split <;> simp_all
  | finish => rfl
  | fire => rfl

/-- A statement that touches them is executed by a thread that holds `RunMtx`,
or that takes it with that statement. -/
theorem touchesRun_locked {s s' : State C} {c : C} (hm : MtxInv s) (ht : (s.pc c).touchesRun = true)
    (h : step s (.thread c) = some s') : s.runMtx = some c ∨ s.runMtx = none ∧ s'.runMtx = some c := by
  cases hp : s.pc c with
  | relockRun =>
    simp only [step, threadStep, hp, Option.map_eq_some_iff] at h
    obtain ⟨t, hl, rfl⟩ := h
    obtain ⟨hf, rfl⟩ := acquireMtx_some hl
    exact Or.inr ⟨hf, rfl⟩
  | running | runLocked | wakeupNext p | add | erase =>
    exact Or.inl ((hm c).mpr (by simp [hp, Pc.holds]))
  | _ => simp [hp, Pc.touchesRun] at ht

def InsideUvRun (s : State C) (c : C) : Prop := ∃ p, s.pc c = .uv p

omit [DecidableEq C] in
theorem InsideUvRun.inRunLocked {s : State C} {c : C} (h : InsideUvRun s c) :
    (s.pc c).inRunLocked = true := by
  obtain ⟨p, hp⟩ := h
  simp [hp, Pc.inRunLocked]

/-- The loop is run by one thread at a time, `Running` says exactly whether it
is run, and it is touched, as is the list of waiting runners, under `RunMtx`. -/
theorem run_exclusion {s : State C} (h : system.Reachable s) :
    (∀ c d, InsideUvRun s c → InsideUvRun s d → c = d) ∧
    (s.running = true ↔ ∃! c, (s.pc c).inRunLocked = true) ∧
    (∀ c s', (s.pc c).touchesRun = true → step s (.thread c) = some s' →
      s.runMtx = some c ∨ s.runMtx = none ∧ s'.runMtx = some c) ∧
    (∀ a b q, (∀ c, a = .thread c → (s.pc c).touchesRun = false) →
      step (s.withRun b q) a = (step s a).map fun s' => s'.withRun b q) := by
  have hi := reachable_runInv h
  refine ⟨?_, ?_, ?_, ?_⟩
  · intro c d hc hd
    exact hi.unique c d hc.inRunLocked hd.inRunLocked
  · constructor
    · intro hr
      obtain ⟨c, hc⟩ := hi.owner hr
      exact ⟨c, hc, fun d hd => hi.unique d c hd hc⟩
    · rintro ⟨c, hc, -⟩
      exact hi.running c hc
  · intro c s' ht hs
    exact touchesRun_locked (reachable_mtxInv h) ht hs
  · intro a b q ha
    exact step_withRun s a b q ha

theorem run_exclusion_two : ∃ s : State Bool, system.Reachable s ∧ InsideUvRun s false ∧
    s.pc true = .wait .load ∧ s.running = true ∧ ∃! c, (s.pc c).inRunLocked = true := by
  have h0 : system.Reachable (initial : State Bool) := .initial rfl
  have h1 := h0.step (Action.call false .run) rfl
  have h2 := h1.step (Action.thread false) rfl
  have h3 := h2.step (Action.thread false) rfl
  have h4 := h3.step (Action.thread false) rfl
  have h5 := h4.step (Action.call true .runOnce) rfl
  have h6 := h5.step (Action.thread true) rfl
  have h7 := h6.step (Action.thread true) rfl
  have h8 := h7.step (Action.thread true) rfl
  have h9 := h8.step (Action.thread true) rfl
  exact ⟨_, h9, ⟨.test, rfl⟩, rfl, rfl, (run_exclusion h9).2.1.mp rfl⟩

end UvExec.Loop
