import UvExec.Execution.Exclusion

/-! # The waiting runners and the state of a `sync_wait`

Facts that hold in every run: where the owner of a linked or popped runner
stands, and what the progress of a wakeup says about its call. -/

namespace UvExec.Loop
open Lib
variable {C : Type} [DecidableEq C]

/-- Between `Runners.Add` and the matching `Runners.Erase`. -/
def Pc.linked : Pc C → Bool
  | .unlockWait | .wait _ | .relock | .erase => true
  | .idle | .steal | .lock | .running | .acquire | .runLocked | .uv _ | .relockRun | .wakeupNext _
  | .unlock | .add | .unlockLoop | .returned _ => false

/-- In `Wait` or about to take the mutex after it. -/
def Pc.waiting : Pc C → Bool
  | .wait _ | .relock => true
  | .idle | .steal | .lock | .running | .acquire | .runLocked | .uv _ | .relockRun | .wakeupNext _
  | .unlock | .add | .unlockWait | .erase | .unlockLoop | .returned _ => false

omit [DecidableEq C] in
@[simp] theorem notified_linked (p : Pc C) : p.notified.linked = p.linked :=
  notified_range Pc.linked (fun _ => rfl) p

omit [DecidableEq C] in
@[simp] theorem notified_waiting (p : Pc C) : p.notified.waiting = p.waiting :=
  notified_range Pc.waiting (fun _ => rfl) p

def NextPc.popped : NextPc C → Option C
  | .empty => none
  | .finished n | .fetchAdd n | .notify n => some n

structure QueueInv (s : State C) : Prop where
  nodup : s.runners.Nodup
  linked : ∀ c ∈ s.runners, (s.pc c).linked = true
  popped : ∀ d p n, s.pc d = .wakeupNext p → p.popped = some n →
    n ∉ s.runners ∧ (s.pc n).waiting = true

omit [DecidableEq C] in
/-- While another thread holds `RunMtx`, the owner of a linked runner is in
`Wait` or waits for the mutex. -/
theorem waiting_of_linked {s : State C} (hm : MtxInv s) {c n : C} (hc : (s.pc c).holds = true)
    (hl : (s.pc n).linked = true) (hcn : n ≠ c) : (s.pc n).waiting = true := by
  have hne : (s.pc n).holds ≠ true := fun hn => hcn (hm.eq_of_holds hn hc)
  cases hp : s.pc n <;> simp_all [Pc.linked, Pc.waiting, Pc.holds]

section
variable {s s' : State C} {c : C} {p : Pc C}

theorem QueueInv.move (hi : QueueInv s) (hq : s'.runners = s.runners)
    (hpc : s'.pc = Function.update s.pc c p) (hl : (s.pc c).linked = true → p.linked = true)
    (hw : (s.pc c).waiting = true → p.waiting = true)
    (hp : ∀ q n, p = .wakeupNext q → q.popped = some n →
      n ∉ s.runners ∧ (s.pc n).waiting = true) : QueueInv s' := by
  have hlinked := forall_move (P := fun d (q : Pc C) => (s.pc d).linked = true → q.linked = true)
    (fun _ => id) hl
  have hwaiting := forall_move (P := fun d (q : Pc C) => (s.pc d).waiting = true → q.waiting = true)
    (fun _ => id) hw
  have hpopped := forall_move (P := fun _ (q : Pc C) => ∀ r n, q = .wakeupNext r →
    r.popped = some n → n ∉ s.runners ∧ (s.pc n).waiting = true) (c := c) hi.popped hp
  refine ⟨hq ▸ hi.nodup, ?_, ?_⟩
  · intro d hd
    rw [hpc]
    exact hlinked d (hi.linked d (hq ▸ hd))
  · intro d r n hd hn
    rw [hpc] at hd ⊢
    rw [hq]
    exact ⟨(hpopped d r n hd hn).1, hwaiting n (hpopped d r n hd hn).2⟩

theorem QueueInv.notify (hi : QueueInv s) (hq : s'.runners = s.runners)
    (hpc : s'.pc = (s.notify c).pc) : QueueInv s' := by
  refine hi.move hq hpc ?_ ?_ fun q n hn => hi.popped c q n (eq_of_notified hn (by simp))
  · rw [notified_linked]
    exact id
  · rw [notified_waiting]
    exact id

/-- Nobody is in `WakeupNext` while no other thread holds the mutex. -/
theorem not_next_of_alone (hout : ∀ d, d ≠ c → (s.pc d).holds = false)
    (hp : ∀ q, p ≠ .wakeupNext q) (d : C) (q : NextPc C) :
    Function.update s.pc c p d ≠ .wakeupNext q := by
  intro hd
  have hno := hout d (ne_of_move hd (hp q))
  simp [eq_of_move hd (hp q), Pc.holds] at hno

end

theorem queueInv_step {s s' : State C} {a : Action C} (hm : MtxInv s) (hi : QueueInv s)
    (h : Step s a s') : QueueInv s' := by
  cases h with
  | add c hp =>
    have hnot : c ∉ s.runners := by
      intro hmem
      simpa [hp, Pc.linked] using hi.linked c hmem
    have hno := not_next_of_alone (c := c) (p := .unlockWait)
      (hm.others (by simp [hp, Pc.holds])) (by simp)
    refine ⟨List.nodup_cons.mpr ⟨hnot, hi.nodup⟩, ?_, fun d q n hd => (hno d q hd).elim⟩
    intro d hd
    rcases List.mem_cons.mp hd with rfl | hd
    · simp [Pc.linked]
    · have hdc : d ≠ c := fun heq => hnot (heq ▸ hd)
      simpa [hdc] using hi.linked d hd
  | erase c hp =>
    have hno := not_next_of_alone (c := c) (p := .unlockLoop)
      (hm.others (by simp [hp, Pc.holds])) (by simp)
    refine ⟨hi.nodup.erase c, ?_, fun d q n hd => (hno d q hd).elim⟩
    intro d hd
    have hdc := hi.nodup.mem_erase_iff.mp hd
    simpa [hdc.1] using hi.linked d hdc.2
  | relock c hp hfree =>
    have hno := not_next_of_alone (c := c) (p := .erase)
      (fun d _ => hm.not_holds hfree d) (by simp)
    refine ⟨hi.nodup, ?_, fun d q n hd => (hno d q hd).elim⟩
    exact fun d hd => forall_move (P := fun d (q : Pc C) => d ∈ s.runners → q.linked = true)
      hi.linked (fun _ => rfl) d hd
  | nextPop c n rest hp hq =>
    have hnodup := List.nodup_cons.mp (hq ▸ hi.nodup)
    have hnl := hi.linked n (by simp [hq])
    have hnc : n ≠ c := by
      rintro rfl
      simp [hp, Pc.linked] at hnl
    refine ⟨hnodup.2, ?_, ?_⟩
    · intro d hd
      have hdl := hi.linked d (by simp [hq, hd])
      have hdc : d ≠ c := by
        rintro rfl
        simp [hp, Pc.linked] at hdl
      simpa [hdc] using hdl
    · intro d q m hd hm'
      by_cases hdc : d = c
      · subst hdc
        simp only [Function.update_self, Pc.wakeupNext.injEq] at hd
        subst hd
        simp only [NextPc.popped, Option.some.injEq] at hm'
        subst hm'
        refine ⟨hnodup.1, ?_⟩
        simpa [hnc] using waiting_of_linked hm (by simp [hp, Pc.holds]) hnl hnc
      · -- only one thread is in `WakeupNext`
        have hno := hm.others (c := c) (by simp [hp, Pc.holds]) d hdc
        simp only [Function.update_of_ne hdc] at hd
        simp [hd, Pc.holds] at hno
  | nextTake c n hp | nextFetchAdd c n hp =>
    refine hi.move rfl rfl (by simp [hp, Pc.linked]) (by simp [hp, Pc.waiting]) ?_
    rintro _ m ⟨⟩ hm'
    exact hi.popped c _ m hp hm'
  | nextNotify c n hp =>
    have hn : QueueInv (s.notify n) := hi.notify rfl rfl
    refine hn.move rfl rfl ?_ ?_ (by simp)
    · rw [range_move Pc.linked (notified_linked _), hp]
      exact id
    · rw [range_move Pc.waiting (notified_waiting _), hp]
      exact id
  | wakeDone c hk | wakeAgain c k hk => exact hi.notify rfl rfl
  | complete | wakeAcquired | wakeFinishLoop | wakeStore | finish | fire =>
    exact ⟨hi.nodup, hi.linked, hi.popped⟩
  | nextSkip c n hp | notAcquired c hp | relockRun c hp =>
    exact hi.move rfl rfl (by simp [hp, Pc.linked]) (by simp [hp, Pc.waiting])
      (by rintro _ m ⟨⟩ ⟨⟩)
  | callSteal c hp | callLock c k hp | stealReturn c hp | stealLock c hp | lock c hp
  | runningAdd c hp | runningAcquire c hp | runningRun c hp | acquired c hp | runLocked c hp
  | uvTest c hp | uvCallbacks c hp | uvSignal c b hp | uvPoll c hp | uvEvent c hp | uvEvents c hp
  | uvExit c hp | nextEmpty c hp | unlockWait c hp | waitLoad c hp | waitAgain c w hp
  | waitLeave c w hp | waitBlock c w hp | waitReturn c w hp | spurious c w hp | unlock c hp
  | unlockLoop c hp =>
    exact hi.move rfl rfl (by simp [hp, Pc.linked]) (by simp [hp, Pc.waiting]) (by simp)

/-! ### The wakeup of a `sync_wait` -/

def WakePc.completed : WakePc → Bool
  | .idle | .pending => false
  | .acquired _ | .finishLoop _ | .store _ | .notify _ | .done => true

structure SyncInv (s : State C) : Prop where
  fresh : ∀ c, s.pc c = .idle → s.wake c = .idle ∧ s.finishCalled c = false ∧ s.runner c = {} ∧
    s.woken c = false
  idle : ∀ c, s.call c ≠ .syncWait → s.wake c = .idle
  steal : ∀ c, s.pc c = .steal ∨ s.pc c = .acquire → s.call c = .syncWait
  written : ∀ c, (s.wake c).completed = true → s.destination c ≠ .monostate
  completed : ∀ c, s.finishCalled c = true → (s.wake c).completed = true
  notified : ∀ c k, s.wake c = .notify k → s.finishCalled c = true
  acquired : ∀ c, (s.runner c).acq = true → s.call c = .syncWait

theorem idle_back {s s' : State C} {a : Action C} (h : Step s a s') {d : C}
    (hd : s'.pc d = .idle) : s.pc d = .idle := by
  cases h with
  | complete | wakeAcquired | wakeFinishLoop | wakeStore | finish | fire => exact hd
  | wakeDone | wakeAgain => exact eq_of_notify hd (by simp)
  | nextNotify => exact eq_of_notify (eq_of_move hd (by simp)) (by simp)
  | _ => exact eq_of_move hd (by simp)

theorem fresh_step {s s' : State C} {a : Action C} (hq : QueueInv s) (hi : SyncInv s)
    (h : Step s a s') : ∀ c, s'.pc c = .idle → s'.wake c = .idle ∧ s'.finishCalled c = false ∧
      s'.runner c = {} ∧ s'.woken c = false := by
  intro d hd
  have hold := idle_back h hd
  have hfresh := hi.fresh d hold
  cases h with
  | callSteal c hp | runningAdd c hp | runningAcquire c hp | runningRun c hp | acquired c hp
  | notAcquired c hp =>
    have hdc := ne_of_move hd (by simp)
    simpa [hdc] using hfresh
  | nextFetchAdd c n hp =>
    -- the owner of a popped runner is in `Wait`
    have hw := (hq.popped c _ n hp rfl).2
    have hdn : d ≠ n := by
      rintro rfl
      simp [hold, Pc.waiting] at hw
    simpa [hdn] using hfresh
  | complete c sig hk | wakeAcquired c k hk | wakeFinishLoop c k hk | wakeStore c k hk
  | wakeDone c hk | wakeAgain c k hk =>
    have hdc : d ≠ c := by
      rintro rfl
      simp [hfresh.1] at hk
    simpa [hdc] using hfresh
  | _ => exact hfresh

theorem idle_step {s s' : State C} {a : Action C} (hi : SyncInv s) (h : Step s a s') :
    ∀ c, s'.call c ≠ .syncWait → s'.wake c = .idle := by
  intro d hd
  cases h with
  | callSteal c hp =>
    have hdc : d ≠ c := by
      rintro rfl
      simp at hd
    simpa [hdc] using hi.idle d (by simpa [hdc] using hd)
  | callLock c k hp =>
    by_cases hdc : d = c
    · exact hdc ▸ (hi.fresh c hp).1
    · exact hi.idle d (by simpa [hdc] using hd)
  | complete c sig hk | wakeAcquired c k hk | wakeFinishLoop c k hk | wakeStore c k hk
  | wakeDone c hk | wakeAgain c k hk =>
    have hidle := hi.idle d hd
    have hdc : d ≠ c := by
      rintro rfl
      simp [hidle] at hk
    simpa [hdc] using hidle
  | _ => exact hi.idle d hd

theorem steal_step {s s' : State C} {a : Action C} (hi : SyncInv s) (h : Step s a s') :
    ∀ c, s'.pc c = .steal ∨ s'.pc c = .acquire → s'.call c = .syncWait := by
  intro d hd
  cases h with
  | callSteal c hp =>
    by_cases hdc : d = c
    · simp [hdc]
    · simpa [hdc] using hi.steal d (by simpa [hdc] using hd)
  | callLock c k hp =>
    have hdc : d ≠ c := by
      rintro rfl
      simp at hd
    simpa [hdc] using hi.steal d (by simpa [hdc] using hd)
  | runningAcquire c hp hrun hcall =>
    by_cases hdc : d = c
    · exact hdc ▸ hcall
    · exact hi.steal d (by simpa [hdc] using hd)
  | unlock c hp | unlockLoop c hp =>
    by_cases hdc : d = c
    · subst hdc
      simpa using hd
    · exact hi.steal d (by simpa [hdc] using hd)
  | nextNotify c n hp =>
    exact hi.steal d (hd.imp (fun h => eq_of_notify (eq_of_move h (by simp)) (by simp))
      fun h => eq_of_notify (eq_of_move h (by simp)) (by simp))
  | wakeDone | wakeAgain =>
    exact hi.steal d (hd.imp (eq_of_notify · (by simp)) (eq_of_notify · (by simp)))
  | complete | wakeAcquired | wakeFinishLoop | wakeStore | finish | fire => exact hi.steal d hd
  | _ => exact hi.steal d (hd.imp (eq_of_move · (by simp)) (eq_of_move · (by simp)))

theorem completed_wake {s s' : State C} {c : C} (h : Step s (.wake c) s') :
    ∀ d, (s'.wake d).completed = (s.wake d).completed := by
  cases h with
  | wakeAcquired c k hk =>
    refine range_move WakePc.completed ?_
    rw [hk]
    split <;> rfl
  | wakeFinishLoop c k hk | wakeStore c k hk | wakeDone c hk | wakeAgain c k hk =>
    exact range_move WakePc.completed (by simp [hk, WakePc.completed])

theorem written_step {s s' : State C} {a : Action C} (hi : SyncInv s) (h : Step s a s') :
    ∀ c, (s'.wake c).completed = true → s'.destination c ≠ .monostate := by
  intro d hd
  have hstep := h
  cases h with
  | callSteal c hp =>
    have hdc : d ≠ c := by
      rintro rfl
      simp [WakePc.completed] at hd
    exact hi.written d (by simpa [hdc] using hd)
  | complete c sig hk =>
    by_cases hdc : d = c
    · simpa [hdc] using emplaceResult_ne_monostate sig
    · simpa [hdc] using hi.written d (by simpa [hdc] using hd)
  | wakeAcquired | wakeFinishLoop | wakeStore | wakeDone | wakeAgain =>
    exact hi.written d ((completed_wake hstep d).symm.trans hd)
  | _ => exact hi.written d hd

theorem completed_step {s s' : State C} {a : Action C} (hi : SyncInv s) (h : Step s a s') :
    ∀ c, s'.finishCalled c = true → (s'.wake c).completed = true := by
  intro d hd
  have hstep := h
  cases h with
  | callSteal c hp =>
    have hdc : d ≠ c := by
      rintro rfl
      simp [(hi.fresh d hp).2.1] at hd
    simpa [hdc] using hi.completed d hd
  | complete c sig hk =>
    by_cases hdc : d = c
    · simp [hdc, WakePc.completed]
    · simpa [hdc] using hi.completed d hd
  | wakeStore c k hk =>
    by_cases hdc : d = c
    · simp [hdc, WakePc.completed]
    · simpa [hdc] using hi.completed d (by simpa [hdc] using hd)
  | wakeAcquired | wakeFinishLoop | wakeDone | wakeAgain =>
    exact (completed_wake hstep d).trans (hi.completed d hd)
  | _ => exact hi.completed d hd

theorem notify_step {s s' : State C} {a : Action C} (hi : SyncInv s) (h : Step s a s') :
    ∀ c k, s'.wake c = .notify k → s'.finishCalled c = true := by
  intro d j hd
  cases h with
  | callSteal | complete | wakeFinishLoop | wakeDone | wakeAgain =>
    exact hi.notified d j (eq_of_move hd (by simp))
  | wakeAcquired c k hk => exact hi.notified d j (eq_of_move hd (by split <;> simp))
  | wakeStore c k hk =>
    by_cases hdc : d = c
    · simp [hdc]
    · simpa [hdc] using hi.notified d j (by simpa [hdc] using hd)
  | _ => exact hi.notified d j hd

theorem acquired_step {s s' : State C} {a : Action C} (hi : SyncInv s) (h : Step s a s') :
    ∀ c, (s'.runner c).acq = true → s'.call c = .syncWait := by
  intro d hd
  cases h with
  | callSteal c hp =>
    by_cases hdc : d = c
    · simp [hdc]
    · simpa [hdc] using hi.acquired d hd
  | callLock c k hp =>
    have hdc : d ≠ c := by
      rintro rfl
      simp [(hi.fresh d hp).2.2.1] at hd
    simpa [hdc] using hi.acquired d hd
  | acquired c hp | notAcquired c hp =>
    by_cases hdc : d = c
    · exact hdc ▸ hi.steal c (Or.inr hp)
    · exact hi.acquired d (by simpa [hdc] using hd)
  | nextFetchAdd c n hp =>
    by_cases hdn : d = n
    · exact hdn ▸ hi.acquired n (by simpa [hdn] using hd)
    · exact hi.acquired d (by simpa [hdn] using hd)
  | wakeStore c k hk =>
    by_cases hdc : d = c
    · exact hdc ▸ hi.acquired c (by simpa [hdc] using hd)
    · exact hi.acquired d (by simpa [hdc] using hd)
  | _ => exact hi.acquired d hd

theorem syncInv_step {s s' : State C} {a : Action C} (hq : QueueInv s) (hi : SyncInv s)
    (h : Step s a s') : SyncInv s' where
  fresh := fresh_step hq hi h
  idle := idle_step hi h
  steal := steal_step hi h
  written := written_step hi h
  completed := completed_step hi h
  notified := notify_step hi h
  acquired := acquired_step hi h

omit [DecidableEq C] in
theorem queueInv_initial : QueueInv (initial : State C) := by
  constructor <;> simp [initial]

omit [DecidableEq C] in
theorem syncInv_initial : SyncInv (initial : State C) := by
  constructor <;> simp [initial, WakePc.completed]

theorem reachable_queueInv {s : State C} (h : system.Reachable s) : QueueInv s := by
  refine System.Reachable.invariant_of (fun _ hr => reachable_mtxInv hr) ?_ ?_ h
  · rintro _ rfl
    exact queueInv_initial
  · intro s a s' hm hi hs
    exact queueInv_step hm hi (step_cases hs)

theorem reachable_syncInv {s : State C} (h : system.Reachable s) : SyncInv s := by
  refine System.Reachable.invariant_of (fun _ hr => reachable_queueInv hr) ?_ ?_ h
  · rintro _ rfl
    exact syncInv_initial
  · intro s a s' hq hi hs
    exact syncInv_step hq hi (step_cases hs)

end UvExec.Loop
