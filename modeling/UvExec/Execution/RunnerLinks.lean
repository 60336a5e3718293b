import UvExec.Execution.Waiters
import UvExec.Util.IntrusiveList

/-! # The links of the waiting runners

The loop with the nodes of `Runners`. `WakeupNext` goes by the links alone; the
list of owners is history here. -/

namespace UvExec.Loop
open Lib

structure Linked (C : Type) extends State C where
  links : TIntrusiveList C := {}

namespace Linked
variable {C : Type} [DecidableEq C]

/-- The next turn of the loop in `WakeupNext`; a list with a head is not `Empty`. -/
def wakeupNext (s : Linked C) (c : C) : Linked C :=
  match s.links.pop with
  | none => { s with toState := s.setPc c .unlock }
  | some (n, l) =>
    { toState := { s with runners := s.runners.erase n }.setPc c (.wakeupNext (.finished n))
      links := l }

def nextLinks (s : Linked C) (c : C) : TIntrusiveList C :=
  match s.pc c with
  | .add => s.links.add c
  | .erase => s.links.erase c
  | _ => s.links

def step (s : Linked C) : Action C → Option (Linked C)
  | .thread c =>
    if s.pc c = .wakeupNext .empty then some (s.wakeupNext c)
    else (Loop.step s.toState (.thread c)).map fun t => { toState := t, links := s.nextLinks c }
  | a => (Loop.step s.toState a).map fun t => { s with toState := t }

def initial : Linked C := { toState := Loop.initial }

def system : System (Linked C) (Action C) where
  initial s := s = initial
  step := step

/-- The nodes form the list of `xs`, all of calls between `Add` and `Erase`. `Add`
is given a node without links, and `Erase` one that is in the list or has none.
A call that returns leaves its node without links, and `WakeupNext` takes the
nodes of calls that are in `Wait` or wait for the mutex. -/
structure RunnersKept (s : Linked C) (xs : List C) : Prop where
  links : s.links.Represents xs
  linked : ∀ c ∈ xs, (s.pc c).linked = true
  add : ∀ c, s.pc c = .add → s.links.Unlinked c
  erase : ∀ c, s.pc c = .erase → c ∈ xs ∨ s.links.Unlinked c
  returned : ∀ c r, s.pc c = .returned r → s.links.Unlinked c
  pops : ∀ c n l, s.pc c = .wakeupNext .empty → s.links.pop = some (n, l) → (s.pc n).waiting = true
  popped : ∀ c p n, s.pc c = .wakeupNext p → p.popped = some n → (s.pc n).waiting = true

/-! ### Steps -/

variable {s s' : Linked C} {t : State C} {a : Action C} {c : C}

theorem runners_of_environment {s : State C} (h : Step s a t) (ha : ∀ c, a ≠ .thread c) :
    t.runners = s.runners := by
  cases h with
  | callSteal | callLock | uvEvent | spurious | complete | wakeAcquired | wakeFinishLoop
  | wakeStore | wakeDone | wakeAgain | finish | fire => rfl
  | _ => exact (ha _ rfl).elim

/-- The links and the history of the list agree on the runner that is next. -/
theorem wakeupNext_eq (h : s.links.Represents s.runners) (hp : s.pc c = .wakeupNext .empty) :
    Loop.step s.toState (.thread c) = some (s.wakeupNext c).toState ∧
      (s.wakeupNext c).links.Represents (s.wakeupNext c).runners := by
  rcases h.pop with ⟨hnil, hpop⟩ | ⟨n, rest, hcons, hpop, hrest⟩
  · refine ⟨?_, ?_⟩
    · simp [Loop.step, threadStep, hp, wakeupNextStep, hnil, wakeupNext, hpop]
    · simpa [wakeupNext, hpop] using h
  · have herase : TRunnersQueue.erase (n :: rest) n = rest := List.erase_cons_head n rest
    refine ⟨?_, ?_⟩
    · simp [Loop.step, threadStep, hp, wakeupNextStep, wakeupNext, hpop, hcons, herase]
    · simpa [wakeupNext, hpop, hcons, herase] using hrest

theorem nextLinks_represents (h : s.links.Represents s.runners) (hq : QueueInv s.toState)
    (hp : s.pc c ≠ .wakeupNext .empty) (hs : Step s.toState (.thread c) t) :
    (s.nextLinks c).Represents t.runners := by
  cases hs with
  | add _ hpc =>
    have hnot : c ∉ s.runners := by
      intro hmem
      simpa [hpc, Pc.linked] using hq.linked c hmem
    simpa [nextLinks, hpc, TRunnersQueue.add] using h.add hnot
  | erase _ hpc => simpa [nextLinks, hpc, TRunnersQueue.erase] using h.erase c
  | nextEmpty _ hpc | nextPop _ n rest hpc => exact (hp hpc).elim
  | stealReturn _ hpc | stealLock _ hpc | lock _ hpc | runningAdd _ hpc | runningAcquire _ hpc
  | runningRun _ hpc | acquired _ hpc | notAcquired _ hpc | runLocked _ hpc | uvTest _ hpc
  | uvCallbacks _ hpc | uvSignal _ b hpc | uvPoll _ hpc | uvEvents _ hpc | uvExit _ hpc
  | relockRun _ hpc | nextSkip _ n hpc | nextTake _ n hpc | nextFetchAdd _ n hpc
  | nextNotify _ n hpc | unlock _ hpc | unlockWait _ hpc | waitLoad _ hpc | waitAgain _ w hpc
  | waitLeave _ w hpc | waitBlock _ w hpc | waitReturn _ w hpc | relock _ hpc
  | unlockLoop _ hpc =>
    simpa [nextLinks, hpc] using h

/-- The loop makes the same steps by the links as by the list. -/
structure LinksInv (s : Linked C) : Prop where
  loop : Loop.system.Reachable s.toState
  links : s.links.Represents s.runners

theorem step_environment (ha : ∀ c, a ≠ .thread c) :
    step s a = (Loop.step s.toState a).map fun t => { s with toState := t } := by
  cases a with
  | thread c => exact (ha c rfl).elim
  | _ => rfl

theorem linksInv_step (hi : LinksInv s) (h : step s a = some s') : LinksInv s' := by
  have hq := reachable_queueInv hi.loop
  by_cases hthread : ∃ c, a = .thread c
  · obtain ⟨c, rfl⟩ := hthread
    by_cases hp : s.pc c = .wakeupNext .empty
    · simp only [step, if_pos hp, Option.some.injEq] at h
      subst h
      obtain ⟨hstep, hlinks⟩ := wakeupNext_eq hi.links hp
      exact ⟨hi.loop.step (.thread c) hstep, hlinks⟩
    · simp only [step, if_neg hp] at h
      obtain ⟨t, ht, rfl⟩ := Option.map_eq_some_iff.mp h
      exact ⟨hi.loop.step (.thread c) ht, nextLinks_represents hi.links hq hp (step_cases ht)⟩
  · have ha := not_exists.mp hthread
    rw [step_environment ha] at h
    obtain ⟨t, ht, rfl⟩ := Option.map_eq_some_iff.mp h
    refine ⟨hi.loop.step a ht, ?_⟩
    simpa only [runners_of_environment (step_cases ht) ha] using hi.links

theorem reachable_linksInv (h : system.Reachable s) : LinksInv s := by
  refine System.Reachable.invariant ?_ ?_ h
  · rintro _ rfl
    exact ⟨.initial rfl, TIntrusiveList.Represents.initial⟩
  · exact fun s a s' hi hs => linksInv_step hi hs

/-- No run leaves the runner of a finished call behind. -/
theorem runners_kept (h : system.Reachable s) : ∃ xs, RunnersKept s xs := by
  obtain ⟨hloop, hlinks⟩ := reachable_linksInv h
  have hm := reachable_mtxInv hloop
  have hq := reachable_queueInv hloop
  have hnot : ∀ c, (s.pc c).linked = false → c ∉ s.runners := by
    intro c hc hmem
    simp [hq.linked c hmem] at hc
  refine ⟨s.runners, hlinks, hq.linked, ?_, ?_, ?_, ?_, ?_⟩
  · exact fun c hc => hlinks.unlinked (hnot c (by simp [hc, Pc.linked]))
  · exact fun c _ => (Classical.em (c ∈ s.runners)).imp_right hlinks.unlinked
  · exact fun c r hc => hlinks.unlinked (hnot c (by simp [hc, Pc.linked]))
  · intro c n l hc hpop
    rcases hlinks.pop with ⟨-, hnone⟩ | ⟨m, rest, hcons, hsome, -⟩
    · simp [hnone] at hpop
    · simp only [hsome, Option.some.injEq, Prod.mk.injEq] at hpop
      obtain ⟨rfl, -⟩ := hpop
      have hl := hq.linked m (by simp [hcons])
      have hne : m ≠ c := by
        rintro rfl
        simp [hc, Pc.linked] at hl
      exact waiting_of_linked hm (by simp [hc, Pc.holds]) hl hne
  · exact fun c p n hc hn => (hq.popped c p n hc hn).2

/-- The call `true` waits, is popped and woken, and comes to its own `Erase`. -/
def wokenRunner : List (Action Bool) :=
  [.call false .runOnce, .thread false, .thread false, .thread false, .call true .drain,
   .thread true, .thread true, .thread true, .thread true, .thread true,
   .thread false, .thread false, .event false, .thread false, .thread false, .thread false,
   -- `WakeupNext` and the unlock
   .thread false, .thread false, .thread false, .thread false, .thread false,
   .thread true, .thread true]

theorem runners_kept_woken : ∃ s : Linked Bool, system.Reachable s ∧ s.pc true = .erase ∧
    s.pc false = .returned .values ∧ s.links.head = none ∧ ∃ xs, RunnersKept s xs := by
  have hrun : (system.exec (initial : Linked Bool) wokenRunner).map
      (fun s => (s.pc true, s.pc false, s.links.head)) = some (.erase, .returned .values, none) := by
    decide
  obtain ⟨s, hs, heq⟩ := Option.map_eq_some_iff.mp hrun
  simp only [Prod.mk.injEq] at heq
  obtain ⟨hpc, hret, hhead⟩ := heq
  have hreach := System.reachable_exec _ (.initial rfl) hs
  exact ⟨s, hreach, hpc, hret, hhead, runners_kept hreach⟩

end Linked
end UvExec.Loop
