import UvExec.Algorithms.ReadUntil

/-! # Reading operations in runs that may refuse their start

A start that libuv refuses leaves the invariants of the others, for a stage of its
own that ends with the error. -/

namespace UvExec.ReadOp
open Lib
variable {κ α : Type} {k : OpState κ α} {s s' : State κ α} {a : Action α}

/-- An operation whose start libuv has refused. -/
structure Refused (s : State κ α) : Prop where
  op : s.op.Inv
  failing : (∃ err, s.pc = .startError err) ∧ s.completions = [] ∨
    s.pc = .idle ∧ ∃ err, s.completions = [.error err]
  unread : s.reading = false
  unregistered : s.op.token.callback = .absent
  unqueued : s.op.queued = 0
  untaken : s.op.taker = none

def Stage (s : State κ α) : Prop := RaceInv s ∨ Refused s

theorem refused_step (hi : Refused s) (h : Step k s a s') : Refused s' := by
  obtain ⟨hop, hpc, hread, habs, hq, hnone⟩ := hi
  cases h with
  | startError err hp =>
    have hnil : s.completions = [] := by
      rcases hpc with ⟨-, hnil⟩ | ⟨hidle, -⟩
      · exact hnil
      · simp [hp] at hidle
    exact ⟨hop, Or.inr ⟨rfl, err, by simp [hnil]⟩, hread, habs, hq, hnone⟩
  | requestStop => exact ⟨hop.requestStop, hpc, hread, s.op.requestStop_absent habs, hq, hnone⟩
  | callback op hs => exact ((TStopOperation.callbackStep_frame hs).1 habs).elim
  | read nrd addr hp hreading => simp [hread] at hreading
  | apply hp hpos => omega
  | startFailed e hp | start e hp | emplace hp | setup hp | setupDone hp | readCallback nrd addr hp
  | condition nrd addr hp | lost nrd addr hp | won nrd addr hp | reset nrd addr op hp
  | readStop nrd addr hp | resetUnsafe op hp | stopReadStop hp | complete d hp => simp [hp] at hpc

theorem refused_start {err : Int} (hr : RaceInv s) (hp : s.pc = .start)
    (hread : s.reading = false) : Refused ({ s with pc := .startError err } : State κ α) := by
  obtain ⟨hnone, habs, -⟩ := hr.early (by rw [hp]; rfl)
  refine ⟨hr.op, Or.inl ⟨⟨err, rfl⟩, hr.uncompleted (by simp [hp])⟩, hread, habs, ?_, hnone⟩
  by_contra hne
  have hstop := (hr.op.of_queued (Nat.pos_of_ne_zero hne)).1
  simp [hnone] at hstop

/-- Nothing that an operation keeps depends on the state of its condition. -/
theorem Stage.condition (hst : Stage s) (c : κ) : Stage { s with conditionState := c } := by
  rcases hst with hr | hf
  · exact Or.inl ⟨hr.op, hr.failed, hr.early, hr.won, hr.lost, hr.taken, hr.queued, hr.complete,
      hr.completed, hr.outcome, hr.once, hr.applied, hr.receiver⟩
  · exact Or.inr ⟨hf.op, hf.failing, hf.unread, hf.unregistered, hf.unqueued, hf.untaken⟩

theorem raceInv_initial (c : κ) : RaceInv ({ conditionState := c } : State κ α) :=
  reachable_raceInv (.initial ⟨c, rfl⟩ : (system .readSome).ReachableVia Started _)

theorem stage_initial (c : κ) : Stage ({ conditionState := c } : State κ α) :=
  Or.inl (raceInv_initial c)

theorem stage_step (hst : Stage s) (hun : s.pc = .start → s.reading = false) (h : Step k s a s') :
    Stage s' := by
  rcases hst with hr | hf
  · by_cases hok : Started s a
    · exact Or.inl (raceInv_step hr hok h)
    · right
      cases h with
      | startFailed err hp he => exact refused_start hr hp (hun hp)
      | start err hp he => exact (hok he).elim
      | _ => exact (hok trivial).elim
  · exact Or.inr (refused_step hf h)

theorem Stage.uncompleted (hst : Stage s) (hp : s.pc ≠ .idle) : s.completions = [] := by
  rcases hst with hr | hf
  · exact hr.uncompleted hp
  · rcases hf.failing with ⟨-, hnil⟩ | ⟨hidle, -⟩
    · exact hnil
    · exact (hp hidle).elim

theorem Stage.uncompleted_of_reading (hst : Stage s) (hread : s.reading = true) : s.completions = [] := by
  rcases hst with hr | hf
  · by_contra hne
    simp [(hr.completed hne).2] at hread
  · simp [hf.unread] at hread

/-- A callback that finds the flag taken has lost to the stop callback. -/
theorem Stage.stop_of_used (hst : Stage s) (hp : s.pc.racing = true) (hu : s.op.used = true) :
    s.op.taker = some .stop := by
  rcases hst with hr | hf
  · exact Watched.stop_of_taken (s := { s with }) hr hp hu
  · rcases hf.failing with ⟨⟨err, hfail⟩, -⟩ | ⟨hidle, -⟩
    · simp [hfail, Pc.racing] at hp
    · simp [hidle, Pc.racing] at hp

theorem Stage.taker_of_complete {c : Completion ℕ} (hst : Stage s) (hp : s.pc = .complete c) :
    s.op.taker = some c.taker := by
  rcases hst with hr | hf
  · exact (hr.complete c hp).2.2
  · rcases hf.failing with ⟨⟨err, hfail⟩, -⟩ | ⟨hidle, -⟩
    · simp [hfail] at hp
    · simp [hidle] at hp

/-- An operation whose flag the stop callback took has completed with that. -/
theorem Stage.completions_of_stop (hst : Stage s) (hcomp : s.completions ≠ [])
    (hstop : s.op.taker = some .stop) : s.completions = [.stopped] := by
  rcases hst with hr | hf
  · obtain ⟨c, hc⟩ := List.length_eq_one_iff.mp
      (Nat.le_antisymm hr.once (List.length_pos_iff.mpr hcomp))
    have htaker := hr.outcome c (by simp [hc])
    rw [hstop] at htaker
    have hstopped : c = .stopped := by
      cases c with
      | stopped => rfl
      | value n => cases htaker
      | error err => cases htaker
    rw [hstopped] at hc
    exact hc
  · have hnone := hf.untaken
    simp [hstop] at hnone

end UvExec.ReadOp
