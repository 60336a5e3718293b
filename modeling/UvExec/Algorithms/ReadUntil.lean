import UvExec.Algorithms.ReadCompletion
import Mathlib.Algebra.BigOperators.Group.List.Basic
import Mathlib.Algebra.GroupWithZero.Nat

/-! # What `read_until` asks and what it reports

Its condition may keep a state, and sees the length of each chunk. -/

namespace UvExec.ReadOp
open Lib

/-! ### Conditions -/

section
variable {κ : Type} (cond : κ → ℕ → Bool × κ)

/-- The state of the condition after it has been called for the chunks. -/
def condAfter (c : κ) : List ℕ → κ
  | [] => c
  | n :: ns => condAfter (cond c n).2 ns

/-- The condition was false on each of the chunks. -/
def Wanting (c : κ) : List ℕ → Prop
  | [] => True
  | n :: ns => (cond c n).1 = false ∧ Wanting (cond c n).2 ns

/-- The chunks end with a callback that carried `nrd`: an error or the end of the
stream, or the chunk on which the condition was true for the first time. -/
def Deciding (c : κ) (chunks : List ℕ) (nrd : Int) : Prop :=
  nrd < 0 ∧ Wanting cond c chunks ∨ 0 < nrd ∧ ∃ before, chunks = before ++ [nrd.toNat] ∧
    Wanting cond c before ∧ (cond (condAfter cond c before) nrd.toNat).1 = true

variable {cond} {c : κ} {n : ℕ} {ns : List ℕ}

theorem condAfter_append :
    condAfter cond c (ns ++ [n]) = (cond (condAfter cond c ns) n).2 := by
  induction ns generalizing c with
  | nil => rfl
  | cons m ns ih => exact ih

theorem Wanting.append (h : Wanting cond c ns) (hn : (cond (condAfter cond c ns) n).1 = false) :
    Wanting cond c (ns ++ [n]) := by
  induction ns generalizing c with
  | nil => exact ⟨hn, trivial⟩
  | cons m ns ih => exact ⟨h.1, ih h.2 hn⟩

end

/-- The positive ones of the lengths that callbacks have carried. -/
def positive (lengths : List Int) : List ℕ := (lengths.filter (0 < ·)).map Int.toNat

theorem positive_append (lengths : List Int) (nrd : Int) :
    positive (lengths ++ [nrd]) = positive lengths ++ positive [nrd] := by
  simp [positive]

theorem positive_of_pos {nrd : Int} (h : 0 < nrd) : positive [nrd] = [nrd.toNat] := by
  simp [positive, h]

theorem positive_of_not_pos {nrd : Int} (h : ¬0 < nrd) : positive [nrd] = [] := by
  simp [positive, h]

/-- What a callback that carried `nrd` completes the receiver with. -/
def verdict (nrd : Int) (total : ℕ) : Completion ℕ :=
  if nrd < 0 ∧ nrd ≠ uvEof then .error nrd else .value total

/-! ### Points of a read callback -/

section
variable {α : Type}

/-- What the callback that the thread is in carries. -/
def Pc.carried : Pc α → Option Int
  | .readCallback nrd _ | .condition nrd _ | .testAndSet nrd _ | .reset nrd _ | .readStop nrd _ =>
    some nrd
  | .start | .startError _ | .emplace | .setup | .setupDone | .idle | .resetUnsafe | .stopReadStop
  | .complete _ => none

/-- What the callback carries that is past its decision. -/
def Pc.settled : Pc α → Option Int
  | .testAndSet nrd _ | .reset nrd _ | .readStop nrd _ => some nrd
  | .start | .startError _ | .emplace | .setup | .setupDone | .idle | .readCallback _ _
  | .condition _ _ | .resetUnsafe | .stopReadStop | .complete _ => none

/-- What the callback carries that has taken the flag. -/
def Pc.winner : Pc α → Option Int
  | .reset nrd _ | .readStop nrd _ => some nrd
  | .start | .startError _ | .emplace | .setup | .setupDone | .idle | .readCallback _ _
  | .condition _ _ | .testAndSet _ _ | .resetUnsafe | .stopReadStop | .complete _ => none

/-- Outside of a read callback, and before the completion is chosen. -/
def Pc.plain : Pc α → Bool
  | .startError _ | .emplace | .setup | .setupDone | .idle | .resetUnsafe | .stopReadStop =>
    true
  | .start | .readCallback _ _ | .condition _ _ | .testAndSet _ _ | .reset _ _ | .readStop _ _
  | .complete _ => false

end

/-! ### The callbacks of a run -/

/-- An operation with what its callbacks carried and what its condition was called
with. `late` tells of the last callback that it began when the flag was taken or
the operation completed, and `chunks` are the positive lengths of the callbacks
that found the flag free. -/
structure Watched (κ α : Type) extends State κ α where
  lengths : List Int := []
  late : Bool := false
  chunks : List ℕ := []
  calls : List (ℕ × Bool) := []
  decider : Option Int := none
  refused : Option Int := none

namespace Watched
variable {κ α : Type}

def nextLengths (s : Watched κ α) : Action α → List Int
  | .read nrd _ => s.lengths ++ [nrd]
  | .start _ | .loop | .apply | .requestStop | .callback => s.lengths

def nextLate (s : Watched κ α) : Action α → Bool
  | .read _ _ => s.op.used || !s.completions.isEmpty
  | .start _ | .loop | .apply | .requestStop | .callback => s.late

def nextChunks (s : Watched κ α) : Action α → List ℕ
  | .loop =>
    match s.pc with
    | .readCallback nrd _ => if s.op.used then s.chunks else s.chunks ++ positive [nrd]
    | _ => s.chunks
  | .start _ | .read _ _ | .apply | .requestStop | .callback => s.chunks

/- The condition is called with positive lengths only. -/
def nextCalls (s : Watched κ α) : Action α → List (ℕ × Bool)
  | .loop =>
    match s.pc with
    | .condition nrd _ => s.calls ++ (positive [nrd]).map fun n => (n, s.late)
    | _ => s.calls
  | .start _ | .read _ _ | .apply | .requestStop | .callback => s.calls

def nextDecider (s : Watched κ α) : Action α → Option Int
  | .loop =>
    match s.pc with
    | .testAndSet nrd _ => if s.op.used then s.decider else some nrd
    | _ => s.decider
  | .start _ | .read _ _ | .apply | .requestStop | .callback => s.decider

def nextRefused (s : Watched κ α) : Action α → Option Int
  | .start err => if isError err then some err else s.refused
  | .loop | .read _ _ | .apply | .requestStop | .callback => s.refused

def step (k : OpState κ α) (s : Watched κ α) (a : Action α) : Option (Watched κ α) :=
  (ReadOp.step k s.toState a).map fun t =>
    { toState := t
      lengths := s.nextLengths a
      late := s.nextLate a
      chunks := s.nextChunks a
      calls := s.nextCalls a
      decider := s.nextDecider a
      refused := s.nextRefused a }

def system (k : OpState κ α) : System (Watched κ α) (Action α) where
  initial s := ∃ c, s = { conditionState := c }
  step := step k

/-- The chunk that the condition is being called for. -/
def asked (s : Watched κ α) : List ℕ :=
  match s.pc with
  | .condition nrd _ => positive [nrd]
  | _ => []

/-- The chunk whose callback has not looked at the flag. -/
def unchecked (s : Watched κ α) : List ℕ :=
  match s.pc with
  | .readCallback nrd _ => positive [nrd]
  | _ => []

/-- The condition is asked about each chunk in its order, the receiver is told of
all that was delivered up to the chunk that was enough, or up to the end of the
stream, and of an error where the callback that decided carried one. `ReadTotal`
is a `std::size_t` with `size` values. While the flag is free no callback that
has ended carried an error, the end or a chunk that was enough. -/
structure ReadsUntil (size : ℕ) (cond : κ → ℕ → Bool × κ) (c : κ) (s : Watched κ α) : Prop where
  asked : s.conditionState = condAfter cond c (s.calls.map Prod.fst)
  called : s.calls.map Prod.fst ++ s.asked = s.chunks
  timely : ∀ call ∈ s.calls, call.2 = false
  chunks : s.chunks <+: positive s.lengths
  untaken : s.op.used = false → s.chunks ++ s.unchecked = positive s.lengths
  undecided : s.refused = none → s.pc = .idle → s.op.used = false → s.completions = [] ∧
    Wanting cond c (positive s.lengths) ∧ ∀ nrd ∈ s.lengths, 0 ≤ nrd
  decided : s.pc = .idle → s.op.taker = some .completion → ∃ nrd, s.decider = some nrd ∧
    s.completions = [verdict nrd ((positive s.lengths).sum % size)]
  value : ∀ n, .value n ∈ s.completions → n = (positive s.lengths).sum % size ∧
    ∃ nrd, s.lengths.getLast? = some nrd ∧ (0 < nrd ∨ nrd = uvEof) ∧
      Deciding cond c (positive s.lengths) nrd
  error : s.refused = none → ∀ e, .error e ∈ s.completions ↔
    s.completions ≠ [] ∧ s.decider = some e ∧ e < 0 ∧ e ≠ uvEof
  refused : ∀ err, s.refused = some err → s.lengths = [] ∧ ∀ d ∈ s.completions, d = .error err

/-- A step of the operation, with its history. -/
structure Stepped (k : OpState κ α) (s : Watched κ α) (a : Action α) (s' : Watched κ α) : Prop where
  step : Step k s.toState a s'.toState
  lengths : s'.lengths = s.nextLengths a
  late : s'.late = s.nextLate a
  chunks : s'.chunks = s.nextChunks a
  calls : s'.calls = s.nextCalls a
  decider : s'.decider = s.nextDecider a
  refused : s'.refused = s.nextRefused a

theorem step_cases {k : OpState κ α} {s s' : Watched κ α} {a : Action α}
    (h : step k s a = some s') : Stepped k s a s' := by
  obtain ⟨t, ht, rfl⟩ := Option.map_eq_some_iff.mp h
  exact ⟨ReadOp.step_cases ht, rfl, rfl, rfl, rfl, rfl, rfl⟩

/-! ### While no start has been refused -/

/-- The history is that of `s`. -/
abbrev move (s : Watched κ α) (t : State κ α) : Watched κ α := { s with toState := t }

def asks (s : Watched κ α) : List ℕ := s.calls.map Prod.fst

/-- The completion `d` was chosen by a callback. -/
structure Chosen (size : ℕ) (cond : κ → ℕ → Bool × κ) (c : κ) (s : Watched κ α) (d : Completion ℕ)
    (nrd : Int) : Prop where
  decider : s.decider = some nrd
  last : s.lengths.getLast? = some nrd
  deciding : Deciding cond c s.asks nrd
  verdict : d = verdict nrd (s.asks.sum % size)

structure WatchInv (size : ℕ) (cond : κ → ℕ → Bool × κ) (c : κ) (s : Watched κ α) : Prop where
  state : s.conditionState = condAfter cond c s.asks
  total : s.readTotal = s.asks.sum % size
  called : s.asks ++ s.asked = s.chunks
  timely : ∀ call ∈ s.calls, call.2 = false
  chunks : s.chunks <+: positive s.lengths
  delivered : s.op.taker ≠ some .stop → s.chunks ++ s.unchecked = positive s.lengths
  late : ∀ nrd addr, s.pc = .readCallback nrd addr → s.late = true → s.op.taker ≠ none
  prompt : ∀ nrd addr, s.pc = .condition nrd addr → s.late = false
  last : ∀ nrd, s.pc.carried = some nrd → s.lengths.getLast? = some nrd
  wanting : (∃ nrd addr, s.pc = .condition nrd addr) ∨ s.op.taker = none ∧ s.pc.settled = none →
    Wanting cond c s.asks
  deciding : ∀ nrd, s.pc.settled = some nrd → Deciding cond c s.asks nrd
  decider : ∀ nrd, s.pc.winner = some nrd → s.decider = some nrd
  chosen : ∀ d, s.pc = .complete d ∨ d ∈ s.completions → d ≠ .stopped → ∃ nrd, Chosen size cond c s d nrd
  taken : s.decider ≠ none → s.op.taker = some .completion
  unrefused : s.refused = none
  unstarted : s.pc = .start → s.reading = false ∧ s.lengths = []

section
variable {size : ℕ} {cond : κ → ℕ → Bool × κ} {c : κ} {s s' : Watched κ α} {nrd : Int} {addr : Option α}

theorem asked_of_plain (hp : s.pc.plain = true) : s.asked = [] := by
  unfold asked
  split
  next h => simp [h, Pc.plain] at hp
  next => rfl

theorem unchecked_of_plain (hp : s.pc.plain = true) : s.unchecked = [] := by
  unfold unchecked
  split
  next h => simp [h, Pc.plain] at hp
  next => rfl

/-- A step that leaves the history as it is and does not lead into a callback. -/
theorem WatchInv.plain {t : State κ α} (hi : WatchInv size cond c s) (hp : t.pc.plain = true)
    (hcond : t.conditionState = s.conditionState) (htotal : t.readTotal = s.readTotal)
    (hcomp : t.completions = s.completions) (htaker : t.op.taker = s.op.taker)
    (hasked : s.asked = []) (hunchecked : s.op.taker ≠ some .stop → s.unchecked = [])
    (hsettled : s.op.taker = none → s.pc.settled = none) : WatchInv size cond c (s.move t) where
  state := hcond.trans hi.state
  total := htotal.trans hi.total
  called := by
    rw [asked_of_plain hp, ← hasked]
    exact hi.called
  timely := hi.timely
  chunks := hi.chunks
  delivered hne := by
    have hold : s.op.taker ≠ some .stop := htaker ▸ hne
    rw [unchecked_of_plain hp, ← hunchecked hold]
    exact hi.delivered hold
  late nrd addr hpc := by
    simp only at hpc
    simp [hpc, Pc.plain] at hp
  prompt nrd addr hpc := by
    simp only at hpc
    simp [hpc, Pc.plain] at hp
  last nrd hpc := by
    simp only at hpc
    cases ht : t.pc <;> simp [ht, Pc.carried, Pc.plain] at hpc hp
  wanting hor := by
    rcases hor with ⟨nrd, addr, hpc⟩ | ⟨hnone, -⟩
    · simp only at hpc
      simp [hpc, Pc.plain] at hp
    · have hold : s.op.taker = none := htaker.symm.trans hnone
      exact hi.wanting (Or.inr ⟨hold, hsettled hold⟩)
  deciding nrd hpc := by
    simp only at hpc
    cases ht : t.pc <;> simp [ht, Pc.settled, Pc.plain] at hpc hp
  decider nrd hpc := by
    simp only at hpc
    cases ht : t.pc <;> simp [ht, Pc.winner, Pc.plain] at hpc hp
  chosen d hd hne := by
    rcases hd with hpc | hmem
    · simp only at hpc
      simp [hpc, Pc.plain] at hp
    · obtain ⟨nrd, hch⟩ := hi.chosen d (Or.inr (hcomp ▸ hmem)) hne
      exact ⟨nrd, hch.decider, hch.last, hch.deciding, hch.verdict⟩
  taken hne := htaker.trans (hi.taken hne)
  unrefused := hi.unrefused
  unstarted h := by
    simp only at h
    simp [h, Pc.plain] at hp

theorem WatchInv.foreign {op : TStopOperation} (hi : WatchInv size cond c s) (hf : s.op.Foreign op) :
    WatchInv size cond c (s.move { s.toState with op := op }) where
  state := hi.state
  total := hi.total
  called := hi.called
  timely := hi.timely
  chunks := hi.chunks
  delivered hne := by
    rcases hf.taker with heq | ⟨-, hstop, -⟩
    · exact hi.delivered (heq ▸ hne)
    · exact (hne hstop).elim
  late nrd addr hpc hl := by
    obtain ⟨t, ht⟩ := Option.ne_none_iff_exists'.mp (hi.late nrd addr hpc hl)
    simp [hf.taker_some ht]
  prompt := hi.prompt
  last := hi.last
  wanting hor := by
    refine hi.wanting (hor.imp_right fun ⟨hnone, hp⟩ => ⟨?_, hp⟩)
    rcases hf.taker with heq | ⟨hold, -, -⟩
    · exact heq.symm.trans hnone
    · exact hold
  deciding := hi.deciding
  decider := hi.decider
  chosen d hd hne := by
    obtain ⟨nrd, hch⟩ := hi.chosen d hd hne
    exact ⟨nrd, hch.decider, hch.last, hch.deciding, hch.verdict⟩
  taken hne := hf.taker_some (hi.taken hne)
  unrefused := hi.unrefused
  unstarted := hi.unstarted

/-- Inside of a callback nobody but the stop callback can have taken the flag. -/
theorem stop_of_taken (hr : RaceInv s.toState) (hp : s.pc.racing = true) (hu : s.op.used = true) :
    s.op.taker = some .stop := by
  cases ht : s.op.taker with
  | none => exact (hr.op.used.mp hu ht).elim
  | some t =>
    cases t with
    | stop => rfl
    | completion =>
      rcases hr.taken ht with h | h
      · cases hpc : s.pc <;> simp [hpc, Pc.racing, Pc.won] at hp h
      · exact (hr.unsettled hp (Or.inr h)).elim

theorem WatchInv.ignore (hi : WatchInv size cond c s) (hr : RaceInv s.toState)
    (hp : s.pc = .readCallback nrd addr) (hu : s.op.used = true) :
    WatchInv size cond c (s.move { s.toState with pc := .idle }) := by
  have hstop := stop_of_taken hr (by rw [hp]; rfl) hu
  exact hi.plain rfl rfl rfl rfl rfl (by rw [asked, hp]) (fun hne => (hne hstop).elim)
    (fun hnone => by simp [hstop] at hnone)

theorem WatchInv.look (hi : WatchInv size cond c s) (hr : RaceInv s.toState)
    (hp : s.pc = .readCallback nrd addr) (hu : s.op.used = false) :
    WatchInv size cond c
      { s.move { s.toState with pc := .condition nrd addr } with
        chunks := s.chunks ++ positive [nrd] } := by
  have hnone := hr.op.taker_none hu
  have hasked : s.asked = [] := by rw [asked, hp]
  have hunchecked : s.unchecked = positive [nrd] := by rw [unchecked, hp]
  have hall : s.chunks ++ positive [nrd] = positive s.lengths := by
    rw [← hunchecked]
    exact hi.delivered (by simp [hnone])
  have hcalled := hi.called
  rw [hasked, List.append_nil] at hcalled
  refine ⟨hi.state, hi.total, ?_, hi.timely, ?_, fun _ => ?_, by simp, fun _ _ _ => ?_, fun m h => ?_,
    fun _ => ?_, by simp [Pc.settled], by simp [Pc.winner], fun d hd hne => ?_, hi.taken, hi.unrefused, by simp⟩
  · exact congrArg (· ++ positive [nrd]) hcalled
  · exact hall ▸ List.prefix_rfl
  · exact (List.append_nil _).trans hall
  · cases hl : s.late with
    | false => rfl
    | true => exact (hi.late _ _ hp hl hnone).elim
  · exact hi.last m (by rw [hp]; exact h)
  · exact hi.wanting (Or.inr ⟨hnone, by rw [hp]; rfl⟩)
  · rcases hd with h | hmem
    · cases h
    · obtain ⟨m, hch⟩ := hi.chosen d (Or.inr hmem) hne
      exact ⟨m, hch.decider, hch.last, hch.deciding, hch.verdict⟩

/-- The callback has called the condition, if it carried a chunk, and goes on or is
over. -/
theorem WatchInv.answer {p : Pc α} {st : κ} {total : ℕ} (hi : WatchInv size cond c s) (hr : RaceInv s.toState)
    (hp : s.pc = .condition nrd addr) (hstate : st = condAfter cond c (s.asks ++ positive [nrd]))
    (htotal : total = (s.asks ++ positive [nrd]).sum % size)
    (hout : p = .testAndSet nrd addr ∧ Deciding cond c (s.asks ++ positive [nrd]) nrd ∨
      p = .idle ∧ Wanting cond c (s.asks ++ positive [nrd])) :
    WatchInv size cond c
      { s.move { s.toState with pc := p, conditionState := st, readTotal := total } with
        calls := s.calls ++ (positive [nrd]).map fun n => (n, s.late) } := by
  have hasks (t : Watched κ α) (ht : t.calls = s.calls ++ (positive [nrd]).map fun n => (n, s.late)) :
      t.asks = s.asks ++ positive [nrd] := by
    simp [asks, ht, Function.comp_def]
  have hunchecked : s.unchecked = [] := by rw [unchecked, hp]
  have hall := hi.called
  have hdel := hi.delivered
  rw [asked, hp] at hall
  rw [hunchecked] at hdel
  refine ⟨?_, ?_, ?_, ?_, hi.chunks, ?_, ?_, ?_, ?_, ?_, ?_, ?_, ?_, hi.taken, hi.unrefused, ?_⟩
  · rw [hasks _ rfl]
    exact hstate
  · rw [hasks _ rfl]
    exact htotal
  · rw [hasks _ rfl]
    rcases hout with ⟨rfl, -⟩ | ⟨rfl, -⟩
    · exact (List.append_nil _).trans hall
    · exact (List.append_nil _).trans hall
  · intro call hmem
    rcases List.mem_append.mp hmem with hold | hnew
    · exact hi.timely call hold
    · obtain ⟨n, -, rfl⟩ := List.mem_map.mp hnew
      exact hi.prompt nrd addr hp
  · rcases hout with ⟨rfl, -⟩ | ⟨rfl, -⟩
    · exact hdel
    · exact hdel
  · rcases hout with ⟨rfl, -⟩ | ⟨rfl, -⟩ <;> simp
  · rcases hout with ⟨rfl, -⟩ | ⟨rfl, -⟩ <;> simp
  · intro m hm
    rcases hout with ⟨rfl, -⟩ | ⟨rfl, -⟩
    · exact hi.last m (by rw [hp]; exact hm)
    · cases hm
  · rw [hasks _ rfl]
    rcases hout with ⟨rfl, -⟩ | ⟨rfl, hw⟩
    · simp [Pc.settled]
    · exact fun _ => hw
  · rw [hasks _ rfl]
    intro m hm
    rcases hout with ⟨rfl, hd⟩ | ⟨rfl, -⟩
    · cases hm
      exact hd
    · cases hm
  · rcases hout with ⟨rfl, -⟩ | ⟨rfl, -⟩ <;> simp [Pc.winner]
  · have hnil := hr.uncompleted (by simp [hp])
    rcases hout with ⟨rfl, -⟩ | ⟨rfl, -⟩ <;> simp [hnil]
  · rcases hout with ⟨rfl, -⟩ | ⟨rfl, -⟩ <;> simp

theorem WatchInv.ask (hi : WatchInv size cond c s) (hr : RaceInv s.toState)
    (hp : s.pc = .condition nrd addr) :
    WatchInv size cond c
      { s.move (OpState.condition (.readUntil size cond) s.toState nrd addr) with
        calls := s.calls ++ (positive [nrd]).map fun n => (n, s.late) } := by
  have hw := hi.wanting (Or.inl ⟨nrd, addr, hp⟩)
  by_cases hpos : 0 < nrd
  · have hneg : ¬nrd < 0 := by omega
    have hone := positive_of_pos hpos
    have hst := hi.state
    rcases hcond : cond s.conditionState nrd.toNat with ⟨enough, st⟩
    have hafter : st = condAfter cond c (s.asks ++ positive [nrd]) := by
      rw [hone, condAfter_append, ← hst, hcond]
    have htotal : (s.readTotal + nrd.toNat) % size = (s.asks ++ positive [nrd]).sum % size := by
      rw [hone, List.sum_append, List.sum_singleton, hi.total, Nat.mod_add_mod]
    cases enough with
    | true =>
      have hdec : Deciding cond c (s.asks ++ positive [nrd]) nrd :=
        Or.inr ⟨hpos, s.asks, by rw [hone], hw, by rw [← hst, hcond]⟩
      have heq : OpState.condition (.readUntil size cond) s.toState nrd addr =
          { s.toState with
            pc := .testAndSet nrd addr, conditionState := st
            readTotal := (s.readTotal + nrd.toNat) % size } := by
        simp [OpState.condition, hneg, hpos, hcond]
      rw [heq]
      exact hi.answer hr hp hafter htotal (Or.inl ⟨rfl, hdec⟩)
    | false =>
      have hmore : Wanting cond c (s.asks ++ positive [nrd]) := by
        rw [hone]
        exact hw.append (by rw [← hst, hcond])
      have heq : OpState.condition (.readUntil size cond) s.toState nrd addr =
          { s.toState with
            pc := .idle, conditionState := st
            readTotal := (s.readTotal + nrd.toNat) % size } := by
        simp [OpState.condition, hneg, hpos, hcond]
      rw [heq]
      exact hi.answer hr hp hafter htotal (Or.inr ⟨rfl, hmore⟩)
  · have hnone := positive_of_not_pos hpos
    have hafter : s.conditionState = condAfter cond c (s.asks ++ positive [nrd]) := by
      rw [hnone, List.append_nil, hi.state]
    have htotal : s.readTotal = (s.asks ++ positive [nrd]).sum % size := by
      rw [hnone, List.append_nil, hi.total]
    by_cases hneg : nrd < 0
    · have hdec : Deciding cond c (s.asks ++ positive [nrd]) nrd :=
        Or.inl ⟨hneg, by rwa [hnone, List.append_nil]⟩
      have heq : OpState.condition (.readUntil size cond) s.toState nrd addr =
          { s.toState with pc := .testAndSet nrd addr } := by
        simp [OpState.condition, hneg]
      rw [heq]
      exact hi.answer hr hp hafter htotal (Or.inl ⟨rfl, hdec⟩)
    · have hmore : Wanting cond c (s.asks ++ positive [nrd]) := by rwa [hnone, List.append_nil]
      have heq : OpState.condition (.readUntil size cond) s.toState nrd addr =
          { s.toState with pc := .idle } := by
        simp [OpState.condition, hneg, hpos]
      rw [heq]
      exact hi.answer hr hp hafter htotal (Or.inr ⟨rfl, hmore⟩)

theorem WatchInv.win (hi : WatchInv size cond c s) (hr : RaceInv s.toState)
    (hp : s.pc = .testAndSet nrd addr) (hu : s.op.used = false) :
    WatchInv size cond c
      { s.move { s.toState with
          op := { s.op with used := true, taker := some .completion }, pc := .reset nrd addr } with
        decider := some nrd } := by
  have hnone := hr.op.taker_none hu
  have hnil := hr.uncompleted (by simp [hp])
  have hcalled := hi.called
  have hall := hi.delivered (by simp [hnone])
  rw [asked, hp] at hcalled
  rw [unchecked, hp] at hall
  refine ⟨hi.state, hi.total, hcalled, hi.timely, hi.chunks, fun _ => hall, by simp, by simp,
    fun m h => hi.last m (by rw [hp]; exact h), by simp, fun m h => hi.deciding m (by rw [hp]; exact h),
    fun m h => h, fun d hd => ?_, fun _ => rfl, hi.unrefused, by simp⟩
  simp [hnil] at hd

theorem WatchInv.resetWon {op : TStopOperation} (hi : WatchInv size cond c s) (hr : RaceInv s.toState)
    (hp : s.pc = .reset nrd addr) (htaker : op.taker = s.op.taker) :
    WatchInv size cond c (s.move { s.toState with op := op, pc := .readStop nrd addr }) := by
  have hnil := hr.uncompleted (by simp [hp])
  have hcalled := hi.called
  have hdel := hi.delivered
  rw [asked, hp] at hcalled
  rw [unchecked, hp] at hdel
  refine ⟨hi.state, hi.total, hcalled, hi.timely, hi.chunks, fun hne => hdel (htaker ▸ hne), by simp,
    by simp, fun m h => hi.last m (by rw [hp]; exact h), by simp [Pc.settled],
    fun m h => hi.deciding m (by rw [hp]; exact h), fun m h => hi.decider m (by rw [hp]; exact h),
    fun d hd => ?_, fun hne => htaker.trans (hi.taken hne), hi.unrefused, by simp⟩
  simp [hnil] at hd

theorem outcome_eq (s : State κ α) (nrd : Int) (addr : Option α) :
    OpState.outcome (.readUntil size cond) s nrd addr = verdict nrd s.readTotal := by
  by_cases hneg : nrd < 0
  · by_cases heof : nrd = uvEof
    · simp [OpState.outcome, verdict, heof]
    · simp [OpState.outcome, verdict, hneg, heof]
  · simp [OpState.outcome, verdict, hneg]

theorem WatchInv.readStop (hi : WatchInv size cond c s) (hr : RaceInv s.toState)
    (hp : s.pc = .readStop nrd addr) :
    WatchInv size cond c (s.move { s.toState with
      reading := false, pc := .complete (OpState.outcome (.readUntil size cond) s.toState nrd addr) }) := by
  have hnil := hr.uncompleted (by simp [hp])
  have hcalled := hi.called
  have hdel := hi.delivered
  rw [asked, hp] at hcalled
  rw [unchecked, hp] at hdel
  refine ⟨hi.state, hi.total, hcalled, hi.timely, hi.chunks, hdel, by simp, by simp,
    by simp [Pc.carried], fun hor => ?_, by simp [Pc.settled], by simp [Pc.winner], fun d hd _ => ?_,
    hi.taken, hi.unrefused, by simp⟩
  · have hwon := hr.won (by rw [hp]; rfl)
    simp [hwon] at hor
  · obtain rfl : OpState.outcome (.readUntil size cond) s.toState nrd addr = d := by simpa [hnil] using hd
    have hd := hi.deciding nrd (by rw [hp]; rfl)
    refine ⟨nrd, hi.decider nrd (by rw [hp]; rfl), hi.last nrd (by rw [hp]; rfl), hd, ?_⟩
    rw [outcome_eq, hi.total]
    rfl

theorem WatchInv.stopReadStop (hi : WatchInv size cond c s) (hr : RaceInv s.toState)
    (hp : s.pc = .stopReadStop) :
    WatchInv size cond c (s.move { s.toState with reading := false, pc := .complete .stopped }) := by
  have hnil := hr.uncompleted (by simp [hp])
  have hstop := hr.lost (by rw [hp]; rfl)
  have hcalled := hi.called
  rw [asked, hp] at hcalled
  refine ⟨hi.state, hi.total, hcalled, hi.timely, hi.chunks, fun hne => (hne hstop).elim, by simp,
    by simp, by simp [Pc.carried], fun hor => ?_, by simp [Pc.settled], by simp [Pc.winner],
    fun d hd hne => ?_, hi.taken, hi.unrefused, by simp⟩
  · simp [hstop] at hor
  · obtain rfl : .stopped = d := by simpa [hnil] using hd
    exact (hne rfl).elim

theorem WatchInv.complete {d : Completion ℕ} (hi : WatchInv size cond c s) (hr : RaceInv s.toState)
    (hp : s.pc = .complete d) : WatchInv size cond c (s.move (s.toState.complete d)) := by
  obtain ⟨-, hnil, htaker⟩ := hr.complete d hp
  have hcalled := hi.called
  have hdel := hi.delivered
  rw [asked, hp] at hcalled
  rw [unchecked, hp] at hdel
  refine ⟨hi.state, hi.total, hcalled, hi.timely, hi.chunks, hdel, by simp, by simp,
    by simp [Pc.carried], fun hor => ?_, by simp [Pc.settled], by simp [Pc.winner],
    fun e he hne => ?_, hi.taken, hi.unrefused, by simp⟩
  · simp [htaker] at hor
  · obtain rfl : e = d := by simpa [hnil] using he
    obtain ⟨nrd, hch⟩ := hi.chosen e (Or.inl hp) hne
    exact ⟨nrd, hch.decider, hch.last, hch.deciding, hch.verdict⟩

/-- Reading goes on until the operation completes. -/
theorem uncompleted_of_reading (hr : RaceInv s.toState) (h : s.reading = true) :
    s.completions = [] := by
  by_contra hne
  simp [(hr.completed hne).2] at h

theorem WatchInv.read (hi : WatchInv size cond c s) (hr : RaceInv s.toState) (hp : s.pc = .idle)
    (hreading : s.reading = true) (decided : Bool) :
    WatchInv size cond c
      { s.move { s.toState with decided := decided, pc := .readCallback nrd addr } with
        lengths := s.lengths ++ [nrd], late := s.op.used || !s.completions.isEmpty } := by
  have hnil := uncompleted_of_reading hr hreading
  have hcalled := hi.called
  have hdel := hi.delivered
  rw [asked, hp] at hcalled
  rw [unchecked, hp, List.append_nil] at hdel
  refine ⟨hi.state, hi.total, hcalled, hi.timely, ?_, fun hne => ?_, fun _ _ _ hl => ?_, by simp,
    fun m h => ?_, fun hor => ?_, by simp [Pc.settled], by simp [Pc.winner], ?_, hi.taken,
    hi.unrefused, by simp⟩
  · rw [positive_append]
    exact hi.chunks.trans (List.prefix_append _ _)
  · rw [positive_append, ← hdel hne]
    rfl
  · simp only [hnil, List.isEmpty_nil, Bool.not_true, Bool.or_false] at hl
    exact hr.op.used.mp hl
  · cases h
    simp
  · rcases hor with ⟨_, _, h⟩ | ⟨hnone, -⟩
    · cases h
    · exact hi.wanting (Or.inr ⟨hnone, by rw [hp]; rfl⟩)
  · simp [hnil]

theorem watchInv_step {a : Action α} (hi : WatchInv size cond c s) (hr : RaceInv s.toState)
    (hok : Started s.toState a) (hs : Stepped (.readUntil size cond) s a s') : WatchInv size cond c s' := by
  obtain ⟨t, l, la, ch, ca, d, r⟩ := s'
  obtain ⟨hstep, hl, hla, hch, hca, hd, hre⟩ := hs
  simp only at hl hla hch hca hd hre
  subst hl hla hch hca hd hre
  cases hstep with
  | startFailed err hp he =>
    have hno : isError err = false := hok
    simp [he] at hno
  | start err hp he =>
    simp only [nextLengths, nextLate, nextChunks, nextCalls, nextDecider, nextRefused, he,
      Bool.false_eq_true, if_false]
    exact hi.plain rfl rfl rfl rfl rfl (by rw [asked, hp]) (fun _ => by rw [unchecked, hp])
      (fun _ => by rw [hp]; rfl)
  | startError err hp => exact (hr.failed err hp).elim
  | emplace hp | setup hp | setupDone hp hrun =>
    simp only [nextLengths, nextLate, nextChunks, nextCalls, nextDecider, nextRefused, hp]
    exact hi.plain rfl rfl rfl rfl rfl (by rw [asked, hp]) (fun _ => by rw [unchecked, hp])
      (fun _ => by rw [hp]; rfl)
  | readCallback nrd addr hp =>
    simp only [nextLengths, nextLate, nextChunks, nextCalls, nextDecider, nextRefused, hp]
    cases hu : s.op.used with
    | true =>
      simp only [OpState.readCallback, TStopOperation.unused, hu]
      exact hi.ignore hr hp hu
    | false =>
      simp only [OpState.readCallback, TStopOperation.unused, hu]
      exact hi.look hr hp hu
  | condition nrd addr hp =>
    simp only [nextLengths, nextLate, nextChunks, nextCalls, nextDecider, nextRefused, hp]
    exact hi.ask hr hp
  | lost nrd addr hp hu =>
    simp only [nextLengths, nextLate, nextChunks, nextCalls, nextDecider, nextRefused, hp, hu, if_true]
    have hstop := stop_of_taken hr (by rw [hp]; rfl) hu
    exact hi.plain rfl rfl rfl rfl rfl (by rw [asked, hp]) (fun _ => by rw [unchecked, hp])
      (fun hnone => by simp [hstop] at hnone)
  | won nrd addr hp hu =>
    simp only [nextLengths, nextLate, nextChunks, nextCalls, nextDecider, nextRefused, hp, hu,
      Bool.false_eq_true, if_false]
    exact hi.win hr hp hu
  | reset nrd addr op hp hop =>
    simp only [nextLengths, nextLate, nextChunks, nextCalls, nextDecider, nextRefused, hp]
    exact hi.resetWon hr hp (TStopOperation.resetCallback_taker hop)
  | readStop nrd addr hp =>
    simp only [nextLengths, nextLate, nextChunks, nextCalls, nextDecider, nextRefused, hp]
    exact hi.readStop hr hp
  | resetUnsafe op hp hop =>
    simp only [nextLengths, nextLate, nextChunks, nextCalls, nextDecider, nextRefused, hp]
    exact hi.plain rfl rfl rfl rfl (TStopOperation.resetCallback_taker hop) (by rw [asked, hp])
      (fun _ => by rw [unchecked, hp]) (fun _ => by rw [hp]; rfl)
  | stopReadStop hp =>
    simp only [nextLengths, nextLate, nextChunks, nextCalls, nextDecider, nextRefused, hp]
    exact hi.stopReadStop hr hp
  | complete d hp =>
    simp only [nextLengths, nextLate, nextChunks, nextCalls, nextDecider, nextRefused, hp]
    exact hi.complete hr hp
  | read nrd addr hp hreading => exact hi.read hr hp hreading _
  | apply hp hq =>
    exact hi.plain (by rfl) rfl rfl rfl rfl (by rw [asked, hp]) (fun _ => by rw [unchecked, hp])
      (fun _ => by rw [hp]; rfl)
  | requestStop => exact hi.foreign s.op.requestStop_foreign
  | callback op hop => exact hi.foreign (hr.op.callbackStep_foreign hop)

/-- What a start that was not refused keeps. -/
structure Going (size : ℕ) (cond : κ → ℕ → Bool × κ) (c : κ) (s : Watched κ α) : Prop where
  race : RaceInv s.toState
  decision : DecidedInv (.readUntil size cond) s.toState
  marked : ∀ nrd ∈ s.lengths, nrd < 0 → s.decided = true
  watch : WatchInv size cond c s

/-- A callback with a negative length decides. -/
theorem marked_step {a : Action α} (hi : ∀ nrd ∈ s.lengths, nrd < 0 → s.decided = true)
    (hs : Stepped (.readUntil size cond) s a s') :
    ∀ nrd ∈ s'.lengths, nrd < 0 → s'.decided = true := by
  obtain ⟨t, l, la, ch, ca, d, r⟩ := s'
  obtain ⟨hstep, hl, -⟩ := hs
  simp only at hl
  subst hl
  cases hstep with
  | read m addr hp hreading =>
    intro nrd hmem hneg
    rcases List.mem_append.mp hmem with hold | hnew
    · simp [hi nrd hold hneg]
    · rw [List.mem_singleton] at hnew
      subst hnew
      simp [OpState.decisive, hneg]
  | condition m addr hp =>
    have hsame : (OpState.condition (.readUntil size cond) s.toState m addr).decided = s.decided := by
      obtain ⟨p, st, total, -, he⟩ := OpState.condition_cases (.readUntil size cond) s.toState m addr
      rw [he]
    intro nrd hmem hneg
    exact hsame.trans (hi nrd hmem hneg)
  | _ => exact hi

theorem Going.step {a : Action α} (hi : Going size cond c s) (hok : Started s.toState a)
    (hs : Stepped (.readUntil size cond) s a s') : Going size cond c s' where
  race := raceInv_step hi.race hok hs.step
  decision := ⟨condition_step hi.decision hs.step, decided_step hi.race hi.decision hs.step⟩
  marked := marked_step hi.marked hs
  watch := watchInv_step hi.watch hi.race hok hs

/-! ### The start that is refused -/

structure Refusal (c : κ) (err : Int) (s : Watched κ α) : Prop where
  refused : s.refused = some err
  unasked : s.conditionState = c
  failing : s.pc = .startError err ∨ s.pc = .idle
  unread : s.reading = false
  unregistered : s.op.token.callback = .absent
  unqueued : s.op.queued = 0
  silent : s.lengths = [] ∧ s.chunks = [] ∧ s.calls = []
  untaken : s.op.taker = none
  completions : ∀ d ∈ s.completions, d = .error err

theorem WatchInv.refuse {err : Int} (hi : WatchInv size cond c s) (hr : RaceInv s.toState)
    (hp : s.pc = .start) : Refusal c err
      { s.move { s.toState with pc := .startError err } with refused := some err } := by
  obtain ⟨hnone, habs, -⟩ := hr.early (by rw [hp]; rfl)
  obtain ⟨hreading, hnil⟩ := hi.unstarted hp
  have hq : s.op.queued = 0 := by
    by_contra hne
    have hstop := (hr.op.of_queued (Nat.pos_of_ne_zero hne)).1
    simp [hnone] at hstop
  have hchunks : s.chunks = [] := by
    have hpre := hi.chunks
    rw [hnil] at hpre
    exact List.prefix_nil.mp hpre
  have hcalls : s.calls = [] := by
    have hcalled := hi.called
    rw [hchunks] at hcalled
    exact List.map_eq_nil_iff.mp (List.append_eq_nil_iff.mp hcalled).1
  have hunasked : s.conditionState = c := by
    have hstate := hi.state
    rwa [asks, hcalls] at hstate
  exact ⟨rfl, hunasked, Or.inl rfl, hreading, habs, hq, ⟨hnil, hchunks, hcalls⟩, hnone,
    by simp [hr.uncompleted (by simp [hp])]⟩

theorem refusal_step {k : OpState κ α} {a : Action α} {err : Int} (hi : Refusal c err s)
    (hs : Stepped k s a s') : Refusal c err s' := by
  obtain ⟨href, hun, hpc, hread, habs, hq, ⟨hl0, hch0, hca0⟩, hnone, hcomp⟩ := hi
  obtain ⟨t, l, la, ch, ca, d, r⟩ := s'
  obtain ⟨hstep, hl, hla, hch, hca, hd, hre⟩ := hs
  simp only at hl hla hch hca hd hre
  subst hl hla hch hca hd hre
  cases hstep with
  | startError e hp =>
    obtain rfl : err = e := by simpa [hp, eq_comm] using hpc
    refine ⟨href, hun, Or.inr rfl, hread, habs, hq,
      by simp [nextLengths, nextChunks, nextCalls, hp, hl0, hch0, hca0], hnone, fun d hd => ?_⟩
    rcases List.mem_append.mp hd with hold | hnew
    · exact hcomp d hold
    · exact List.mem_singleton.mp hnew
  | requestStop =>
    exact ⟨href, hun, hpc, hread, s.op.requestStop_absent habs, hq, ⟨hl0, hch0, hca0⟩, hnone, hcomp⟩
  | callback op hop => exact ((TStopOperation.callbackStep_frame hop).1 habs).elim
  | read nrd addr hp hreading => simp [hread] at hreading
  | apply hp hpos => omega
  | startFailed e hp | start e hp | emplace hp | setup hp | setupDone hp | readCallback nrd addr hp
  | condition nrd addr hp | lost nrd addr hp | won nrd addr hp | reset nrd addr op hp
  | readStop nrd addr hp | resetUnsafe op hp | stopReadStop hp | complete d hp => simp [hp] at hpc

/-! ### Runs -/

def Stage (size : ℕ) (cond : κ → ℕ → Bool × κ) (c : κ) (s : Watched κ α) : Prop :=
  Going size cond c s ∨ ∃ err, Refusal c err s

theorem stage_step {a : Action α} (hi : Stage size cond c s)
    (h : step (.readUntil size cond) s a = some s') : Stage size cond c s' := by
  have hs := step_cases h
  rcases hi with hg | ⟨err, hf⟩
  · by_cases hok : Started s.toState a
    · exact Or.inl (hg.step hok hs)
    · -- it is the start that was refused
      right
      obtain ⟨t, l, la, ch, ca, d, r⟩ := s'
      obtain ⟨hstep, hl, hla, hch, hca, hd, hre⟩ := hs
      simp only at hl hla hch hca hd hre
      subst hl hla hch hca hd hre
      cases hstep with
      | startFailed err hp he =>
        refine ⟨err, ?_⟩
        simp only [nextLengths, nextLate, nextChunks, nextCalls, nextDecider, nextRefused, he, if_true]
        exact hg.watch.refuse hg.race hp
      | start err hp he => exact (hok he).elim
      | _ => exact (hok trivial).elim
  · exact Or.inr ⟨err, refusal_step hf hs⟩

theorem initial_stage (size : ℕ) (cond : κ → ℕ → Bool × κ) (c : κ) :
    Stage size cond c ({ conditionState := c } : Watched κ α) := by
  have hreach : (ReadOp.system (.readUntil size cond)).ReachableVia Started
      ({ conditionState := c } : State κ α) := .initial ⟨c, rfl⟩
  refine Or.inl ⟨reachable_raceInv hreach, reachable_decidedInv hreach, by simp, ?_⟩
  constructor <;> simp [asks, asked, unchecked, Pc.carried, Pc.settled, Pc.winner, condAfter, Wanting, positive]

theorem Refusal.readsUntil {err : Int} (h : Refusal c err s) : ReadsUntil size cond c s := by
  obtain ⟨href, hun, hpc, -, -, -, ⟨hl, hch, hca⟩, hnone, hcomp⟩ := h
  have hasked : s.asked = [] := by rcases hpc with hp | hp <;> rw [asked, hp]
  have hunchecked : s.unchecked = [] := by rcases hpc with hp | hp <;> rw [unchecked, hp]
  refine ⟨by simp [hca, hun, condAfter], by simp [hca, hasked, hch], by simp [hca], by simp [hch], ?_,
    by simp [href], by simp [hnone], fun n hn => ?_, ?_, ?_⟩
  · simp [hch, hunchecked, hl, positive]
  · cases hcomp _ hn
  · simp [href]
  · intro e he
    obtain rfl : err = e := Option.some.inj (href.symm.trans he)
    exact ⟨hl, hcomp⟩

theorem verdict_value {total n : ℕ} (h : .value n = verdict nrd total) :
    n = total ∧ (0 ≤ nrd ∨ nrd = uvEof) := by
  unfold verdict at h
  split at h
  · cases h
  next hno =>
    refine ⟨Completion.value.inj h, ?_⟩
    by_cases heof : nrd = uvEof
    · exact Or.inr heof
    · exact Or.inl (by
        by_contra hneg
        exact hno ⟨by omega, heof⟩)

theorem verdict_error {total : ℕ} {e : Int} :
    .error e = verdict nrd total ↔ nrd = e ∧ e < 0 ∧ e ≠ uvEof := by
  unfold verdict
  split
  next hyes =>
    refine ⟨fun h => ?_, fun h => by rw [h.1]⟩
    cases h
    exact ⟨rfl, hyes⟩
  next hno =>
    refine ⟨fun h => ?_, fun h => (hno (h.1 ▸ h.2)).elim⟩
    cases h

/-- The condition has been asked about all chunks when the thread is out of the
callbacks and no stop callback has taken the flag. -/
theorem WatchInv.asks_of_idle (hi : WatchInv size cond c s) (hp : s.pc = .idle)
    (htaker : s.op.taker ≠ some .stop) : s.asks = positive s.lengths := by
  have hcalled := hi.called
  have hdel := hi.delivered htaker
  rw [asked, hp, List.append_nil] at hcalled
  rw [unchecked, hp, List.append_nil] at hdel
  exact hcalled.trans hdel

theorem WatchInv.asks_of_value (hi : WatchInv size cond c s) (hr : RaceInv s.toState) {n : ℕ}
    (hn : .value n ∈ s.completions) : s.asks = positive s.lengths := by
  have hp := (hr.completed (List.ne_nil_of_mem hn)).1
  have htaker : s.op.taker = some .completion := hr.outcome _ hn
  exact hi.asks_of_idle hp (by simp [htaker])

theorem Going.undecided (hg : Going size cond c s) (hp : s.pc = .idle) (hu : s.op.used = false) :
    s.completions = [] ∧ Wanting cond c (positive s.lengths) ∧ ∀ nrd ∈ s.lengths, 0 ≤ nrd := by
  have hnone := hg.race.op.taker_none hu
  refine ⟨?_, ?_, fun nrd hmem => ?_⟩
  · by_contra hne
    exact (hg.race.queued (Or.inr (Or.inr hne))).1 hnone
  · rw [← hg.watch.asks_of_idle hp (by simp [hnone])]
    exact hg.watch.wanting (Or.inr ⟨hnone, by rw [hp]; rfl⟩)
  · by_contra hneg
    -- the callback that carried it would still be on its way to the flag
    obtain ⟨m, addr, -, hpc⟩ := hg.decision.decided (hg.marked nrd hmem (by omega)) hnone
    simp [hp] at hpc

theorem Going.decided (hg : Going size cond c s) (hp : s.pc = .idle)
    (htaker : s.op.taker = some .completion) : ∃ nrd, s.decider = some nrd ∧
      s.completions = [verdict nrd ((positive s.lengths).sum % size)] := by
  have hne : s.completions ≠ [] := completed_of_idle hp <| by
    rcases hg.race.taken htaker with hw | hsettled
    · simp [hp, Pc.won] at hw
    · exact Or.inr hsettled
  obtain ⟨d, hd⟩ := List.length_eq_one_iff.mp
    (Nat.le_antisymm hg.race.once (List.length_pos_iff.mpr hne))
  have hmem : d ∈ s.completions := by simp [hd]
  have hstop : d ≠ .stopped := by
    intro hstopped
    have hout := hg.race.outcome d hmem
    rw [htaker, hstopped] at hout
    cases hout
  obtain ⟨nrd, hch⟩ := hg.watch.chosen d (Or.inr hmem) hstop
  refine ⟨nrd, hch.decider, ?_⟩
  rw [hd, hch.verdict, hg.watch.asks_of_idle hp (by simp [htaker])]

theorem Going.readsUntil (hg : Going size cond c s) : ReadsUntil size cond c s where
  asked := hg.watch.state
  called := hg.watch.called
  timely := hg.watch.timely
  chunks := hg.watch.chunks
  untaken hu := hg.watch.delivered (by simp [hg.race.op.taker_none hu])
  undecided _ := hg.undecided
  decided := hg.decided
  value n hn := by
    have hasks := hg.watch.asks_of_value hg.race hn
    obtain ⟨nrd, hch⟩ := hg.watch.chosen _ (Or.inr hn) (by simp)
    obtain ⟨hsum, hnrd⟩ := verdict_value hch.verdict
    have hd := hch.deciding
    rw [hasks] at hsum hd
    refine ⟨hsum, nrd, hch.last, hnrd.imp_left (fun h0 => ?_), hd⟩
    rcases hd with ⟨hneg, -⟩ | ⟨hpos, -⟩
    · omega
    · exact hpos
  error _ e := by
    constructor
    · intro he
      obtain ⟨nrd, hch⟩ := hg.watch.chosen _ (Or.inr he) (by simp)
      obtain ⟨rfl, hneg, heof⟩ := verdict_error.mp hch.verdict
      exact ⟨List.ne_nil_of_mem he, hch.decider, hneg, heof⟩
    · rintro ⟨hne, hdec, hneg, heof⟩
      obtain ⟨d, hd⟩ := List.exists_mem_of_ne_nil _ hne
      have htaker := hg.race.outcome d hd
      rw [hg.watch.taken (by simp [hdec])] at htaker
      have hstop : d ≠ .stopped := by
        rintro rfl
        cases htaker
      obtain ⟨nrd, hch⟩ := hg.watch.chosen d (Or.inr hd) hstop
      have hnrd : nrd = e := Option.some.inj (hch.decider.symm.trans hdec)
      rw [verdict_error.mpr ⟨hnrd, hneg, heof⟩, ← hch.verdict]
      exact hd
  refused err he := by
    rw [hg.watch.unrefused] at he
    cases he

end

/-- Whatever callbacks, stop requests and calls of the queued stop operation
follow the start, in whatever order. -/
theorem reads_until {size : ℕ} {cond : κ → ℕ → Bool × κ} {c : κ} {as : List (Action α)}
    {s : Watched κ α}
    (h : (system (.readUntil size cond)).exec { conditionState := c } as = some s) :
    ReadsUntil size cond c s := by
  have hstage : Stage size cond c s :=
    System.exec_invariant (I := Stage size cond c) (fun _ _ _ ht hs => stage_step ht hs) as
      (initial_stage size cond c) h
  rcases hstage with hg | ⟨err, hf⟩
  · exact hg.readsUntil
  · exact hf.readsUntil

/-- A condition that adds up what it is told of, and three chunks with an empty
read between them. -/
theorem reads_until_third : ∃ s : Watched ℕ Unit,
    (system (.readUntil UInt64.size fun c n => (decide (6 ≤ c + n), c + n))).exec
      { conditionState := 0 }
      [.start 0, .loop, .loop, .loop, .read 2 none, .loop, .loop, .read 0 none, .loop, .loop,
        .read 3 none, .loop, .loop, .read 1 none, .loop, .loop, .loop, .loop, .loop, .loop] = some s ∧
      s.completions = [.value 6] ∧
      ReadsUntil UInt64.size (fun c n => (decide (6 ≤ c + n), c + n)) 0 s := by
  have hrun : (system (.readUntil UInt64.size fun c n => (decide (6 ≤ c + n), c + n))).exec
      ({ conditionState := 0 } : Watched ℕ Unit)
      [.start 0, .loop, .loop, .loop, .read 2 none, .loop, .loop, .read 0 none, .loop, .loop,
        .read 3 none, .loop, .loop, .read 1 none, .loop, .loop, .loop, .loop, .loop, .loop] =
      some _ := rfl
  exact ⟨_, hrun, rfl, reads_until hrun⟩

/-- Five chunks of a gibibyte each, of which the fifth is enough. -/
def fiveGibibytes : List (Action Unit) :=
  .start 0 :: List.replicate 3 .loop ++
    (List.replicate 5 (.read 1073741824 none :: List.replicate 2 .loop)).flatten ++
    List.replicate 4 .loop

/-- Where `std::size_t` has 32 bits, five gibibytes are reported as one. -/
theorem reads_until_wraps : ∃ s : Watched ℕ Unit,
    (system (.readUntil UInt32.size fun calls _ => (decide (4 ≤ calls), calls + 1))).exec
      { conditionState := 0 } fiveGibibytes = some s ∧
    s.completions = [.value 1073741824] ∧ (positive s.lengths).sum = 5 * 1073741824 := by
  have hrun : ((system (.readUntil UInt32.size fun calls _ => (decide (4 ≤ calls), calls + 1))).exec
      ({ conditionState := 0 } : Watched ℕ Unit) fiveGibibytes).map
        (fun s => (s.completions, (positive s.lengths).sum)) =
      some ([.value 1073741824], 5 * 1073741824) := by decide +kernel
  obtain ⟨s, hs, heq⟩ := Option.map_eq_some_iff.mp hrun
  obtain ⟨hvalue, hsum⟩ := Prod.mk.inj heq
  exact ⟨s, hs, hvalue, hsum⟩

end Watched
end UvExec.ReadOp
