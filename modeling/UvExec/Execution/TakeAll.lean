import UvExec.Execution.Scheduling
import UvExec.Lib.TakeAllQueue

/-! # `TOperationList` as a FIFO queue with an atomic take-all

A successful compare-exchange is the push and the exchange in `Grab` is the
take-all. The batch is what the pointer that `Grab` returns leads to. -/

namespace UvExec.OperationList
open Lib

/-- The list with what every `Grab` has returned, and the links at that time. -/
structure Grabbed (T O : Type) extends State T O where
  grabs : List ((O → Option O) × Option O) := []

namespace Grabbed
variable {T O : Type} [DecidableEq T] [DecidableEq O]

/-- What a step of `ApplyOperations` returns from `Grab`. -/
def returned (s : State T O) : Action T O → Option ((O → Option O) × Option O)
  | .loop =>
    match s.apply with
    | .walk none newTop => some (s.next, newTop)
    | _ => none
  | _ => none

def step (s : Grabbed T O) (a : Action T O) : Option (Grabbed T O) :=
  (OperationList.step s.toState a).map fun t =>
    { toState := t, grabs := s.grabs ++ (returned s.toState a).toList }

def initial : Grabbed T O := { toState := OperationList.initial }

def system : System (Grabbed T O) (Action T O) where
  initial s := s = initial
  step := step

/-- The operation of the queue that a step is. -/
def label (s : Grabbed T O) : Action T O → Option (TakeAllQueue.Action O)
  | .push t =>
    match s.push t with
    | .compareExchange op curTop => if s.head = curTop then some (.push op) else none
    | _ => none
  | .loop => if s.apply = .grab then some .takeAll else none
  | _ => none

/-- The links from the pointer that `Grab` returned led through the batch. -/
def Returns (g : (O → Option O) × Option O) (batch : List O) : Prop := Chain g.1 g.2 batch

/-- `Grab` has returned the batches, but for the last one while it walks. -/
def Batches (s : Grabbed T O) (taken : List (List O)) : Prop :=
  match s.apply with
  | .walk _ _ => ∃ bs b, taken = bs ++ [b] ∧ List.Forall₂ Returns s.grabs bs ∧
    Batch s.next s.apply b
  | .idle | .grab | .loop _ | .apply _ _ => List.Forall₂ Returns s.grabs taken

/-- The list in the heap is the queue: the chain from `Head` is what waits, the
youngest first, the batches are those taken, and together they are the pushed
operations in the order of their compare-exchanges. -/
structure Refines (s : Grabbed T O) (q : TakeAllQueue O) : Prop where
  list : Chain s.next s.head q.queue.reverse
  batches : Batches s q.taken
  pushed : q.taken.flatten ++ q.queue = s.pushed
  applied : s.applied <+: q.taken.flatten

/-! ### The simulation -/

/-- While `Grab` walks, the batches before the last one have been applied, as all of
them have been where the loop has none. -/
def Grabs (grabs : List ((O → Option O) × Option O)) (taken : List (List O)) (applied : List O) :
    ApplyPc O → Prop
  | .walk _ _ => ∃ bs b, taken = bs ++ [b] ∧ List.Forall₂ Returns grabs bs ∧ bs.flatten = applied
  | .idle | .grab => List.Forall₂ Returns grabs taken ∧ taken.flatten = applied
  | .loop _ | .apply _ _ => List.Forall₂ Returns grabs taken

/-- The queue by the history of the list: the batches make up what the last
exchange had seen. -/
structure Simulates (s : Grabbed T O) (q : TakeAllQueue O) : Prop where
  queue : q.queue = s.pushed.drop s.taken
  taken : q.taken.flatten = s.pushed.take s.taken
  grabs : Grabs s.grabs q.taken s.applied s.apply

variable {s s' : Grabbed T O} {q : TakeAllQueue O} {b l : List O}

omit [DecidableEq T] [DecidableEq O] in
theorem Simulates.taken_eq (hi : Simulates s q) (hh : HeapInv s.toState b l) :
    q.taken.flatten = s.applied ++ b := by
  rw [hi.taken, hh.taken, hh.pushed, List.take_left]

omit [DecidableEq T] [DecidableEq O] in
theorem Simulates.queue_eq (hi : Simulates s q) (hh : HeapInv s.toState b l) :
    q.queue = l.reverse := by
  rw [hi.queue, hh.drop_taken]

omit [DecidableEq T] [DecidableEq O] in
/-- The batch that `Grab` still walks through is the last one. -/
theorem Simulates.walking (hi : Simulates s q) (hh : HeapInv s.toState b l)
    {cur newTop : Option O} (hp : s.apply = .walk cur newTop) :
    ∃ bs, q.taken = bs ++ [b] ∧ List.Forall₂ Returns s.grabs bs ∧ bs.flatten = s.applied := by
  have hg := hi.grabs
  rw [hp] at hg
  obtain ⟨bs, b', hq, hret, hflat⟩ := hg
  have ht := hi.taken_eq hh
  rw [hq, List.flatten_append, hflat, List.flatten_singleton, List.append_cancel_left_eq] at ht
  subst ht
  exact ⟨bs, hq, hret, hflat⟩

omit [DecidableEq T] [DecidableEq O] in
theorem Simulates.refines (hi : Simulates s q) (hh : HeapInv s.toState b l) : Refines s q := by
  refine ⟨?_, ?_, ?_, ?_⟩
  · rw [hi.queue_eq hh, List.reverse_reverse]
    exact hh.list
  · have hg := hi.grabs
    unfold Batches
    cases hp : s.apply with
    | walk cur newTop =>
      obtain ⟨bs, hq, hret, -⟩ := hi.walking hh hp
      exact ⟨bs, b, hq, hret, hp ▸ hh.batch⟩
    | idle | grab =>
      rw [hp] at hg
      exact hg.1
    | loop | apply =>
      rw [hp] at hg
      exact hg
  · rw [hi.taken_eq hh, hi.queue_eq hh, hh.pushed]
  · rw [hi.taken_eq hh]
    exact List.prefix_append _ _

/-! ### Steps -/

variable {t : State T O}

omit [DecidableEq T] [DecidableEq O] in
/-- A step that neither pushes nor belongs to the loop. -/
theorem Simulates.of_eq (hi : Simulates s q) (hp : t.pushed = s.pushed) (ht : t.taken = s.taken)
    (happlied : t.applied = s.applied) (hpc : t.apply = s.apply) :
    Simulates { toState := t, grabs := s.grabs } q := by
  refine ⟨?_, ?_, ?_⟩
  · simpa only [hp, ht] using hi.queue
  · simpa only [hp, ht] using hi.taken
  · simpa only [hpc, happlied] using hi.grabs

omit [DecidableEq T] [DecidableEq O] in
theorem Simulates.push (hi : Simulates s q) (hh : HeapInv s.toState b l) {op : O}
    (hp : t.pushed = s.pushed ++ [op]) (ht : t.taken = s.taken) (happlied : t.applied = s.applied)
    (hpc : t.apply = s.apply) :
    Simulates { toState := t, grabs := s.grabs } (TakeAllQueue.step q (.push op)) := by
  have hle : s.taken ≤ s.pushed.length := by
    rw [hh.taken, hh.pushed]
    simp
  refine ⟨?_, ?_, ?_⟩
  · rw [hp, ht, List.drop_append_of_le_length hle, ← hi.queue]
    rfl
  · rw [hp, ht, List.take_append_of_le_length hle, ← hi.taken]
    rfl
  · simp only [hpc, happlied]
    exact hi.grabs

theorem simulates_push {u : T} (hi : Simulates s q) (hh : HeapInv s.toState b l)
    (h : pushStep s.toState u = some t) :
    ∃ q', TakeAllQueue.system.exec q (label s (.push u)).toList = some q' ∧
      Simulates { toState := t, grabs := s.grabs } q' := by
  cases hp : s.push u with
  | idle => simp [pushStep, hp] at h
  | compareExchange op curTop =>
    by_cases heq : s.head = curTop
    · simp only [pushStep, hp, heq, if_true, Option.some.injEq] at h
      subst h
      refine ⟨TakeAllQueue.step q (.push op), ?_, hi.push hh rfl rfl rfl rfl⟩
      simp only [label, hp, heq, if_true]
      rfl
    · simp only [pushStep, hp, if_neg heq, Option.some.injEq] at h
      subst h
      refine ⟨q, ?_, hi.of_eq rfl rfl rfl rfl⟩
      simp only [label, hp, if_neg heq]
      rfl
  | load op | write op curTop | fire =>
    simp only [pushStep, hp, Option.some.injEq] at h
    subst h
    refine ⟨q, ?_, hi.of_eq rfl rfl rfl rfl⟩
    simp only [label, hp]
    rfl

omit [DecidableEq T] in
/-- The exchange takes what waits. -/
theorem simulates_grab (hi : Simulates s q) (hp : s.apply = .grab)
    (h : applyStep s.toState = some t) :
    Simulates { toState := t, grabs := s.grabs } (TakeAllQueue.step q .takeAll) := by
  have hg := hi.grabs
  rw [hp] at hg
  simp only [applyStep, hp, Option.some.injEq] at h
  subst h
  refine ⟨?_, ?_, q.taken, q.queue, rfl, hg⟩
  · simp [TakeAllQueue.step]
  · simp only [TakeAllQueue.step, List.flatten_append, List.flatten_singleton, hi.queue,
      hi.taken, List.take_append_drop, List.take_length]

omit [DecidableEq T] in
/-- The walk leads to the batch, the loop goes through it, and an empty rest means
that all of it has been applied. -/
theorem simulates_loop (hi : Simulates s q) (hh : HeapInv s.toState b l) (hp : s.apply ≠ .grab)
    (h : applyStep s.toState = some t) :
    Simulates { toState := t, grabs := s.grabs ++ (returned s.toState .loop).toList } q := by
  have hg := hi.grabs
  have hb := hh.batch
  cases hpc : s.apply with
  | idle => simp [applyStep, hpc] at h
  | grab => exact (hp hpc).elim
  | walk cur newTop =>
    cases cur with
    | some cur =>
      simp only [applyStep, hpc, Option.some.injEq] at h
      rw [hpc] at hg
      subst h
      refine ⟨hi.queue, hi.taken, ?_⟩
      simp only [returned, hpc, Option.toList_none, List.append_nil]
      exact hg
    | none =>
      simp only [applyStep, hpc, Option.some.injEq] at h
      obtain ⟨bs, hq, hret, -⟩ := hi.walking hh hpc
      rw [hpc] at hb
      obtain ⟨l₁, l₂, h₁, h₂, rfl⟩ := hb
      rw [Chain.none_iff] at h₁
      subst h₁ h
      refine ⟨hi.queue, hi.taken, ?_⟩
      simp only [returned, hpc, Option.toList_some, Grabs, hq]
      exact List.rel_append hret (List.Forall₂.cons h₂ List.Forall₂.nil)
  | loop op =>
    cases op with
    | some op =>
      simp only [applyStep, hpc, Option.some.injEq] at h
      rw [hpc] at hg
      subst h
      refine ⟨hi.queue, hi.taken, ?_⟩
      simp only [returned, hpc, Option.toList_none, List.append_nil]
      exact hg
    | none =>
      simp only [applyStep, hpc, Option.some.injEq] at h
      have ht := hi.taken_eq hh
      rw [hpc] at hg hb
      simp only [Batch, Chain.none_iff] at hb
      subst hb h
      refine ⟨hi.queue, hi.taken, ?_⟩
      simp only [returned, hpc, Option.toList_none, List.append_nil]
      exact ⟨hg, ht.trans (List.append_nil _)⟩
  | apply op next =>
    simp only [applyStep, hpc, Option.some.injEq] at h
    rw [hpc] at hg
    subst h
    refine ⟨hi.queue, hi.taken, ?_⟩
    simp only [returned, hpc, Option.toList_none, List.append_nil]
    exact hg

theorem simulates_step {a : Action T O} (hh : ∃ b l, HeapInv s.toState b l) (hi : Simulates s q)
    (h : step s a = some s') :
    ∃ q', TakeAllQueue.system.exec q (label s a).toList = some q' ∧ Simulates s' q' := by
  obtain ⟨b, l, hh⟩ := hh
  obtain ⟨t, ht, rfl⟩ := Option.map_eq_some_iff.mp h
  cases a with
  | push u =>
    simp only [returned, Option.toList_none, List.append_nil]
    exact simulates_push hi hh ht
  | loop =>
    by_cases hp : s.apply = .grab
    · refine ⟨TakeAllQueue.step q .takeAll, by simp only [label, hp, if_true]; rfl, ?_⟩
      simp only [returned, hp, Option.toList_none, List.append_nil]
      exact simulates_grab hi hp ht
    · exact ⟨q, by simp only [label, if_neg hp]; rfl, simulates_loop hi hh hp ht⟩
  | deliver =>
    simp only [OperationList.step, Option.ite_none_right_eq_some, Option.some.injEq] at ht
    obtain ⟨⟨hp, -⟩, rfl⟩ := ht
    have hg := hi.grabs
    rw [hp] at hg
    refine ⟨q, rfl, hi.queue, hi.taken, ?_⟩
    simp only [returned, Option.toList_none, List.append_nil]
    exact hg
  | schedule u op | reuse op next =>
    simp only [OperationList.step, Option.ite_none_right_eq_some, Option.some.injEq] at ht
    obtain ⟨-, rfl⟩ := ht
    simp only [returned, Option.toList_none, List.append_nil]
    exact ⟨q, rfl, hi.of_eq rfl rfl rfl rfl⟩
  | failSpuriously u =>
    simp only [OperationList.step] at ht
    split at ht
    · cases ht
      simp only [returned, Option.toList_none, List.append_nil]
      exact ⟨q, rfl, hi.of_eq rfl rfl rfl rfl⟩
    · cases ht

/-! ### Runs -/

theorem reachable_list (h : system.Reachable s) : OperationList.system.Reachable s.toState := by
  refine h.simulate (fun s => s.toState) ?_ ?_
  · rintro _ rfl
    rfl
  · intro s a s' _ hs
    obtain ⟨t, ht, rfl⟩ := Option.map_eq_some_iff.mp hs
    exact Or.inr ⟨a, trivial, ht⟩

/-- The trace of every run is a run of the queue, which the heap refines, and its
pushes are the successful compare-exchanges. -/
theorem refines_takeAll {as : List (Action T O)} (h : system.exec initial as = some s) :
    ∃ q, TakeAllQueue.system.exec {} (system.trace label initial as) = some q ∧
      (system.trace label initial as).filterMap TakeAllQueue.Action.pushed = s.pushed ∧
      Refines s q := by
  have h0 : Simulates (initial : Grabbed T O) {} := ⟨rfl, rfl, List.Forall₂.nil, rfl⟩
  have hreach := System.reachable_exec as (.initial rfl) h
  obtain ⟨b, l, hh⟩ := (reachable_heap (reachable_list hreach)).1
  obtain ⟨q, hq, hi⟩ := System.exec_simulate label (fun _ hr => (reachable_heap (reachable_list hr)).1)
    (fun _ _ _ _ hk hr hs => simulates_step hk hr hs) as (.initial rfl) h0 h
  have href := hi.refines hh
  refine ⟨q, hq, ?_, href⟩
  rw [← href.pushed]
  exact ((TakeAllQueue.contents_exec _ hq).trans (List.nil_append _)).symm

/-- The thread `true` finds the batch taken when it comes to its compare-exchange,
and the operation `false` is pushed again while its `Apply` runs. -/
def pushedAgain : List (Action Bool Bool) :=
  [.schedule false false, .schedule true true, .push true, .push true,
   .push false, .push false, .push false, .push true, .push false, .deliver, .loop,
   .push true, .push true, .push true, .push true, .loop, .loop, .loop,
   .reuse false (some true), .schedule false false, .push false, .push false, .push false]

theorem refines_takeAll_again : ∃ s : Grabbed Bool Bool,
    system.exec initial pushedAgain = some s ∧ s.pushed = [false, true, false] ∧
      ∃ q, TakeAllQueue.system.exec {} [.push false, .takeAll, .push true, .push false] = some q ∧
        Refines s q := by
  have hrun : (system.exec (initial : Grabbed Bool Bool) pushedAgain).map
      (fun s => s.pushed) = some [false, true, false] := by decide
  have htrace : system.trace label (initial : Grabbed Bool Bool) pushedAgain =
      [.push false, .takeAll, .push true, .push false] := by decide
  obtain ⟨s, hs, hp⟩ := Option.map_eq_some_iff.mp hrun
  obtain ⟨q, hq, -, href⟩ := refines_takeAll hs
  rw [htrace] at hq
  exact ⟨s, hs, hp, q, hq, href⟩

end Grabbed
end UvExec.OperationList
