import UvExec.Execution.OperationList

/-! # No scheduled operation is lost

The heap holds the chain from `Head` and what the loop still has of its batch;
together with the operations in the hands of `PushBack` these are exactly the
pending ones. -/

namespace UvExec.OperationList
open Lib
variable {T O : Type} [DecidableEq T] [DecidableEq O]

def PushPc.pushing : PushPc O → Option O
  | .load op | .write op _ | .compareExchange op _ => some op
  | .idle | .fire => none

/-- The operations of the current batch that are still to be applied, in the
order in which they will be. -/
def Batch (next : O → Option O) : ApplyPc O → List O → Prop
  | .idle, l => l = []
  | .grab, l => l = []
  | .walk cur newTop, l => ∃ l₁ l₂, Chain next cur l₁ ∧ Chain next newTop l₂ ∧ l = l₁.reverse ++ l₂
  | .loop op, l => Chain next op l
  | .apply _ op, l => Chain next op l

theorem Batch.update {next : O → Option O} {p : ApplyPc O} {l : List O} {op : O} (v : Option O)
    (h : Batch next p l) (hop : op ∉ l) : Batch (Function.update next op v) p l := by
  cases p with
  | idle | grab => exact h
  | walk cur newTop =>
    obtain ⟨l₁, l₂, h₁, h₂, rfl⟩ := h
    simp only [List.mem_append, List.mem_reverse, not_or] at hop
    exact ⟨l₁, l₂, h₁.update hop.1 v, h₂.update hop.2 v, rfl⟩
  | loop p | apply _ p => exact Chain.update h hop v

/-- The loop's operations in the heap: `b` is left of the batch and `l` is listed. -/
structure HeapInv (s : State T O) (b l : List O) : Prop where
  list : Chain s.next s.head l
  batch : Batch s.next s.apply b
  taken : s.taken = (s.applied ++ b).length
  pushed : s.pushed = s.applied ++ b ++ l.reverse
  nodup : (b ++ l).Nodup

omit [DecidableEq T] in
theorem HeapInv.count {s : State T O} {b l : List O} (h : HeapInv s b l) (op : O) :
    s.pushed.count op = s.applied.count op + b.count op + l.count op := by
  rw [h.pushed, List.count_append, List.count_append, List.count_reverse]

/-- The calls of `Schedule` are those that have reached their compare-exchange
and those of the threads on the way to it, one for each operation. -/
structure OwnerInv (s : State T O) : Prop where
  bound : ∀ op, s.scheduled.count op ≤ s.applied.count op + 1
  pushing : ∀ t op, (s.push t).pushing = some op → s.scheduled.count op = s.pushed.count op + 1
  pushed : ∀ op, s.scheduled.count op = s.pushed.count op ∨ ∃ t, (s.push t).pushing = some op
  distinct : ∀ t u op, (s.push t).pushing = some op → (s.push u).pushing = some op → t = u
  written : ∀ t op curTop, s.push t = .compareExchange op curTop → s.next op = curTop

omit [DecidableEq T] in
theorem OwnerInv.pushed_le {s : State T O} (hi : OwnerInv s) (op : O) :
    s.pushed.count op ≤ s.scheduled.count op := by
  rcases hi.pushed op with h | ⟨t, ht⟩
  · omega
  · have hp := hi.pushing t op ht
    omega

omit [DecidableEq T] in
theorem OwnerInv.not_mem_of_pushing {s : State T O} {b l : List O} (hi : OwnerInv s)
    (hh : HeapInv s b l) (t : T) (op : O) (h : (s.push t).pushing = some op) : op ∉ b ∧ op ∉ l := by
  have hp := hi.pushing t op h
  have hb := hi.bound op
  have hc := hh.count op
  exact ⟨List.count_eq_zero.mp (by omega), List.count_eq_zero.mp (by omega)⟩

omit [DecidableEq T] in
theorem OwnerInv.not_mem_of_free {s : State T O} {b l : List O} (hi : OwnerInv s)
    (hh : HeapInv s b l) {op : O} (h : s.pending op = false) : op ∉ b ∧ op ∉ l := by
  simp only [State.pending, decide_eq_false_iff_not] at h
  have hp := hi.pushed_le op
  have hc := hh.count op
  exact ⟨List.count_eq_zero.mp (by omega), List.count_eq_zero.mp (by omega)⟩

theorem heapInv_step {s s' : State T O} {a : Action T O} {b l : List O} (hh : HeapInv s b l)
    (ho : OwnerInv s) (h : Step s a s') : ∃ b' l', HeapInv s' b' l' := by
  obtain ⟨hl, hb, ht, hp, hn⟩ := id hh
  cases h with
  | write t op curTop hpc =>
    have hop := ho.not_mem_of_pushing hh t op (by simp [hpc, PushPc.pushing])
    exact ⟨b, l, hl.update hop.2 _, hb.update _ hop.1, ht, hp, hn⟩
  | exchanged t op hpc =>
    have hop := ho.not_mem_of_pushing hh t op (by simp [hpc, PushPc.pushing])
    refine ⟨b, op :: l, hl.push (ho.written t op _ hpc), hb, ht, ?_, ?_⟩
    · simp [hp]
    · rw [List.nodup_middle, List.nodup_cons]
      exact ⟨by simpa using hop, hn⟩
  | grab hpc =>
    simp only [hpc, Batch] at hb
    subst hb
    refine ⟨l.reverse, [], by simp, ⟨l, [], hl, by simp, by simp⟩, ?_, ?_, ?_⟩
    · simp [hp]
    · simp [hp]
    · simpa using hn
  | walk cur newTop hpc =>
    simp only [hpc, Batch] at hb
    obtain ⟨l₁, l₂, h₁, h₂, rfl⟩ := hb
    obtain ⟨m, rfl, hm⟩ := h₁.some_cases
    have hmem : cur ∈ (cur :: m).reverse := by simp
    have hcur : cur ∉ l₂ ∧ cur ∉ l :=
      ⟨List.disjoint_of_nodup_append hn.of_append_left hmem,
        List.disjoint_of_nodup_append hn (List.mem_append_left _ hmem)⟩
    have hstep := h₁.reverse_step h₂ hcur.1
    exact ⟨m.reverse ++ cur :: l₂, l, hl.update hcur.2 _, ⟨m, cur :: l₂, hstep.1, hstep.2, rfl⟩,
      by simpa using ht, by simpa using hp, by simpa using hn⟩
  | walked newTop hpc =>
    simp only [hpc, Batch] at hb
    obtain ⟨l₁, l₂, h₁, h₂, rfl⟩ := hb
    rw [Chain.none_iff] at h₁
    subst h₁
    exact ⟨l₂, l, hl, h₂, by simpa using ht, by simpa using hp, by simpa using hn⟩
  | apply op hpc =>
    simp only [hpc, Batch] at hb
    obtain ⟨m, rfl, hm⟩ := hb.some_cases
    exact ⟨m, l, hl, hm, by simpa using ht, by simpa using hp, (List.nodup_cons.mp hn).2⟩
  | done hpc =>
    simp only [hpc, Batch, Chain.none_iff] at hb
    exact ⟨b, l, hl, hb, ht, hp, hn⟩
  | applied op next hpc =>
    simp only [hpc, Batch] at hb
    exact ⟨b, l, hl, hb, ht, hp, hn⟩
  | deliver hpc =>
    simp only [hpc, Batch] at hb
    exact ⟨b, l, hl, hb, ht, hp, hn⟩
  | reuse op next hfree =>
    have hop := ho.not_mem_of_free hh hfree
    exact ⟨b, l, hl.update hop.2 _, hb.update _ hop.1, ht, hp, hn⟩
  | _ => exact ⟨b, l, hl, hb, ht, hp, hn⟩

omit [DecidableEq T] in
/-- A step that no operation enters or leaves `PushBack` in. -/
theorem OwnerInv.keep {s s' : State T O} (hi : OwnerInv s) (hs : s'.scheduled = s.scheduled)
    (hp : s'.pushed = s.pushed) (ha : ∀ op, s.applied.count op ≤ s'.applied.count op)
    (hpc : ∀ t, (s'.push t).pushing = (s.push t).pushing)
    (hw : ∀ t op curTop, s'.push t = .compareExchange op curTop → s'.next op = curTop) :
    OwnerInv s' where
  bound op := by
    rw [hs]
    exact Nat.le_trans (hi.bound op) (Nat.succ_le_succ (ha op))
  pushing t op ht := by
    rw [hs, hp]
    exact hi.pushing t op ((hpc t).symm.trans ht)
  pushed op := by
    simp only [hs, hp, hpc]
    exact hi.pushed op
  distinct t u op ht hu := hi.distinct t u op ((hpc t).symm.trans ht) ((hpc u).symm.trans hu)
  written := hw

omit [DecidableEq T] in
theorem count_append_ne {l : List O} {op o : O} (h : o ≠ op) : (l ++ [op]).count o = l.count o := by
  rw [List.count_append, List.count_singleton, if_neg (by simpa using Ne.symm h), Nat.add_zero]

omit [DecidableEq T] in
theorem count_append_self (l : List O) (op : O) : (l ++ [op]).count op = l.count op + 1 := by
  rw [List.count_append, List.count_singleton_self]

theorem ownerInv_schedule {s : State T O} {b l : List O} {t : T} {op : O} (hh : HeapInv s b l)
    (hi : OwnerInv s) (ht : s.push t = .idle) (hfree : s.pending op = false) :
    OwnerInv ({ s with scheduled := s.scheduled ++ [op] }.setPush t (.load op)) := by
  simp only [State.pending, decide_eq_false_iff_not] at hfree
  have hno : ∀ u, (s.push u).pushing ≠ some op := by
    intro u hu
    have hpu := hi.pushing u op hu
    have hcount := hh.count op
    omega
  have heq : s.scheduled.count op = s.pushed.count op :=
    (hi.pushed op).resolve_right fun ⟨u, hu⟩ => hno u hu
  refine ⟨?_, ?_, ?_, ?_, ?_⟩
  · intro o
    by_cases ho : o = op
    · subst ho
      rw [count_append_self]
      exact Nat.succ_le_succ (Nat.le_of_not_lt hfree)
    · rw [count_append_ne ho]
      exact hi.bound o
  · intro u o hu
    by_cases hut : u = t
    · subst hut
      simp only [Function.update_self, PushPc.pushing, Option.some.injEq] at hu
      subst hu
      rw [count_append_self, heq]
    · simp only [Function.update_of_ne hut] at hu
      have ho : o ≠ op := by
        rintro rfl
        exact hno u hu
      rw [count_append_ne ho]
      exact hi.pushing u o hu
  · intro o
    by_cases ho : o = op
    · exact Or.inr ⟨t, by simp [ho, PushPc.pushing]⟩
    · rw [count_append_ne ho]
      refine (hi.pushed o).imp_right fun ⟨u, hu⟩ => ⟨u, ?_⟩
      have hut : u ≠ t := by
        rintro rfl
        simp [ht, PushPc.pushing] at hu
      simpa only [Function.update_of_ne hut] using hu
  · -- nobody but `t` pushes the operation
    have hnew : ∀ u o, (Function.update s.push t (.load op) u).pushing = some o →
        u = t ∧ o = op ∨ u ≠ t ∧ o ≠ op ∧ (s.push u).pushing = some o := by
      intro u o hu
      by_cases hut : u = t
      · subst hut
        simp only [Function.update_self, PushPc.pushing, Option.some.injEq] at hu
        exact Or.inl ⟨rfl, hu.symm⟩
      · simp only [Function.update_of_ne hut] at hu
        exact Or.inr ⟨hut, fun ho => hno u (ho ▸ hu), hu⟩
    intro u v o hu hv
    rcases hnew u o hu with ⟨rfl, rfl⟩ | ⟨-, ho, hu'⟩
    · rcases hnew v o hv with ⟨rfl, -⟩ | ⟨-, ho, -⟩
      · rfl
      · exact (ho rfl).elim
    · rcases hnew v o hv with ⟨-, rfl⟩ | ⟨-, -, hv'⟩
      · exact (ho rfl).elim
      · exact hi.distinct u v o hu' hv'
  · exact fun u o curTop hu => hi.written u o curTop (eq_of_move hu (by simp))

theorem ownerInv_exchanged {s : State T O} {t : T} {op : O} {curTop : Option O} (hi : OwnerInv s)
    (ht : s.push t = .compareExchange op curTop) :
    OwnerInv ({ s with head := some op, pushed := s.pushed ++ [op] }.setPush t .fire) := by
  have htp : (s.push t).pushing = some op := by simp [ht, PushPc.pushing]
  have hback : ∀ u o, (Function.update s.push t .fire u).pushing = some o →
      o ≠ op ∧ (s.push u).pushing = some o := by
    intro u o hu
    have hut : u ≠ t := by
      rintro rfl
      simp [PushPc.pushing] at hu
    simp only [Function.update_of_ne hut] at hu
    refine ⟨?_, hu⟩
    rintro rfl
    exact hut (hi.distinct u t o hu htp)
  refine ⟨hi.bound, ?_, ?_, ?_, ?_⟩
  · intro u o hu
    obtain ⟨ho, hu'⟩ := hback u o hu
    rw [count_append_ne ho]
    exact hi.pushing u o hu'
  · intro o
    by_cases ho : o = op
    · subst ho
      rw [count_append_self]
      exact Or.inl (hi.pushing t o htp)
    · rw [count_append_ne ho]
      refine (hi.pushed o).imp_right fun ⟨u, hu⟩ => ⟨u, ?_⟩
      have hut : u ≠ t := by
        rintro rfl
        rw [htp] at hu
        exact ho (Option.some.inj hu).symm
      simpa only [Function.update_of_ne hut] using hu
  · exact fun u v o hu hv => hi.distinct u v o (hback u o hu).2 (hback v o hv).2
  · exact fun u o curTop hu => hi.written u o curTop (eq_of_move hu (by simp))

omit [DecidableEq T] in
/-- A node that is written is not the one that a compare-exchange is about, save
by the thread that pushes it. -/
theorem written_update {s : State T O} {op : O} (v : Option O) (hi : OwnerInv s)
    (hop : ∀ u, (s.push u).pushing ≠ some op) {u : T} {o : O} {curTop : Option O}
    (hu : s.push u = .compareExchange o curTop) : Function.update s.next op v o = curTop := by
  have hne : o ≠ op := by
    rintro rfl
    exact hop u (by simp [hu, PushPc.pushing])
  rw [Function.update_of_ne hne]
  exact hi.written u o curTop hu

theorem ownerInv_step {s s' : State T O} {a : Action T O} {b l : List O} (hh : HeapInv s b l)
    (hi : OwnerInv s) (h : Step s a s') : OwnerInv s' := by
  have hle : ∀ op, s.applied.count op ≤ s.applied.count op := fun _ => Nat.le_refl _
  cases h with
  | schedule t op ht hfree => exact ownerInv_schedule hh hi ht hfree
  | exchanged t op ht => exact ownerInv_exchanged hi ht
  | load t op ht | failed t op c a ht | fire t ht =>
    refine hi.keep rfl rfl hle (range_move PushPc.pushing (by simp [ht, PushPc.pushing])) ?_
    exact fun u o curTop hu => hi.written u o curTop (eq_of_move hu (by simp))
  | write t op c ht =>
    refine hi.keep rfl rfl hle (range_move PushPc.pushing (by simp [ht, PushPc.pushing])) ?_
    intro u o curTop hu
    by_cases hut : u = t
    · subst hut
      simp only [Function.update_self, PushPc.compareExchange.injEq] at hu
      obtain ⟨rfl, rfl⟩ := hu
      simp
    · simp only [Function.update_of_ne hut] at hu
      have hne : o ≠ op := by
        rintro rfl
        exact hut (hi.distinct u t o (by simp [hu, PushPc.pushing]) (by simp [ht, PushPc.pushing]))
      simpa only [Function.update_of_ne hne] using hi.written u o curTop hu
  | walk cur newTop hpc =>
    refine hi.keep rfl rfl hle (fun _ => rfl) fun u o curTop hu => written_update _ hi ?_ hu
    intro u hu
    have hbatch := hh.batch
    simp only [hpc, Batch] at hbatch
    obtain ⟨l₁, l₂, h₁, -, rfl⟩ := hbatch
    obtain ⟨m, rfl, -⟩ := h₁.some_cases
    exact (hi.not_mem_of_pushing hh u cur hu).1 (by simp)
  | reuse op next hf =>
    refine hi.keep rfl rfl hle (fun _ => rfl) fun u o curTop hu => written_update _ hi ?_ hu
    intro u hu
    have hpu := hi.pushing u op hu
    have hcount := hh.count op
    simp only [State.pending, decide_eq_false_iff_not] at hf
    omega
  | apply op hpc =>
    refine hi.keep rfl rfl (fun o => ?_) (fun _ => rfl) hi.written
    simp only [List.count_append]
    omega
  | deliver | grab | walked | done | applied =>
    exact hi.keep rfl rfl hle (fun _ => rfl) hi.written

/-! ### The async signal -/

/-- A listed operation has its signal: undelivered, about to be sent, or
delivered to an `ApplyOperations` that has not exchanged `Head` yet. -/
def Signalled (s : State T O) : Prop :=
  s.head ≠ none → s.apply ≠ .grab → s.asyncSignal = true ∨ ∃ t, s.push t = .fire

theorem signalled_step {s s' : State T O} {a : Action T O} (hi : Signalled s) (h : Step s a s') :
    Signalled s' := by
  intro hhead hgrab
  cases h with
  | exchanged t op ht => exact Or.inr ⟨t, by simp⟩
  | fire t ht => exact Or.inl rfl
  | deliver hpc hs => exact (hgrab rfl).elim
  | grab hpc => exact (hhead rfl).elim
  | schedule t op ht hpend | load t op ht | write t op c ht | failed t op c a ht =>
    rcases hi hhead hgrab with hs | ⟨u, hu⟩
    · exact Or.inl hs
    · have hut : u ≠ t := by
        rintro rfl
        simp [hu] at ht
      exact Or.inr ⟨u, by simpa only [Function.update_of_ne hut] using hu⟩
  | reuse op next hf => exact hi hhead hgrab
  | walk cur newTop hpc | walked newTop hpc | apply op hpc | done hpc | applied op next hpc =>
    exact hi hhead (by simp [hpc])

theorem reachable_heap {s : State T O} (h : system.Reachable s) :
    (∃ b l, HeapInv s b l) ∧ OwnerInv s := by
  refine System.Reachable.invariant (I := fun s => (∃ b l, HeapInv s b l) ∧ OwnerInv s) ?_ ?_ h
  · rintro _ rfl
    refine ⟨⟨[], [], ⟨rfl, rfl, rfl, rfl, List.nodup_nil⟩⟩, ?_⟩
    constructor <;> simp [initial, PushPc.pushing]
  · rintro s a s' ⟨⟨b, l, hh⟩, ho⟩ hs
    exact ⟨heapInv_step hh ho (step_cases hs), ownerInv_step hh ho (step_cases hs)⟩

theorem reachable_signalled {s : State T O} (h : system.Reachable s) : Signalled s := by
  refine System.Reachable.invariant ?_ ?_ h
  · rintro _ rfl
    exact fun hne => (hne rfl).elim
  · intro s a s' hi hs
    exact signalled_step hi (step_cases hs)

/-! ### Nothing is stranded -/

/-- Every call of `Schedule` leads to at most one `Apply`. The operations in the
list, and those left of the batch, are pending, and the others pending are still
being pushed. A list is never left without a signal, and what is pushed after
the exchange that took the batch is not in it. -/
structure NotStranded (s : State T O) : Prop where
  once : ∀ op, s.applied.count op ≤ s.scheduled.count op ∧
    s.scheduled.count op ≤ s.applied.count op + 1
  kept : ∃ b l, Batch s.next s.apply b ∧ Chain s.next s.head l ∧ (b ++ l).Nodup ∧
    (∀ op ∈ b, s.pending op = true ∧ op ∉ s.pushed.drop s.taken) ∧
    (∀ op ∈ l, s.pending op = true) ∧
    ∀ op, s.pending op = true → op ∈ b ∨ op ∈ l ∨ ∃ t, (s.push t).pushing = some op
  signalled : s.head ≠ none → s.apply ≠ .grab → s.asyncSignal = true ∨ ∃ t, s.push t = .fire

omit [DecidableEq T] [DecidableEq O] in
theorem HeapInv.drop_taken {s : State T O} {b l : List O} (hh : HeapInv s b l) :
    s.pushed.drop s.taken = l.reverse := by
  rw [hh.taken, hh.pushed, List.drop_left]

omit [DecidableEq T] in
theorem OwnerInv.pending_of_mem {s : State T O} {b l : List O} (hi : OwnerInv s)
    (hh : HeapInv s b l) {op : O} (h : op ∈ b ∨ op ∈ l) : s.pending op = true := by
  have hc := hh.count op
  have hp := hi.pushed_le op
  have hpos : 0 < b.count op ∨ 0 < l.count op := by
    rcases h with h | h
    · exact Or.inl (List.count_pos_iff.mpr h)
    · exact Or.inr (List.count_pos_iff.mpr h)
  simp only [State.pending, decide_eq_true_eq]
  omega

omit [DecidableEq T] in
theorem OwnerInv.mem_of_pending {s : State T O} {b l : List O} (hi : OwnerInv s)
    (hh : HeapInv s b l) {op : O} (h : s.pending op = true) :
    op ∈ b ∨ op ∈ l ∨ ∃ t, (s.push t).pushing = some op := by
  simp only [State.pending, decide_eq_true_eq] at h
  have hc := hh.count op
  rcases hi.pushed op with heq | ht
  · by_cases hb : 0 < b.count op
    · exact Or.inl (List.count_pos_iff.mp hb)
    · exact Or.inr (Or.inl (List.count_pos_iff.mp (by omega)))
  · exact Or.inr (Or.inr ht)

/-- No scheduled operation is stranded, dropped or applied twice. -/
theorem not_stranded {s : State T O} (h : system.Reachable s) : NotStranded s := by
  obtain ⟨⟨b, l, hh⟩, hi⟩ := reachable_heap h
  refine ⟨?_, ⟨b, l, hh.batch, hh.list, hh.nodup, ?_, ?_, ?_⟩, reachable_signalled h⟩
  · intro op
    have hc := hh.count op
    have hp := hi.pushed_le op
    exact ⟨by omega, hi.bound op⟩
  · intro op hop
    refine ⟨hi.pending_of_mem hh (Or.inl hop), ?_⟩
    rw [hh.drop_taken, List.mem_reverse]
    exact (List.disjoint_of_nodup_append hh.nodup) hop
  · exact fun op hop => hi.pending_of_mem hh (Or.inr hop)
  · exact fun op hop => hi.mem_of_pending hh hop

/-- Thread 1 fails its compare-exchange against the push of thread 0 and against
the exchange of the loop, and succeeds while the batch is being walked. -/
def pushedDuringBatch : List (Action (Fin 2) (Fin 2)) :=
  [.schedule 0 0, .schedule 1 1, .push 1, .push 1, .push 0, .push 0, .push 0, .push 1, .push 0,
   .deliver, .loop, .push 1, .push 1, .push 1, .push 1, .loop, .loop, .loop, .reuse 0 (some 1)]

theorem not_stranded_pushing : ∃ s : State (Fin 2) (Fin 2), system.Reachable s ∧
    s.apply = .apply 0 none ∧ s.head = some 1 ∧ s.pending 1 = true ∧ NotStranded s := by
  have hrun : (system.exec (initial : State (Fin 2) (Fin 2)) pushedDuringBatch).map
      (fun s => (s.apply, s.head, s.pending 1)) = some (.apply 0 none, some 1, true) := by decide
  obtain ⟨s, hs, heq⟩ := Option.map_eq_some_iff.mp hrun
  simp only [Prod.mk.injEq] at heq
  have hreach := System.reachable_exec _ (.initial rfl) hs
  exact ⟨s, hreach, heq.1, heq.2.1, heq.2.2, not_stranded hreach⟩

end UvExec.OperationList
