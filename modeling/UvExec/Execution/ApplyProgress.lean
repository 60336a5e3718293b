import UvExec.Execution.Scheduling
import UvExec.Lib.Fairness

/-! # The progress of `ApplyOperations` and of `PushBack`

From its exchange on `ApplyOperations` has a number of steps left that nobody
else changes. A compare-exchange of `PushBack` fails because another thread has
succeeded with its own, or because the loop has taken the list. -/

namespace UvExec.OperationList
open Lib
variable {T O : Type} [DecidableEq T] [DecidableEq O]

/-! ### The steps left -/

/-- `n` steps are left of an `ApplyOperations` that has exchanged `Head`, and the
operations `b` are still to be applied: three steps for each one that `Grab` has
yet to walk past, two for each one behind it. -/
def Rest (next : O → Option O) : ApplyPc O → List O → ℕ → Prop
  | .idle, b, n => b = [] ∧ n = 0
  | .grab, _, _ => False
  | .walk cur newTop, b, n => ∃ l₁ l₂, Chain next cur l₁ ∧ Chain next newTop l₂ ∧
      b = l₁.reverse ++ l₂ ∧ n = 3 * l₁.length + 2 * l₂.length + 2
  | .loop op, b, n => Chain next op b ∧ n = 2 * b.length + 1
  | .apply _ op, b, n => Chain next op b ∧ n = 2 * b.length + 2

omit [DecidableEq O] in
theorem Rest.congr {next next' : O → Option O} {p : ApplyPc O} {b : List O} {n : ℕ}
    (h : Rest next p b n) (heq : ∀ op ∈ b, next' op = next op) : Rest next' p b n := by
  cases p with
  | idle | grab => exact h
  | walk cur newTop =>
    obtain ⟨l₁, l₂, h₁, h₂, rfl, hn⟩ := h
    refine ⟨l₁, l₂, h₁.congr fun op hop => heq op ?_, h₂.congr fun op hop => heq op ?_, rfl, hn⟩
    · simp [hop]
    · simp [hop]
  | loop op => exact ⟨h.1.congr heq, h.2⟩
  | apply o op => exact ⟨h.1.congr heq, h.2⟩

omit [DecidableEq O] in
theorem Rest.of_batch {next : O → Option O} {p : ApplyPc O} {b : List O} (h : Batch next p b)
    (hp : p ≠ .grab) : ∃ n, Rest next p b n := by
  cases p with
  | idle => exact ⟨0, h, rfl⟩
  | grab => exact (hp rfl).elim
  | walk cur newTop =>
    obtain ⟨l₁, l₂, h₁, h₂, hb⟩ := h
    exact ⟨_, l₁, l₂, h₁, h₂, hb, rfl⟩
  | loop op => exact ⟨_, h, rfl⟩
  | apply o op => exact ⟨_, h, rfl⟩

/-- The batch of the last exchange is what has been applied of it and what is left. -/
def RestInv (s : State T O) (n : ℕ) : Prop :=
  ∃ b, s.pushed.take s.taken = s.applied ++ b ∧ Rest s.next s.apply b n

omit [DecidableEq T] [DecidableEq O] in
theorem HeapInv.take_taken {s : State T O} {b l : List O} (hh : HeapInv s b l) :
    s.pushed.take s.taken = s.applied ++ b := by
  rw [hh.taken, hh.pushed, List.take_left]

/-- What a step of another thread leaves as it is. -/
theorem frame_step {s s' : State T O} {a : Action T O} {b l : List O} (hh : HeapInv s b l)
    (ho : OwnerInv s) (h : Step s a s') (hl : a ≠ .loop) (hd : a ≠ .deliver) :
    s'.apply = s.apply ∧ s'.applied = s.applied ∧ s'.taken = s.taken ∧ s.pushed <+: s'.pushed ∧
      ∀ o ∈ b, s'.next o = s.next o := by
  cases h with
  | schedule | load | failed | fire => exact ⟨rfl, rfl, rfl, List.prefix_rfl, fun _ _ => rfl⟩
  | write t op curTop hpc =>
    have hop := ho.not_mem_of_pushing hh t op (by simp [hpc, PushPc.pushing])
    refine ⟨rfl, rfl, rfl, List.prefix_rfl, fun o hmem => Function.update_of_ne ?_ _ _⟩
    rintro rfl
    exact hop.1 hmem
  | exchanged => exact ⟨rfl, rfl, rfl, List.prefix_append _ _, fun _ _ => rfl⟩
  | reuse op next hfree =>
    have hop := ho.not_mem_of_free hh hfree
    refine ⟨rfl, rfl, rfl, List.prefix_rfl, fun o hmem => Function.update_of_ne ?_ _ _⟩
    rintro rfl
    exact hop.1 hmem
  | deliver => exact (hd rfl).elim
  | grab | walk | walked | apply | done | applied => exact (hl rfl).elim

omit [DecidableEq T] [DecidableEq O] in
theorem HeapInv.taken_le {s : State T O} {b l : List O} (hh : HeapInv s b l) :
    s.taken ≤ s.pushed.length := by
  rw [hh.taken, hh.pushed]
  simp only [List.length_append]
  omega

theorem restInv_frame {s s' : State T O} {a : Action T O} {b l : List O} {n : ℕ}
    (hh : HeapInv s b l) (ho : OwnerInv s) (hr : RestInv s n) (h : Step s a s') (hl : a ≠ .loop)
    (hd : a ≠ .deliver) : RestInv s' n ∧ s'.pushed.take s'.taken = s.pushed.take s.taken := by
  obtain ⟨happly, happlied, htaken, ⟨new, hpushed⟩, hnext⟩ := frame_step hh ho h hl hd
  obtain ⟨b', hb', hrest⟩ := hr
  have heq : b' = b := List.append_cancel_left (hb'.symm.trans hh.take_taken)
  subst heq
  have htake : s'.pushed.take s'.taken = s.pushed.take s.taken := by
    rw [htaken, ← hpushed, List.take_append_of_le_length hh.taken_le]
  refine ⟨⟨b', ?_, ?_⟩, htake⟩
  · rw [htake, happlied, hb']
  · rw [happly]
    exact hrest.congr hnext

omit [DecidableEq T] in
/-- Each step of the loop's thread is one of those left. -/
theorem restInv_loop {s s' : State T O} {b l : List O} {n : ℕ} (hh : HeapInv s b l)
    (hr : RestInv s n) (h : applyStep s = some s') :
    (∃ m, n = m + 1 ∧ RestInv s' m) ∧ s'.pushed.take s'.taken = s.pushed.take s.taken := by
  obtain ⟨b', hb', hrest⟩ := hr
  have heq : b' = b := List.append_cancel_left (hb'.symm.trans hh.take_taken)
  subst heq
  unfold applyStep at h
  cases hp : s.apply with
  | idle => simp [hp] at h
  | grab =>
    rw [hp] at hrest
    exact hrest.elim
  | walk cur newTop =>
    rw [hp] at hrest
    obtain ⟨l₁, l₂, h₁, h₂, rfl, rfl⟩ := hrest
    cases cur with
    | none =>
      simp only [hp, Option.some.injEq] at h
      subst h
      rw [Chain.none_iff] at h₁
      subst h₁
      exact ⟨⟨2 * l₂.length + 1, by simp, l₂, hb', h₂, rfl⟩, rfl⟩
    | some cur =>
      simp only [hp, Option.some.injEq] at h
      subst h
      obtain ⟨m, rfl, hm⟩ := h₁.some_cases
      have hcur : cur ∉ l₂ := by
        have hn := hh.nodup.of_append_left
        exact List.disjoint_of_nodup_append hn (by simp)
      obtain ⟨hm', h₂'⟩ := h₁.reverse_step h₂ hcur
      refine ⟨⟨3 * m.length + 2 * (cur :: l₂).length + 2, ?_, m.reverse ++ cur :: l₂, ?_, m,
        cur :: l₂, hm', h₂', rfl, rfl⟩, rfl⟩
      · simp only [List.length_cons]
        omega
      · simpa using hb'
  | loop op =>
    rw [hp] at hrest
    obtain ⟨hchain, rfl⟩ := hrest
    cases op with
    | none =>
      simp only [hp, Option.some.injEq] at h
      subst h
      rw [Chain.none_iff] at hchain
      subst hchain
      exact ⟨⟨0, rfl, [], hb', rfl, rfl⟩, rfl⟩
    | some op =>
      simp only [hp, Option.some.injEq] at h
      subst h
      obtain ⟨m, rfl, hm⟩ := hchain.some_cases
      refine ⟨⟨2 * m.length + 2, ?_, m, ?_, hm, rfl⟩, rfl⟩
      · simp only [List.length_cons]
        omega
      · simpa using hb'
  | apply o op =>
    rw [hp] at hrest
    obtain ⟨hchain, rfl⟩ := hrest
    simp only [hp, Option.some.injEq] at h
    subst h
    exact ⟨⟨2 * b'.length + 1, rfl, b', hb', hchain, rfl⟩, rfl⟩

omit [DecidableEq T] [DecidableEq O] in
theorem RestInv.pos_iff {s : State T O} {n : ℕ} (h : RestInv s n) : s.apply ≠ .idle ↔ 0 < n := by
  obtain ⟨b, -, hrest⟩ := h
  cases hp : s.apply with
  | idle =>
    rw [hp] at hrest
    simp [hrest.2]
  | grab =>
    rw [hp] at hrest
    exact hrest.elim
  | walk cur newTop =>
    rw [hp] at hrest
    obtain ⟨l₁, l₂, -, -, -, rfl⟩ := hrest
    simp
  | loop op | apply o op =>
    rw [hp] at hrest
    simp [hrest.2]

omit [DecidableEq T] [DecidableEq O] in
theorem RestInv.idle {s : State T O} (h : RestInv s 0) : s.apply = .idle := by
  by_contra hne
  exact absurd (h.pos_iff.mp hne) (by omega)

omit [DecidableEq T] [DecidableEq O] in
theorem RestInv.applied {s : State T O} (h : RestInv s 0) : s.applied = s.pushed.take s.taken := by
  have hidle := h.idle
  obtain ⟨b, hb, hrest⟩ := h
  rw [hidle] at hrest
  rw [hb, hrest.1, List.append_nil]

omit [DecidableEq T] in
theorem applyStep_isSome {s : State T O} (h : s.apply ≠ .idle) : (applyStep s).isSome := by
  unfold applyStep
  cases hp : s.apply with
  | idle => exact (h hp).elim
  | grab => rfl
  | walk cur newTop => cases cur <;> rfl
  | loop op => cases op <;> rfl
  | apply o op => rfl

omit [DecidableEq T] in
/-- The exchange fixes what is left. -/
theorem restInv_grab {s s' : State T O} {b l : List O} (hh : HeapInv s b l) (hp : s.apply = .grab)
    (h : applyStep s = some s') :
    RestInv s' (3 * l.length + 2) ∧ s'.pushed.take s'.taken = s.pushed := by
  have hb := hh.batch
  rw [hp] at hb
  have hpushed := hh.pushed
  rw [hb, List.append_nil] at hpushed
  simp only [applyStep, hp, Option.some.injEq] at h
  subst h
  refine ⟨⟨l.reverse, ?_, l, [], hh.list, rfl, ?_, ?_⟩, ?_⟩
  · simpa using hpushed
  · rw [List.append_nil]
  · simp
  · simp

theorem applied_step {s s' : State T O} {a : Action T O} (h : Step s a s') :
    s.applied <+: s'.applied := by
  cases h with
  | apply => exact List.prefix_append _ _
  | _ => exact List.prefix_rfl

/-! ### `ApplyOperations` is wait-free -/

/-- With `n` steps left of those that `total` were, or over, until libuv calls it
again, with all of `pushed` applied. -/
def Applying (pushed : List O) (total : ℕ) (past : List (Action T O)) (t : State T O) : Prop :=
  (∃ n, 0 < n ∧ past.count .loop + n = total ∧ RestInv t n ∧ t.pushed.take t.taken = pushed) ∨
    total ≤ past.count .loop ∧ pushed <+: t.applied ∧
      (.deliver ∉ past → past.count .loop = total ∧ t.apply = .idle)

/-- What is over stays so until the next call. -/
theorem over_step {total : ℕ} {past : List (Action T O)} {t t' : State T O} {a : Action T O}
    (ht : system.Reachable t)
    (hover : .deliver ∉ past → past.count .loop = total ∧ t.apply = .idle)
    (h : step t a = some t') (ha : .deliver ∉ past ++ [a]) :
    (past ++ [a]).count .loop = total ∧ t'.apply = .idle := by
  obtain ⟨⟨b, l, hh⟩, ho⟩ := reachable_heap ht
  simp only [List.mem_append, List.mem_singleton, not_or] at ha
  obtain ⟨htotal, hidle⟩ := hover ha.1
  have hl : a ≠ .loop := by
    rintro rfl
    simp [step, applyStep, hidle] at h
  have hcount := count_append_ne (l := past) (Ne.symm hl)
  obtain ⟨happly, -⟩ := frame_step hh ho (step_cases h) hl (Ne.symm ha.2)
  exact ⟨hcount.trans htotal, happly.trans hidle⟩

theorem applying_step {pushed : List O} {total : ℕ} {past : List (Action T O)} {t t' : State T O}
    {a : Action T O} (ht : system.Reachable t) (hi : Applying pushed total past t)
    (h : step t a = some t') : Applying pushed total (past ++ [a]) t' := by
  obtain ⟨⟨b, l, hh⟩, ho⟩ := reachable_heap ht
  rcases hi with ⟨n, hn, htotal, hrest, htake⟩ | ⟨hle, hpre, hover⟩
  · have hbusy := hrest.pos_iff.mpr hn
    by_cases hl : a = .loop
    · subst hl
      obtain ⟨⟨m, rfl, hrest'⟩, htake'⟩ := restInv_loop hh hrest h
      have hcount := count_append_self past (Action.loop : Action T O)
      cases m with
      | zero =>
        have hall : t'.applied = pushed := by rw [hrest'.applied, htake', htake]
        exact Or.inr ⟨by omega, hall ▸ List.prefix_rfl, fun _ => ⟨by omega, hrest'.idle⟩⟩
      | succ m => exact Or.inl ⟨m + 1, by omega, by omega, hrest', htake'.trans htake⟩
    · have hd : a ≠ .deliver := by
        rintro rfl
        simp [step, hbusy] at h
      have hcount := count_append_ne (l := past) (Ne.symm hl)
      obtain ⟨hrest', htake'⟩ := restInv_frame hh ho hrest (step_cases h) hl hd
      exact Or.inl ⟨n, hn, by omega, hrest', htake'.trans htake⟩
  · refine Or.inr ⟨?_, hpre.trans (applied_step (step_cases h)), over_step ht hover h⟩
    rw [List.count_append]
    omega

/-- With `k` operations in the list at its exchange `ApplyOperations` takes `3k + 2`
more steps and is over then, until libuv calls it again. Each of them is enabled
whatever other threads do, and after them it has applied everything that had been
pushed before the exchange. -/
theorem applyOperations_waitFree {s s₁ t : State T O} {l : List O} {as : List (Action T O)}
    (h : system.Reachable s) (hgrab : s.apply = .grab) (hl : Chain s.next s.head l)
    (hs : step s .loop = some s₁) (hrun : system.exec s₁ as = some t) :
    (as.count .loop < 3 * l.length + 2 → t.apply ≠ .idle ∧ (step t .loop).isSome) ∧
      (.deliver ∉ as → as.count .loop ≤ 3 * l.length + 2 ∧
        (as.count .loop = 3 * l.length + 2 → t.apply = .idle)) ∧
      (3 * l.length + 2 ≤ as.count .loop → s.pushed <+: t.applied) := by
  obtain ⟨⟨b, l', hh⟩, -⟩ := reachable_heap h
  obtain rfl : l' = l := hh.list.unique hl
  obtain ⟨hrest, htake⟩ := restInv_grab hh hgrab hs
  have hstart : system.Reachable s₁ ∧ Applying s.pushed (3 * l'.length + 2) [] s₁ :=
    ⟨h.step .loop hs, Or.inl ⟨_, by omega, by simp, hrest, htake⟩⟩
  have hend := System.exec_labels (S := system)
    (I := fun past u => system.Reachable u ∧ Applying s.pushed (3 * l'.length + 2) past u)
    (fun past u a u' hi hu => ⟨hi.1.step a hu, applying_step hi.1 hi.2 hu⟩) as hstart hrun
  rcases hend.2 with ⟨n, hn, htotal, hrest', -⟩ | ⟨hle, hpre, hover⟩
  · have hbusy := hrest'.pos_iff.mpr hn
    refine ⟨fun _ => ⟨hbusy, applyStep_isSome hbusy⟩, fun _ => ⟨by omega, ?_⟩, ?_⟩
    · intro heq
      omega
    · intro hge
      omega
  · refine ⟨?_, fun hno => ⟨Nat.le_of_eq (hover hno).1, fun _ => (hover hno).2⟩, fun _ => hpre⟩
    intro hlt
    omega

/-- Two operations are listed at the exchange, and one more is pushed while the
batch is being walked. -/
def pushedWhileApplying : List (Action Bool Bool) × List (Action Bool Bool) :=
  ([.schedule false false, .push false, .push false, .push false, .push false,
    .schedule true true, .push true, .push true, .push true, .deliver],
   [.loop, .push true, .loop, .loop, .loop, .loop, .schedule false false, .push false, .loop,
    .push false, .loop, .push false, .loop])

theorem applyOperations_waitFree_pushing : ∃ s s₁ t : State Bool Bool, system.Reachable s ∧
    s.apply = .grab ∧ Chain s.next s.head [true, false] ∧ step s .loop = some s₁ ∧
    system.exec s₁ pushedWhileApplying.2 = some t ∧ t.head = some false ∧
    t.apply = .idle ∧ s.pushed <+: t.applied := by
  have hfirst : (system.exec initial pushedWhileApplying.1).map
      (fun s => (s.apply, s.head, s.next true, s.next false)) =
      some (.grab, some true, some false, none) := by decide
  have hall : (system.exec initial (pushedWhileApplying.1 ++ .loop :: pushedWhileApplying.2)).map
      (fun s => s.head) = some (some false) := by decide
  obtain ⟨s, hs, heq⟩ := Option.map_eq_some_iff.mp hfirst
  obtain ⟨t, ht, hhead⟩ := Option.map_eq_some_iff.mp hall
  simp only [Prod.mk.injEq] at heq
  obtain ⟨hgrab, htop, htrue, hfalse⟩ := heq
  have hreach : system.Reachable s := System.reachable_exec _ (.initial rfl) hs
  have hchain : Chain s.next s.head [true, false] := by simp [htop, htrue, hfalse]
  rw [System.exec_append _ _ hs] at ht
  obtain ⟨s₁, hs₁, hrest⟩ := Option.bind_eq_some_iff.mp ht
  obtain ⟨-, hover, happlied⟩ := applyOperations_waitFree hreach hgrab hchain hs₁ hrest
  exact ⟨s, s₁, t, hreach, hgrab, hchain, hs₁, hrest, hhead, (hover (by decide)).2 (by decide),
    happlied (by decide)⟩

/-! ### Everything pushed is applied at last -/

def LoopThread (a : Action T O) : Prop := a = .deliver ∨ a = .loop

def InPushBack (t : T) (a : Action T O) : Prop := a = .push t

theorem pushed_step {s s' : State T O} {a : Action T O} (h : Step s a s') :
    s.pushed <+: s'.pushed := by
  cases h with
  | exchanged => exact List.prefix_append _ _
  | _ => exact List.prefix_rfl

omit [DecidableEq T] in
theorem applyStep_signal {s s' : State T O} (h : applyStep s = some s') :
    s'.asyncSignal = s.asyncSignal := by
  unfold applyStep at h
  split at h
  · cases h
  all_goals
    cases h
    rfl

omit [DecidableEq T] in
theorem applyStep_frame {s s' : State T O} (hgrab : s.apply ≠ .grab) (h : applyStep s = some s') :
    s'.push = s.push ∧ s'.head = s.head := by
  unfold applyStep at h
  split at h
  · cases h
  · exact (hgrab ‹_›).elim
  all_goals
    cases h
    exact ⟨rfl, rfl⟩

theorem signal_kept {s s' : State T O} {a : Action T O} (h : Step s a s') (hd : a ≠ .deliver)
    (hs : s.asyncSignal = true) : s'.asyncSignal = true := by
  cases h with
  | fire => rfl
  | deliver => exact (hd rfl).elim
  | _ => exact hs

/-- Before the exchange that takes it, an operation waits for the batch that is
being applied, for the delivery of the signal and for the exchange. -/
def Awaited (k : ℕ) (s : State T O) (r : ℕ) : Prop :=
  k < s.pushed.length ∧ (s.apply = .grab ∧ r = 1 ∨
    s.asyncSignal = true ∧ ∃ n, RestInv s n ∧ r = n + 2)

theorem awaited_step {k r : ℕ} {s s' : State T O} {a : Action T O} (hs : system.Reachable s)
    (hi : Awaited k s r) (h : step s a = some s') :
    k < s'.taken ∨ ∃ r' ≤ r, Awaited k s' r' ∧ (LoopThread a → r' < r) := by
  obtain ⟨⟨b, l, hh⟩, ho⟩ := reachable_heap hs
  obtain ⟨hk, hphase⟩ := hi
  have hk' : k < s'.pushed.length := Nat.lt_of_lt_of_le hk (pushed_step (step_cases h)).length_le
  by_cases hl : a = .loop
  · subst hl
    rcases hphase with ⟨hgrab, rfl⟩ | ⟨hsig, n, hrest, rfl⟩
    · left
      simp only [step, applyStep, hgrab, Option.some.injEq] at h
      subst h
      exact hk
    · right
      obtain ⟨⟨m, rfl, hrest'⟩, -⟩ := restInv_loop hh hrest h
      have hsig' : s'.asyncSignal = true := by
        rw [applyStep_signal h]
        exact hsig
      exact ⟨m + 2, by omega, ⟨hk', Or.inr ⟨hsig', m, hrest', rfl⟩⟩, fun _ => by omega⟩
  · by_cases hd : a = .deliver
    · subst hd
      simp only [step, Option.ite_none_right_eq_some, Option.some.injEq] at h
      obtain ⟨⟨hidle, -⟩, rfl⟩ := h
      rcases hphase with ⟨hgrab, rfl⟩ | ⟨-, n, -, rfl⟩
      · simp [hidle] at hgrab
      · exact Or.inr ⟨1, by omega, ⟨hk', Or.inl ⟨rfl, rfl⟩⟩, fun _ => by omega⟩
    · right
      have hnot : ¬ LoopThread a := fun hor => hor.elim hd hl
      rcases hphase with ⟨hgrab, rfl⟩ | ⟨hsig, n, hrest, rfl⟩
      · have hgrab' := (frame_step hh ho (step_cases h) hl hd).1.trans hgrab
        exact ⟨1, Nat.le_refl 1, ⟨hk', Or.inl ⟨hgrab', rfl⟩⟩, fun hlt => (hnot hlt).elim⟩
      · obtain ⟨hrest', -⟩ := restInv_frame hh ho hrest (step_cases h) hl hd
        have hsig' := signal_kept (step_cases h) hd hsig
        exact ⟨n + 2, Nat.le_refl _, ⟨hk', Or.inr ⟨hsig', n, hrest', rfl⟩⟩,
          fun hlt => (hnot hlt).elim⟩

theorem awaited_enabled {k r : ℕ} {s : State T O} (hi : Awaited k s r) :
    system.Enabled LoopThread s := by
  by_cases hidle : s.apply = .idle
  · rcases hi.2 with ⟨hgrab, -⟩ | ⟨hsig, -⟩
    · simp [hidle] at hgrab
    · exact ⟨.deliver, _, Or.inl rfl, if_pos ⟨hidle, hsig⟩⟩
  · obtain ⟨s', hs'⟩ := Option.isSome_iff_exists.mp (applyStep_isSome hidle)
    exact ⟨.loop, s', Or.inr rfl, hs'⟩

/-- In the batch, an operation waits for those before it. -/
def InBatch (k : ℕ) (s : State T O) (r : ℕ) : Prop := k < s.taken ∧ RestInv s r

theorem inBatch_step {k r : ℕ} {s s' : State T O} {a : Action T O} (hs : system.Reachable s)
    (hi : InBatch k s r ∧ s.applied.length ≤ k) (h : step s a = some s') :
    k < s'.applied.length ∨
      ∃ r' ≤ r, (InBatch k s' r' ∧ s'.applied.length ≤ k) ∧ (LoopThread a → r' < r) := by
  obtain ⟨⟨b, l, hh⟩, ho⟩ := reachable_heap hs
  obtain ⟨⟨hk, hrest⟩, hle⟩ := hi
  have hlen := hh.taken_le
  have htaken : k < (s.pushed.take s.taken).length := by
    rw [List.length_take]
    omega
  have hbusy : 0 < r := by
    rcases Nat.eq_zero_or_pos r with rfl | hpos
    · rw [hrest.applied] at hle
      omega
    · exact hpos
  by_cases hdone : k < s'.applied.length
  · exact Or.inl hdone
  right
  have htaken' : ∀ t : State T O, t.pushed.take t.taken = s.pushed.take s.taken → k < t.taken := by
    intro t ht
    rw [← ht, List.length_take] at htaken
    omega
  by_cases hl : a = .loop
  · subst hl
    obtain ⟨⟨m, rfl, hrest'⟩, htake⟩ := restInv_loop hh hrest h
    exact ⟨m, by omega, ⟨⟨htaken' s' htake, hrest'⟩, by omega⟩, fun _ => by omega⟩
  · have hd : a ≠ .deliver := by
      rintro rfl
      simp [step, hrest.pos_iff.mpr hbusy] at h
    obtain ⟨hrest', htake⟩ := restInv_frame hh ho hrest (step_cases h) hl hd
    exact ⟨r, Nat.le_refl r, ⟨⟨htaken' s' htake, hrest'⟩, by omega⟩,
      fun hlt => (hlt.elim hd hl).elim⟩

theorem inBatch_enabled {k r : ℕ} {s : State T O} (hs : system.Reachable s)
    (hi : InBatch k s r ∧ s.applied.length ≤ k) : system.Enabled LoopThread s := by
  obtain ⟨⟨b, l, hh⟩, -⟩ := reachable_heap hs
  obtain ⟨⟨hk, hrest⟩, hle⟩ := hi
  have hbusy : s.apply ≠ .idle := by
    refine hrest.pos_iff.mpr (Nat.pos_of_ne_zero ?_)
    rintro rfl
    have hlen := hh.taken_le
    rw [hrest.applied, List.length_take] at hle
    omega
  obtain ⟨s', hs'⟩ := Option.isSome_iff_exists.mp (applyStep_isSome hbusy)
  exact ⟨.loop, s', Or.inr rfl, hs'⟩

theorem push_kept {s s' : State T O} {a : Action T O} {t : T} (h : Step s a s')
    (ha : a ≠ .push t) (ht : s.push t = .fire) : s'.push t = .fire := by
  cases h with
  | schedule u op hu | load u op hu | write u op c hu | exchanged u op hu | failed u op c a hu
  | fire u hu =>
    show Function.update s.push u _ t = .fire
    by_cases hut : t = u
    · subst hut
      simp_all
    · rwa [Function.update_of_ne hut]
  | _ => exact ht

theorem exists_awaited {k : ℕ} {s : State T O} (hs : system.Reachable s) (hk : k < s.pushed.length)
    (hor : s.apply = .grab ∨ s.asyncSignal = true) : ∃ r, Awaited k s r := by
  by_cases hgrab : s.apply = .grab
  · exact ⟨1, hk, Or.inl ⟨hgrab, rfl⟩⟩
  · obtain ⟨⟨b, l, hh⟩, -⟩ := reachable_heap hs
    obtain ⟨n, hrest⟩ := Rest.of_batch hh.batch hgrab
    have hsig := hor.resolve_left hgrab
    exact ⟨n + 2, hk, Or.inr ⟨hsig, n, ⟨b, hh.take_taken, hrest⟩, rfl⟩⟩

variable (e : (system : System (State T O) (Action T O)).Execution)

/-- A listed operation whose signal is not yet sent. -/
theorem eventually_signalled {t : T} (hpush : e.WeaklyFair (InPushBack t)) {n : ℕ}
    (ht : (e.state n).push t = .fire) : ∃ m, n ≤ m ∧ (e.state m).asyncSignal = true := by
  refine e.leadsTo_of_rank (K := system.Reachable) (P := fun s r => r = 0 ∧ s.push t = .fire)
    (G := fun s => s.asyncSignal = true) hpush ?_ ?_ (fun i _ => e.reachable i) (r := 0) ⟨rfl, ht⟩
  · intro s r _ hP _
    exact ⟨.push t, _, rfl, by simp only [system, step, pushStep, hP.2]; rfl⟩
  · rintro s a s' r - - ⟨rfl, hfire⟩ h
    by_cases ha : a = .push t
    · left
      subst ha
      have h' : pushStep s t = some s' := h
      simp only [pushStep, hfire, Option.some.injEq] at h'
      exact h' ▸ rfl
    · refine Or.inr ⟨0, Nat.le_refl 0, ⟨rfl, ?_⟩, fun hin => (ha hin).elim⟩
      exact push_kept (step_cases h) ha hfire

theorem eventually_taken (hloop : e.WeaklyFair LoopThread)
    (hpush : ∀ t, e.WeaklyFair (InPushBack t)) {k n : ℕ} (hk : k < (e.state n).pushed.length) :
    ∃ m, n ≤ m ∧ k < (e.state m).taken := by
  obtain ⟨⟨b, l, hh⟩, -⟩ := reachable_heap (e.reachable n)
  by_cases htaken : k < (e.state n).taken
  · exact ⟨n, Nat.le_refl n, htaken⟩
  have hsignal : ∃ m, n ≤ m ∧ ((e.state m).apply = .grab ∨ (e.state m).asyncSignal = true) := by
    by_cases hgrab : (e.state n).apply = .grab
    · exact ⟨n, Nat.le_refl n, Or.inl hgrab⟩
    have hhead : (e.state n).head ≠ none := by
      intro hnone
      have hlist := hh.list
      rw [hnone, Chain.none_iff] at hlist
      have hpushed := congrArg List.length hh.pushed
      rw [hlist, List.reverse_nil, List.append_nil, ← hh.taken] at hpushed
      omega
    rcases reachable_signalled (e.reachable n) hhead hgrab with hs | ⟨t, ht⟩
    · exact ⟨n, Nat.le_refl n, Or.inr hs⟩
    · obtain ⟨m, hm, hs⟩ := eventually_signalled e (hpush t) ht
      exact ⟨m, hm, Or.inr hs⟩
  obtain ⟨m, hm, hor⟩ := hsignal
  have hkm : k < (e.state m).pushed.length := by
    refine e.kept (K := fun _ => True) (I := fun s => k < s.pushed.length) (fun _ _ => trivial) ?_ hm hk
    exact fun s a s' _ hi h => Nat.lt_of_lt_of_le hi (pushed_step (step_cases h)).length_le
  obtain ⟨r, hr⟩ := exists_awaited (e.reachable m) hkm hor
  obtain ⟨i, hi, hg⟩ := e.leadsTo_of_rank (K := system.Reachable) (G := fun s => k < s.taken) hloop
    (fun s r' _ hP _ => awaited_enabled hP) (fun s a s' r' hs _ hP h => awaited_step hs hP h)
    (fun i _ => e.reachable i) hr
  exact ⟨i, by omega, hg⟩

theorem eventually_applied_one (hloop : e.WeaklyFair LoopThread)
    (hpush : ∀ t, e.WeaklyFair (InPushBack t)) {k n : ℕ} (hk : k < (e.state n).pushed.length) :
    ∃ m, n ≤ m ∧ k < (e.state m).applied.length := by
  obtain ⟨m, hm, htaken⟩ := eventually_taken e hloop hpush hk
  obtain ⟨⟨b, l, hh⟩, -⟩ := reachable_heap (e.reachable m)
  by_cases hdone : k < (e.state m).applied.length
  · exact ⟨m, hm, hdone⟩
  have hgrab : (e.state m).apply ≠ .grab := by
    intro hgrab
    have hb := hh.batch
    rw [hgrab] at hb
    have hlen := hh.taken
    rw [hb, List.append_nil] at hlen
    omega
  obtain ⟨r, hrest⟩ := Rest.of_batch hh.batch hgrab
  obtain ⟨i, hi, hg⟩ := e.leadsTo_of_rank (K := system.Reachable)
    (P := fun s r => InBatch k s r ∧ s.applied.length ≤ k) (G := fun s => k < s.applied.length) hloop
    (fun s r' hs hP _ => inBatch_enabled hs hP) (fun s a s' r' hs _ hP h => inBatch_step hs hP h)
    (fun i _ => e.reachable i) (r := r) ⟨⟨htaken, b, hh.take_taken, hrest⟩, Nat.le_of_not_lt hdone⟩
  exact ⟨i, by omega, hg⟩

/-- The count of what has been applied passes every count of what has been pushed. -/
theorem eventually_applied_length (hloop : e.WeaklyFair LoopThread)
    (hpush : ∀ t, e.WeaklyFair (InPushBack t)) (n : ℕ) :
    ∃ m, n ≤ m ∧ (e.state n).pushed.length ≤ (e.state m).applied.length := by
  rcases Nat.eq_zero_or_pos (e.state n).pushed.length with hzero | hpos
  · exact ⟨n, Nat.le_refl n, by omega⟩
  obtain ⟨m, hm, hlt⟩ := eventually_applied_one e hloop hpush (n := n)
    (k := (e.state n).pushed.length - 1) (by omega)
  exact ⟨m, hm, by omega⟩

/-- What has been pushed stays where it is, and it is applied in that order. -/
theorem pushed_prefix_applied {n m : ℕ} (hm : n ≤ m)
    (hlen : (e.state n).pushed.length ≤ (e.state m).applied.length) :
    (e.state n).pushed <+: (e.state m).applied := by
  obtain ⟨⟨b, l, hh⟩, -⟩ := reachable_heap (e.reachable m)
  have hbefore : (e.state n).pushed <+: (e.state m).pushed :=
    e.kept (K := fun _ => True) (I := fun s => (e.state n).pushed <+: s.pushed) (fun _ _ => trivial)
      (fun s a s' _ hi h => hi.trans (pushed_step (step_cases h))) hm List.prefix_rfl
  have happlied : (e.state m).applied <+: (e.state m).pushed := by
    rw [hh.pushed, List.append_assoc]
    exact List.prefix_append _ _
  exact List.prefix_of_prefix_length_le hbefore happlied hlen

/-- Where no thread stays for ever in a step that it could take, everything that has
been pushed is applied at last, and in the order in which it was pushed. -/
theorem eventually_applied (hloop : e.WeaklyFair LoopThread)
    (hpush : ∀ t, e.WeaklyFair (InPushBack t)) (n : ℕ) :
    ∃ m, n ≤ m ∧ (e.state n).pushed <+: (e.state m).applied := by
  obtain ⟨m, hm, hlen⟩ := eventually_applied_length e hloop hpush n
  exact ⟨m, hm, pushed_prefix_applied e hm hlen⟩

/-- Two threads push, one of them while the other's batch is being applied. -/
def pushedTwice : List (Action Bool Bool) :=
  [.schedule false false, .push false, .push false, .push false, .push false, .deliver, .loop,
   .schedule true true, .push true, .push true, .push true, .loop, .loop, .push true, .loop, .loop,
   .loop, .deliver, .loop, .loop, .loop, .loop, .loop, .loop]

theorem eventually_applied_twice : ∃ e : (system : System (State Bool Bool) _).Execution,
    (e.state 11).pushed = [false, true] ∧ (e.state 11).applied = [] ∧
      ∃ m, 11 ≤ m ∧ (e.state 11).pushed <+: (e.state m).applied := by
  have hrun : (system.exec initial pushedTwice).map
      (fun s => (s.apply, s.asyncSignal, s.push false, s.push true)) =
      some (.idle, false, .idle, .idle) := by decide
  obtain ⟨s, hs, heq⟩ := Option.map_eq_some_iff.mp hrun
  simp only [Prod.mk.injEq] at heq
  obtain ⟨hidle, hsig, hfalse, htrue⟩ := heq
  have hloop : ¬ system.Enabled LoopThread s := by
    rintro ⟨a, s', rfl | rfl, h⟩
    · simp [system, step, hsig] at h
    · simp [system, step, applyStep, hidle] at h
  have hpush : ∀ t, ¬ system.Enabled (InPushBack t) s := by
    rintro t ⟨a, s', rfl, h⟩
    cases t <;> simp [system, step, pushStep, hfalse, htrue] at h
  have hprefix : (system.exec (initial : State Bool Bool) (pushedTwice.take 11)).map
      (fun u => (u.pushed, u.applied)) = some ([false, true], []) := by decide
  rw [System.Execution.ofExec_state _ rfl hs, Option.map_some, Option.some.injEq, Prod.mk.injEq]
    at hprefix
  refine ⟨.ofExec pushedTwice rfl hs, hprefix.1, hprefix.2, ?_⟩
  exact eventually_applied _ (System.Execution.ofExec_fair _ rfl hs hloop)
    (fun t => System.Execution.ofExec_fair _ rfl hs (hpush t)) 11

/-! ### `PushBack` is lock-free -/

inductive HeadEvent (T : Type) where
  | failed (t : T)
  | exchanged (t : T)
  | taken
  deriving DecidableEq, Repr

/-- What a step does to `Head`, or why it does nothing. -/
def headEvent (s : State T O) : Action T O → Option (HeadEvent T)
  | .push t =>
    match s.push t with
    | .compareExchange _ curTop => some (if s.head = curTop then .exchanged t else .failed t)
    | _ => none
  | .loop => if s.apply = .grab then some .taken else none
  | _ => none

/-- `Head` is changed, and not by `t`. -/
def HeadEvent.byOther (t : T) : HeadEvent T → Bool
  | .failed _ => false
  | .exchanged u => u ≠ t
  | .taken => true

/-- `t` compares with a value that `Head` no longer has. -/
def stale (s : State T O) (t : T) : ℕ :=
  match s.push t with
  | .write _ curTop | .compareExchange _ curTop => if s.head = curTop then 0 else 1
  | .idle | .load _ | .fire => 0

omit [DecidableEq T] in
theorem stale_le (s : State T O) (t : T) : stale s t ≤ 1 := by
  unfold stale
  cases s.push t with
  | write op curTop | compareExchange op curTop =>
    simp only
    split <;> omega
  | idle | load op | fire => exact Nat.zero_le 1

omit [DecidableEq T] in
theorem stale_eq {s s' : State T O} {t : T} (hp : s'.push t = s.push t) (hh : s'.head = s.head) :
    stale s' t = stale s t := by
  unfold stale
  rw [hp, hh]

theorem stale_other {s s' : State T O} {t u : T} {p : PushPc O} (hut : u ≠ t)
    (hp : s'.push = Function.update s.push u p) (hh : s'.head = s.head) :
    stale s' t = stale s t := by
  refine stale_eq ?_ hh
  rw [hp, Function.update_of_ne (Ne.symm hut)]

theorem stale_loaded {s : State T O} {t : T} {op : O} : stale (s.setPush t (.write op s.head)) t = 0 := by
  simp [stale]

/-- A compare-exchange that fails was stale, and it became so by another one's change. -/
theorem stale_push {s s' : State T O} {t u : T} (h : pushStep s u = some s') :
    (headEvent s (.push u)).toList.count (.failed t) + stale s' t ≤
      (headEvent s (.push u)).toList.countP (HeadEvent.byOther t) + stale s t := by
  have hle := stale_le s' t
  unfold pushStep at h
  cases hp : s.push u with
  | idle => simp [hp] at h
  | load op =>
    simp only [hp, Option.some.injEq] at h
    subst h
    simp only [headEvent, hp, Option.toList_none, List.count_nil, List.countP_nil, Nat.zero_add]
    by_cases hut : u = t
    · subst hut
      rw [stale_loaded]
      omega
    · exact Nat.le_of_eq (stale_other hut rfl rfl)
  | write op curTop =>
    simp only [hp, Option.some.injEq] at h
    subst h
    simp only [headEvent, hp, Option.toList_none, List.count_nil, List.countP_nil, Nat.zero_add]
    by_cases hut : u = t
    · subst hut
      simp [stale, hp]
    · exact Nat.le_of_eq (stale_other hut rfl rfl)
  | compareExchange op curTop =>
    by_cases heq : s.head = curTop
    · simp only [hp, heq, if_true, Option.some.injEq] at h
      subst h
      by_cases hut : u = t
      · subst hut
        simp [headEvent, hp, heq, HeadEvent.byOther, stale]
      · simp [headEvent, hp, heq, HeadEvent.byOther, hut]
        omega
    · simp only [hp, heq, if_false, Option.some.injEq] at h
      subst h
      by_cases hut : u = t
      · subst hut
        rw [stale_loaded]
        simp [headEvent, hp, heq, HeadEvent.byOther, stale]
      · have hkept : stale (s.setPush u (.write op s.head)) t = stale s t :=
          stale_other hut rfl rfl
        rw [hkept]
        simp [headEvent, hp, heq, hut]
  | fire =>
    simp only [hp, Option.some.injEq] at h
    subst h
    simp only [headEvent, hp, Option.toList_none, List.count_nil, List.countP_nil, Nat.zero_add]
    by_cases hut : u = t
    · subst hut
      simp [stale]
    · exact Nat.le_of_eq (stale_other hut rfl rfl)

theorem stale_step {s s' : State T O} {a : Action T O} {t : T} (h : step s a = some s') :
    (headEvent s a).toList.count (.failed t) + stale s' t ≤
      (headEvent s a).toList.countP (HeadEvent.byOther t) + stale s t := by
  have hle := stale_le s' t
  cases a with
  | push u => exact stale_push h
  | schedule u op =>
    simp only [step, Option.ite_none_right_eq_some, Option.some.injEq] at h
    obtain ⟨-, rfl⟩ := h
    simp only [headEvent, Option.toList_none, List.count_nil, List.countP_nil, Nat.zero_add]
    by_cases hut : u = t
    · subst hut
      simp [stale]
    · exact Nat.le_of_eq (stale_other hut rfl rfl)
  | failSpuriously u =>
    simp only [step] at h
    simp only [headEvent, Option.toList_none, List.count_nil, List.countP_nil, Nat.zero_add]
    split at h
    · cases h
      by_cases hut : u = t
      · subst hut
        rw [stale_loaded]
        omega
      · exact Nat.le_of_eq (stale_other hut rfl rfl)
    · cases h
  | deliver =>
    simp only [step, Option.ite_none_right_eq_some, Option.some.injEq] at h
    obtain ⟨-, rfl⟩ := h
    simp only [headEvent, Option.toList_none, List.count_nil, List.countP_nil, Nat.zero_add]
    exact Nat.le_of_eq (stale_eq rfl rfl)
  | loop =>
    by_cases hgrab : s.apply = .grab
    · simp [headEvent, hgrab, HeadEvent.byOther]
      omega
    · have hframe : s'.push = s.push ∧ s'.head = s.head := applyStep_frame hgrab h
      have heq := stale_eq (t := t) (congrFun hframe.1 t) hframe.2
      simp [headEvent, hgrab, heq]
  | reuse op next =>
    simp only [step, Option.ite_none_right_eq_some, Option.some.injEq] at h
    obtain ⟨-, rfl⟩ := h
    simp only [headEvent, Option.toList_none, List.count_nil, List.countP_nil, Nat.zero_add]
    exact Nat.le_of_eq (stale_eq rfl rfl)

theorem failed_le {s s' : State T O} {as : List (Action T O)} {t : T}
    (h : system.exec s as = some s') :
    (system.trace headEvent s as).count (.failed t) ≤
      (system.trace headEvent s as).countP (HeadEvent.byOther t) + stale s t := by
  induction as generalizing s with
  | nil => simp [System.trace]
  | cons a as ih =>
    obtain ⟨u, hu, hrest⟩ := Option.bind_eq_some_iff.mp h
    have hstep := stale_step (t := t) hu
    have hnext := ih hrest
    simp only [System.trace, hu, Option.map_some, Option.getD_some, List.count_append,
      List.countP_append]
    omega

/-- Every compare-exchange of a thread that fails is paid for by one of another
thread that succeeds, or by an exchange of the loop, since the thread has called
`Schedule`. -/
theorem pushBack_lockFree {s s' : State T O} {as : List (Action T O)} {t : T}
    (ht : s.push t = .idle) (h : system.exec s as = some s') :
    (system.trace headEvent s as).count (.failed t) ≤
      (system.trace headEvent s as).countP (HeadEvent.byOther t) := by
  have hle := failed_le (t := t) h
  have hzero : stale s t = 0 := by
    unfold stale
    rw [ht]
  omega

theorem pushBack_lockFree_contended :
    (system.trace headEvent initial pushedDuringBatch).count (.failed 1) = 2 ∧
      (system.trace headEvent initial pushedDuringBatch).count (.failed 1) ≤
        (system.trace headEvent initial pushedDuringBatch).countP (HeadEvent.byOther 1) := by
  have hrun : (system.exec initial pushedDuringBatch).isSome := by decide
  obtain ⟨s, hs⟩ := Option.isSome_iff_exists.mp hrun
  exact ⟨by decide, pushBack_lockFree rfl hs⟩

end UvExec.OperationList
