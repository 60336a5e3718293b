import Mathlib.Data.Nat.Notation
import Mathlib.Logic.Function.Basic
import Mathlib.Logic.Relation

/-! # Labelled transition systems with an executable step

Runs are lists of labels. A guard `ok` on the state before a step selects the
runs all of whose steps meet it; `Reachable` is the case without a guard. -/

namespace UvExec.Lib

structure System (σ α : Type) where
  initial : σ → Prop
  step : σ → α → Option σ

namespace System
variable {σ α : Type} (S : System σ α)

/-- States reached by a run whose every step meets `ok` in the state before it. -/
inductive ReachableVia (ok : σ → α → Prop) : σ → Prop
  | initial {s} : S.initial s → ReachableVia ok s
  | step {s s'} (a : α) : ReachableVia ok s → ok s a → S.step s a = some s' → ReachableVia ok s'

def Reachable : σ → Prop := S.ReachableVia fun _ _ => True

variable {S}

theorem ReachableVia.mono {ok ok' : σ → α → Prop} (hok : ∀ s a, ok s a → ok' s a) {s : σ}
    (h : S.ReachableVia ok s) : S.ReachableVia ok' s := by
  induction h with
  | initial h0 => exact .initial h0
  | step a _ ha hs ih => exact .step a ih (hok _ _ ha) hs

theorem ReachableVia.reachable {ok : σ → α → Prop} {s : σ} (h : S.ReachableVia ok s) :
    S.Reachable s := h.mono fun _ _ _ => trivial

theorem Reachable.step {s s' : σ} (h : S.Reachable s) (a : α) (hs : S.step s a = some s') :
    S.Reachable s' := ReachableVia.step a h trivial hs

/-- The invariant rule: what holds initially and is kept by every admitted
step holds in every state reached. `K` carries facts already established. -/
theorem ReachableVia.invariant {ok : σ → α → Prop} {K I : σ → Prop}
    (hK : ∀ s, S.ReachableVia ok s → K s) (h0 : ∀ s, S.initial s → I s)
    (hstep : ∀ s a s', K s → I s → ok s a → S.step s a = some s' → I s')
    {s : σ} (h : S.ReachableVia ok s) : I s := by
  induction h with
  | initial hi => exact h0 _ hi
  | step a hr ha hs ih => exact hstep _ a _ (hK _ hr) ih ha hs

theorem Reachable.invariant_of {K I : σ → Prop} (hK : ∀ s, S.Reachable s → K s)
    (h0 : ∀ s, S.initial s → I s)
    (hstep : ∀ s a s', K s → I s → S.step s a = some s' → I s') {s : σ} (h : S.Reachable s) :
    I s :=
  ReachableVia.invariant hK h0 (fun s a s' hk hi _ hs => hstep s a s' hk hi hs) h

theorem Reachable.invariant {I : σ → Prop} (h0 : ∀ s, S.initial s → I s)
    (hstep : ∀ s a s', I s → S.step s a = some s' → I s') {s : σ} (h : S.Reachable s) : I s :=
  Reachable.invariant_of (K := fun _ => True) (fun _ _ => trivial) h0
    (fun s a s' _ hi hs => hstep s a s' hi hs) h

/-- The refinement rule: `f` takes the admitted steps of one system to admitted
steps of another. -/
theorem ReachableVia.map {τ : Type} {T : System τ α} {ok : σ → α → Prop} {ok' : τ → α → Prop}
    (f : σ → τ) (h0 : ∀ s, S.initial s → T.initial (f s))
    (hstep : ∀ s a s', ok s a → S.step s a = some s' → ok' (f s) a ∧ T.step (f s) a = some (f s'))
    {s : σ} (h : S.ReachableVia ok s) : T.ReachableVia ok' (f s) := by
  induction h with
  | initial hi => exact .initial (h0 _ hi)
  | step a _ ha hs ih =>
    obtain ⟨hok, htstep⟩ := hstep _ a _ ha hs
    exact .step a ih hok htstep

/-- The simulation rule: `f` takes an admitted step of one system to an admitted
step of another, or to no step. -/
theorem ReachableVia.simulate {τ β : Type} {T : System τ β} {ok : σ → α → Prop}
    {ok' : τ → β → Prop} (f : σ → τ) (h0 : ∀ s, S.initial s → T.initial (f s))
    (hstep : ∀ s a s', ok s a → S.step s a = some s' →
      f s' = f s ∨ ∃ b, ok' (f s) b ∧ T.step (f s) b = some (f s'))
    {s : σ} (h : S.ReachableVia ok s) : T.ReachableVia ok' (f s) := by
  induction h with
  | initial hi => exact .initial (h0 _ hi)
  | step a _ ha hs ih =>
    rcases hstep _ a _ ha hs with heq | ⟨b, hok, htstep⟩
    · exact heq ▸ ih
    · exact .step b ih hok htstep

variable (S)

/-- The run of a list of labels, `none` when one of them is not enabled. -/
def exec (s : σ) : List α → Option σ
  | [] => some s
  | a :: as => (S.step s a).bind fun s' => exec s' as

variable {S}

theorem exec_cons {s t : σ} {a : α} (as : List α) (h : S.step s a = some t) :
    S.exec s (a :: as) = S.exec t as := by
  rw [exec, h]
  rfl

theorem exec_append {s t : σ} (as bs : List α) (h : S.exec s as = some t) :
    S.exec s (as ++ bs) = S.exec t bs := by
  induction as generalizing s with
  | nil =>
    rw [List.nil_append]
    exact Option.some.inj h ▸ rfl
  | cons a as ih =>
    obtain ⟨u, hu, hrest⟩ := Option.bind_eq_some_iff.mp h
    rw [List.cons_append, exec_cons _ hu]
    exact ih hrest

theorem reachable_exec {s t : σ} (as : List α) (hs : S.Reachable s) (h : S.exec s as = some t) :
    S.Reachable t := by
  induction as generalizing s with
  | nil => exact Option.some.inj h ▸ hs
  | cons a as ih =>
    obtain ⟨u, hu, hrest⟩ := Option.bind_eq_some_iff.mp h
    exact ih (hs.step a hu) hrest

theorem reachableVia_exec {ok : σ → α → Prop} {s t : σ} (as : List α) (hs : S.ReachableVia ok s)
    (hok : ∀ u, ∀ a ∈ as, ok u a) (h : S.exec s as = some t) : S.ReachableVia ok t := by
  induction as generalizing s with
  | nil => exact Option.some.inj h ▸ hs
  | cons a as ih =>
    obtain ⟨u, hu, hrest⟩ := Option.bind_eq_some_iff.mp h
    have hnext := hs.step a (hok s a List.mem_cons_self) hu
    exact ih hnext (fun v b hb => hok v b (List.mem_cons_of_mem a hb)) hrest

variable (S)

/-- The run of a list of labels, `none` when one of them does not meet `ok` in the
state before it or is not enabled there. -/
def execVia (ok : σ → α → Prop) [∀ s a, Decidable (ok s a)] (s : σ) : List α → Option σ
  | [] => some s
  | a :: as => if ok s a then (S.step s a).bind fun s' => execVia ok s' as else none

variable {S}

theorem reachableVia_execVia {ok : σ → α → Prop} [∀ s a, Decidable (ok s a)] {s t : σ}
    (as : List α) (hs : S.ReachableVia ok s) (h : S.execVia ok s as = some t) :
    S.ReachableVia ok t := by
  induction as generalizing s with
  | nil => exact Option.some.inj h ▸ hs
  | cons a as ih =>
    unfold execVia at h
    split at h
    · rename_i ha
      obtain ⟨u, hu, hrest⟩ := Option.bind_eq_some_iff.mp h
      exact ih (hs.step a ha hu) hrest
    · cases h

/-- A rank that some step lowers wherever `goal` is not reached leads to it. -/
theorem Reachable.exists_of_rank (rank : σ → ℕ) {goal : σ → Prop}
    (hstep : ∀ s, ¬goal s → ∃ a s', S.step s a = some s' ∧ rank s' < rank s) {s : σ}
    (h : S.Reachable s) : ∃ t, S.Reachable t ∧ goal t := by
  induction hn : rank s using Nat.strongRecOn generalizing s with
  | _ n ih =>
    by_cases hg : goal s
    · exact ⟨s, h, hg⟩
    · obtain ⟨a, s', hs, hlt⟩ := hstep s hg
      exact ih _ (hn ▸ hlt) (h.step a hs) rfl

/-- The invariant rule for what follows a given state. `I` may speak about the
labels that have led there. -/
theorem exec_history {I : List α → σ → Prop}
    (hstep : ∀ past s a s', I past s → S.step s a = some s' → I (past ++ [a]) s') {past : List α}
    {s t : σ} (as : List α) (hs : I past s) (h : S.exec s as = some t) : I (past ++ as) t := by
  induction as generalizing past s with
  | nil =>
    rw [List.append_nil]
    exact Option.some.inj h ▸ hs
  | cons a as ih =>
    obtain ⟨u, hu, hrest⟩ := Option.bind_eq_some_iff.mp h
    have hnext := ih (hstep past s a u hs hu) hrest
    rwa [List.append_assoc] at hnext

/-- The rule for a run from its start. -/
theorem exec_labels {I : List α → σ → Prop}
    (hstep : ∀ past s a s', I past s → S.step s a = some s' → I (past ++ [a]) s') {s t : σ}
    (as : List α) (hs : I [] s) (h : S.exec s as = some t) : I as t := by
  have hrun := exec_history hstep as hs h
  rwa [List.nil_append] at hrun

theorem exec_invariant {I : σ → Prop} (hstep : ∀ s a s', I s → S.step s a = some s' → I s')
    {s t : σ} (as : List α) (hs : I s) (h : S.exec s as = some t) : I t :=
  exec_labels (I := fun _ u => I u) (fun _ s a s' hi hs => hstep s a s' hi hs) as hs h

variable (S)

/-- What a run shows of itself, where `label` is what a step shows. -/
def trace {β : Type} (label : σ → α → Option β) (s : σ) : List α → List β
  | [] => []
  | a :: as => (label s a).toList ++ ((S.step s a).map fun s' => trace label s' as).getD []

variable {S}

/-- The simulation rule for runs: the trace of a run is a run of another system. -/
theorem exec_simulate {τ β : Type} {T : System τ β} {K : σ → Prop} {R : σ → τ → Prop}
    (label : σ → α → Option β) (hK : ∀ s, S.Reachable s → K s)
    (hstep : ∀ s a s' t, K s → R s t → S.step s a = some s' →
      ∃ t', T.exec t (label s a).toList = some t' ∧ R s' t')
    (as : List α) {s s' : σ} {t : τ} (hs : S.Reachable s) (hr : R s t)
    (h : S.exec s as = some s') : ∃ t', T.exec t (S.trace label s as) = some t' ∧ R s' t' := by
  induction as generalizing s t with
  | nil => exact ⟨t, rfl, Option.some.inj h ▸ hr⟩
  | cons a as ih =>
    obtain ⟨u, hu, hrest⟩ := Option.bind_eq_some_iff.mp h
    obtain ⟨t', ht', hr'⟩ := hstep s a u t (hK s hs) hr hu
    obtain ⟨t'', ht'', hr''⟩ := ih (hs.step a hu) hr' hrest
    refine ⟨t'', ?_, hr''⟩
    rw [trace, exec_append _ _ ht', hu]
    exact ht''

/-- The simulation rule for states of admitted runs. -/
theorem ReachableVia.related {τ β : Type} {T : System τ β} {ok : σ → α → Prop} {K : σ → Prop}
    {R : σ → τ → Prop} (hK : ∀ s, S.ReachableVia ok s → K s)
    (h0 : ∀ s, S.initial s → ∃ t, T.initial t ∧ R s t)
    (hstep : ∀ s a s' t, K s → T.Reachable t → R s t → ok s a → S.step s a = some s' →
      ∃ bs t', T.exec t bs = some t' ∧ R s' t')
    {s : σ} (h : S.ReachableVia ok s) : ∃ t, T.Reachable t ∧ R s t := by
  induction h with
  | initial hi =>
    obtain ⟨t, ht, hr⟩ := h0 _ hi
    exact ⟨t, .initial ht, hr⟩
  | step a hreach ha hs ih =>
    obtain ⟨t, ht, hr⟩ := ih
    obtain ⟨bs, t', hbs, hr'⟩ := hstep _ a _ t (hK _ hreach) ht hr ha hs
    exact ⟨t', reachable_exec bs ht hbs, hr'⟩

variable (S)

/-- Every step of the run meets `ok` in the state before it. -/
def Admitted (ok : σ → α → Prop) (s : σ) : List α → Prop
  | [] => True
  | a :: as => ok s a ∧ ∀ s', S.step s a = some s' → Admitted ok s' as

variable {S}

theorem Admitted.cons {ok : σ → α → Prop} {s t : σ} {a : α} {as : List α} (ha : ok s a)
    (hs : S.step s a = some t) (h : S.Admitted ok t as) : S.Admitted ok s (a :: as) := by
  refine ⟨ha, fun u hu => ?_⟩
  rw [hs] at hu
  exact Option.some.inj hu ▸ h

theorem Admitted.of_forall {ok : σ → α → Prop} {as : List α} (h : ∀ a ∈ as, ∀ s, ok s a) (s : σ) :
    S.Admitted ok s as := by
  induction as generalizing s with
  | nil => trivial
  | cons a as ih =>
    refine ⟨h a (by simp) s, fun s' _ => ?_⟩
    exact ih (fun b hb => h b (by simp [hb])) s'

/-- The rule for an admitted run from its start. `I` may speak about its labels. -/
theorem exec_labels_via {ok : σ → α → Prop} {I : List α → σ → Prop}
    (hstep : ∀ past s a s', I past s → ok s a → S.step s a = some s' → I (past ++ [a]) s') {s t : σ}
    (as : List α) (hs : I [] s) (hok : S.Admitted ok s as) (h : S.exec s as = some t) : I as t := by
  suffices hrun : ∀ (as past : List α) (s : σ), I past s → S.Admitted ok s as →
      S.exec s as = some t → I (past ++ as) t from hrun as [] s hs hok h
  intro as
  induction as with
  | nil =>
    intro past s hs _ h
    rw [List.append_nil]
    exact Option.some.inj h ▸ hs
  | cons a as ih =>
    intro past s hs hok h
    obtain ⟨u, hu, hrest⟩ := Option.bind_eq_some_iff.mp h
    have hnext := ih (past ++ [a]) u (hstep past s a u hs hok.1 hu) (hok.2 u hu) hrest
    rwa [List.append_assoc] at hnext

/-- A rank that an admitted label from `own` lowers wherever `goal` is not reached
bounds a run of such labels that leads to it. -/
theorem exec_of_rank {own : α → Prop} {ok : σ → α → Prop} {I goal : σ → Prop} (rank : σ → ℕ)
    (hstep : ∀ s, I s → ¬goal s →
      ∃ a s', own a ∧ ok s a ∧ S.step s a = some s' ∧ I s' ∧ rank s' < rank s)
    {s : σ} (hs : I s) : ∃ as t, as.length ≤ rank s ∧ (∀ a ∈ as, own a) ∧ S.Admitted ok s as ∧
      S.exec s as = some t ∧ I t ∧ goal t := by
  induction hn : rank s using Nat.strongRecOn generalizing s with
  | _ n ih =>
    by_cases hg : goal s
    · exact ⟨[], s, Nat.zero_le _, List.forall_mem_nil own, trivial, rfl, hs, hg⟩
    · obtain ⟨a, s', ha, hok, hstep', hs', hlt⟩ := hstep s hs hg
      obtain ⟨as, t, hlen, hown, hadm, hexec, ht, hgoal⟩ := ih _ (hn ▸ hlt) hs' rfl
      refine ⟨a :: as, t, ?_, ?_, hadm.cons hok hstep', ?_, ht, hgoal⟩
      · rw [List.length_cons]
        omega
      · intro b hb
        cases hb with
        | head => exact ha
        | tail _ hb => exact hown b hb
      · rw [exec_cons as hstep']
        exact hexec

/-- The simulation rule for admitted runs. -/
theorem exec_simulate_via {τ β : Type} {T : System τ β} {ok : σ → α → Prop} {K : σ → Prop}
    {R : σ → τ → Prop} (label : σ → α → Option β) (hK : ∀ s, S.ReachableVia ok s → K s)
    (hstep : ∀ s a s' t, K s → T.Reachable t → R s t → ok s a → S.step s a = some s' →
      ∃ t', T.exec t (label s a).toList = some t' ∧ R s' t')
    (as : List α) {s s' : σ} {t : τ} (hs : S.ReachableVia ok s) (ht : T.Reachable t) (hr : R s t)
    (hok : S.Admitted ok s as) (h : S.exec s as = some s') :
    ∃ t', T.exec t (S.trace label s as) = some t' ∧ R s' t' := by
  induction as generalizing s t with
  | nil => exact ⟨t, rfl, Option.some.inj h ▸ hr⟩
  | cons a as ih =>
    obtain ⟨u, hu, hrest⟩ := Option.bind_eq_some_iff.mp h
    obtain ⟨t', ht', hr'⟩ := hstep s a u t (hK s hs) ht hr hok.1 hu
    obtain ⟨t'', ht'', hr''⟩ :=
      ih (hs.step a hok.1 hu) (reachable_exec _ ht ht') hr' (hok.2 u hu) hrest
    refine ⟨t'', ?_, hr''⟩
    rw [trace, exec_append _ _ ht', hu]
    exact ht''

variable (S)

/-- Nothing happens any more unless the environment acts. -/
def Quiescent (environment : α → Prop) (s : σ) : Prop :=
  ∀ a s', S.step s a = some s' → environment a

variable {S}

theorem Quiescent.step_eq_none {environment : α → Prop} {s : σ} (h : S.Quiescent environment s)
    {a : α} (ha : ¬ environment a) : S.step s a = none := by
  cases hs : S.step s a with
  | none => rfl
  | some s' => exact (ha (h a s' hs)).elim

end System

/-! ### Interleaved components

A step moves the component `c` of the family `f` to `p`. -/

section
variable {C β γ : Type} [DecidableEq C] {f : C → β} {c d : C} {p q : β}

theorem forall_move {P : C → β → Prop} (h : ∀ d, P d (f d)) (hp : P c p) :
    ∀ d, P d (Function.update f c p d) :=
  (Function.forall_update_iff f P).mpr ⟨hp, fun d _ => h d⟩

theorem range_move (range : β → γ) (hp : range p = range (f c)) :
    ∀ d, range (Function.update f c p d) = range (f d) :=
  forall_move (P := fun d q => range q = range (f d)) (fun _ => rfl) hp

theorem ne_of_move (h : Function.update f c p d = q) (hp : p ≠ q) : d ≠ c := by
  rintro rfl
  exact hp (by simpa using h)

theorem eq_of_move (h : Function.update f c p d = q) (hp : p ≠ q) : f d = q := by
  rwa [Function.update_of_ne (ne_of_move h hp)] at h

/-- What the move does not bring about held before. -/
theorem back_of_move {P : β → Prop} (h : P (Function.update f c p d)) (hp : P p → P (f c)) :
    P (f d) := by
  by_cases hdc : d = c
  · subst hdc
    rw [Function.update_self] at h
    exact hp h
  · rwa [Function.update_of_ne hdc] at h

/-- What the move does not end holds after it. -/
theorem kept_of_move {P : β → Prop} (h : P (f d)) (hp : P (f c) → P p) :
    P (Function.update f c p d) :=
  forall_move (P := fun d q => P (f d) → P q) (fun _ => id) hp d h

theorem exists_move (h : ∃ d, f d = q) (hc : f c ≠ q) : ∃ d, Function.update f c p d = q := by
  obtain ⟨d, hd⟩ := h
  have hdc : d ≠ c := by
    rintro rfl
    exact hc hd
  exact ⟨d, by rwa [Function.update_of_ne hdc]⟩

end

end UvExec.Lib
