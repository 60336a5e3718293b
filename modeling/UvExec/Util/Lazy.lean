import UvExec.Lib.Ledger
import UvExec.Lib.Transition

/-! # `TLazyConstruct` (util/lazy.hpp)

The objects of type `TLazyConstruct` are the elements of `O`, and `Args` is the type
of their tuples. The ledger has the `T` that lives in the memory of an object, whether
or not the code knows of it. `operator const T&() const` is left out: its cast drops the
const of `Data`, so that it cannot be instantiated. -/

namespace UvExec
open Lib

namespace TLazyConstruct
variable {O Args : Type}

/-- `std::variant<std::tuple<TArgs...>, TTypeMemory>`. No move of a tuple throws, so
that it never is without a value. -/
inductive Value (Args : Type)
  | args (tuple : Args)
  | memory

def Value.index : Value Args → ℕ
  | .args _ => 0
  | .memory => 1

/-- `std::get<0>`, `none` where it throws. -/
def Value.get0 : Value Args → Option Args
  | .args tuple => some tuple
  | .memory => none

/-- How an attempt to construct a `T` ends. -/
inductive Attempt
  | returns
  | throws

structure State (O Args : Type) where
  /-- `Value` of each object, `none` where no object lives. -/
  value : O → Option (Value Args) := fun _ => none
  objects : Ledger O Args := {}
  /-- The program has not run into undefined behaviour. -/
  defined : Bool := true

namespace State
variable [DecidableEq O]

def Constructed (s : State O Args) (x : O) : Bool := (s.value x).any fun v => v.index == 1

def Alive (s : State O Args) (x : O) : Bool := (s.value x).isSome

def setValue (s : State O Args) (x : O) (v : Option (Value Args)) : State O Args :=
  { s with value := Function.update s.value x v }

/-- Destroys what `Value` holds. `~TTypeMemory` destroys a `T` in any case. -/
def reset (s : State O Args) (x : O) : State O Args :=
  match s.value x with
  | some .memory => { s with objects := s.objects.finish x }
  | _ => s

/-- `Value.emplace`. -/
def emplace (s : State O Args) (x : O) (v : Value Args) : State O Args :=
  (s.reset x).setValue x (some v)

def construct (s : State O Args) (x : O) (args : Args) : State O Args :=
  s.setValue x (some (.args args))

/- What a move leaves in the tuple of `val` is the types' own matter. -/
def moveConstruct (s : State O Args) (x val : O) (rest : Args) : Option (State O Args) :=
  ((s.value val).bind Value.get0).map fun args =>
    (s.setValue val (some (.args rest))).setValue x (some (.args args))

/-- The tuple is assigned to where `Value` holds one already. There is no return
statement, and the end of a function that returns a reference is undefined. -/
def moveAssign (s : State O Args) (x val : O) (rest : Args) : Option (State O Args) :=
  if s.Constructed val then none
  else ((s.value val).bind Value.get0).map fun args =>
    { (s.emplace x (.args args)).setValue val (some (.args rest)) with defined := false }

def Transmogrify (s : State O Args) (x : O) (attempt : Attempt) : Option (State O Args) :=
  ((s.value x).bind Value.get0).map fun args =>
    let s := s.emplace x .memory
    match attempt with
    | .returns => { s with objects := s.objects.start x args }
    | .throws => s

def destroy (s : State O Args) (x : O) : State O Args := (s.reset x).setValue x none

end State

/-- How control leaves an operation. A reference is to the memory of the object, with
the `T` that lives there. -/
inductive Result
  | done
  | flowsOff
  | reference (object : Option ℕ)
  | exception

namespace State
variable [DecidableEq O]

omit [DecidableEq O] in
def reference (s : State O Args) (x : O) : Result := .reference (s.objects.object x)

/-- `operator T&()`, where `nothrow` is `std::is_nothrow_constructible_v<T, TArgs&&...>`.
`none` where the program terminates. -/
def operatorT (nothrow : Bool) (s : State O Args) (x : O) (attempt : Attempt) :
    Option (Result × State O Args) :=
  if s.Constructed x then some (s.reference x, s)
  else (s.Transmogrify x attempt).bind fun s' =>
    match attempt with
    | .returns => some (s'.reference x, s')
    | .throws => if nothrow then none else some (.exception, s')

/-- `operator const T&()` of an object that is not const. -/
def operatorConstT (nothrow : Bool) (s : State O Args) (x : O) (attempt : Attempt) :
    Option (Result × State O Args) :=
  s.operatorT nothrow x attempt

end State

inductive Operation (O Args : Type)
  | construct (x : O) (args : Args)
  | moveConstruct (x val : O) (rest : Args)
  | moveAssign (x val : O) (rest : Args)
  | convert (x : O) (attempt : Attempt)
  | convertConst (x : O) (attempt : Attempt)
  | destroy (x : O)

/-- The object whose `T` an operation asks for. -/
def Operation.converted : Operation O Args → Option O
  | .convert x _ | .convertConst x _ => some x
  | _ => none

variable [DecidableEq O]

/-- `none` where the program terminates, or where there is no such object to operate on.
After undefined behaviour nothing is known to follow. -/
def State.apply (nothrow : Bool) (s : State O Args) (a : Operation O Args) :
    Option (Result × State O Args) :=
  if s.defined then
    match a with
    | .construct x args => if s.Alive x then none else some (.done, s.construct x args)
    | .moveConstruct x val rest =>
      if s.Alive x then none else (s.moveConstruct x val rest).map fun s' => (.done, s')
    | .moveAssign x val rest =>
      if s.Alive x then (s.moveAssign x val rest).map fun s' => (.flowsOff, s') else none
    | .convert x attempt => s.operatorT nothrow x attempt
    | .convertConst x attempt => s.operatorConstT nothrow x attempt
    | .destroy x => if s.Alive x then some (.done, s.destroy x) else none
  else none

def lazyConstruct (O Args : Type) [DecidableEq O] (nothrow : Bool) :
    System (State O Args) (Operation O Args) where
  initial s := s = {}
  step s a := (s.apply nothrow a).map Prod.snd

/-- The step neither runs a constructor of `T` that throws nor comes to the end of
`operator=`. -/
def Orderly (s : State O Args) : Operation O Args → Prop
  | .convert x .throws | .convertConst x .throws => s.Constructed x = true
  | .moveAssign _ val _ => s.Constructed val = true
  | _ => True

/-- `Constructed` tells where a `T` lives, and every `T` ends once. -/
structure Lifetimes (s : State O Args) : Prop where
  defined : s.defined = true
  constructed : ∀ x, s.Constructed x = true ↔ ∃ n, s.objects.object x = some n
  balanced : s.objects.Balanced

/-- What a step is to leave. -/
structure Kept (a : Operation O Args) (r : Result) (s' : State O Args) : Prop where
  lifetimes : Lifetimes s'
  thrown : r = .exception → ∀ x, a.converted = some x → s'.Constructed x = false

/-! ### What a step does -/

section
variable {nothrow : Bool} {s s' : State O Args} {x y : O} {v : Option (Value Args)} {args : Args}
  {a : Operation O Args} {r : Result} {n : ℕ}

theorem constructed_setValue : (s.setValue x v).Constructed =
    Function.update s.Constructed x (v.any fun v => v.index == 1) := by
  funext y
  by_cases hy : y = x
  · subst hy
    simp [State.Constructed, State.setValue]
  · simp [State.Constructed, State.setValue, hy]

theorem value_reset : (s.reset x).value = s.value := by
  unfold State.reset
  split <;> rfl

theorem defined_reset : (s.reset x).defined = s.defined := by
  unfold State.reset
  split <;> rfl

theorem constructed_reset : (s.reset x).Constructed = s.Constructed := by
  funext y
  rw [State.Constructed, value_reset]
  rfl

theorem objects_reset :
    (s.reset x).objects = if s.Constructed x then s.objects.finish x else s.objects := by
  unfold State.reset State.Constructed
  split
  next h => simp [h, Value.index]
  next h =>
    cases hv : s.value x with
    | none => simp
    | some v =>
      cases v with
      | args t => simp [Value.index]
      | memory => exact (h hv).elim

omit [DecidableEq O] in
theorem not_constructed_of_get0 (h : (s.value x).bind Value.get0 = some args) :
    s.Constructed x = false := by
  unfold State.Constructed
  cases hv : s.value x with
  | none => rfl
  | some v =>
    rw [hv] at h
    cases v with
    | args t => rfl
    | memory => cases h

omit [DecidableEq O] in
theorem not_constructed_of_not_alive (h : s.Alive x = false) : s.Constructed x = false := by
  unfold State.Alive at h
  unfold State.Constructed
  cases hv : s.value x with
  | none => rfl
  | some v =>
    rw [hv] at h
    cases h

theorem update_constructed (h : s.Constructed x = false) :
    Function.update s.Constructed x false = s.Constructed := by
  rw [← h, Function.update_eq_self]

/-- What becomes of the objects and of what the code knows of them. -/
inductive Effect (s : State O Args) (a : Operation O Args) (s' : State O Args) : Prop
  | none (hconstructed : s'.Constructed = s.Constructed) (hobjects : s'.objects = s.objects)
  | starts (x : O) (args : Args) (hx : s.Constructed x = false)
      (hconstructed : s'.Constructed = Function.update s.Constructed x true)
      (hobjects : s'.objects = s.objects.start x args)
  | finishes (x : O) (ha : a = .destroy x) (hx : s.Constructed x = true)
      (hconstructed : s'.Constructed = Function.update s.Constructed x false)
      (hobjects : s'.objects = s.objects.finish x)

/-- The tag has changed, and no `T` lives behind it. -/
structure Spoils (s : State O Args) (x : O) (s' : State O Args) : Prop where
  before : s.Constructed x = false
  constructed : s'.Constructed = Function.update s.Constructed x true
  objects : s'.objects = s.objects

theorem effect_destroy (x : O) : Effect s (.destroy x) (s.destroy x) := by
  have hconstructed : (s.destroy x).Constructed = Function.update s.Constructed x false := by
    rw [State.destroy, constructed_setValue, constructed_reset]
    rfl
  cases hx : s.Constructed x with
  | true =>
    refine .finishes x rfl hx hconstructed ?_
    show (s.reset x).objects = _
    rw [objects_reset, if_pos hx]
  | false =>
    refine .none (hconstructed.trans (update_constructed hx)) ?_
    show (s.reset x).objects = _
    rw [objects_reset, hx]
    rfl

theorem effect_moveConstruct {val : O} {rest : Args} (hx : s.Constructed x = false)
    (h : s.moveConstruct x val rest = some s') : s'.defined = s.defined ∧ Effect s a s' := by
  obtain ⟨args, hargs, hs'⟩ := Option.map_eq_some_iff.mp h
  have hval := not_constructed_of_get0 hargs
  subst hs'
  refine ⟨rfl, .none ?_ rfl⟩
  rw [constructed_setValue, constructed_setValue]
  show Function.update (Function.update s.Constructed val false) x false = s.Constructed
  rw [update_constructed hval, update_constructed hx]

theorem emplace_memory (hx : s.Constructed x = false) : Spoils s x (s.emplace x .memory) where
  before := hx
  constructed := by
    rw [State.emplace, constructed_setValue, constructed_reset]
    rfl
  objects := by
    show (s.reset x).objects = _
    rw [objects_reset, hx]
    rfl

theorem undefined_moveAssign {val : O} {rest : Args} (h : s.moveAssign x val rest = some s') :
    s.Constructed val = false ∧ s'.defined = false := by
  unfold State.moveAssign at h
  split at h
  next => cases h
  next hval =>
    obtain ⟨args, -, hs'⟩ := Option.map_eq_some_iff.mp h
    exact ⟨Bool.eq_false_iff.mpr hval, hs' ▸ rfl⟩

theorem effect_of_returns (h : s.Transmogrify x .returns = some s') :
    s'.defined = s.defined ∧ Effect s a s' ∧ s'.Constructed x = true := by
  obtain ⟨args, hargs, hs'⟩ := Option.map_eq_some_iff.mp h
  have hx := not_constructed_of_get0 hargs
  have hmemory := emplace_memory hx
  have hconstructed : s'.Constructed = Function.update s.Constructed x true := by
    rw [← hs', ← hmemory.constructed]
    rfl
  have hobjects : s'.objects = s.objects.start x args := by
    rw [← hs', ← hmemory.objects]
  refine ⟨?_, .starts x args hx hconstructed hobjects, ?_⟩
  · rw [← hs']
    exact defined_reset
  · rw [hconstructed, Function.update_self]

theorem spoils_of_throws (h : s.Transmogrify x .throws = some s') : Spoils s x s' := by
  obtain ⟨args, hargs, hs'⟩ := Option.map_eq_some_iff.mp h
  rw [← hs']
  exact emplace_memory (not_constructed_of_get0 hargs)

theorem operatorT_of_constructed (attempt : Attempt) (hx : s.Constructed x = true) :
    s.operatorT nothrow x attempt = some (s.reference x, s) := if_pos hx

theorem operatorT_cases {attempt : Attempt} (h : s.operatorT nothrow x attempt = some (r, s')) :
    (attempt = .throws → s.Constructed x = true) ∧ r = s'.reference x ∧ s'.Constructed x = true ∧
        s'.defined = s.defined ∧ Effect s a s' ∨
      attempt = .throws ∧ r = .exception ∧ Spoils s x s' := by
  cases hx : s.Constructed x with
  | true =>
    rw [operatorT_of_constructed attempt hx] at h
    cases h
    exact Or.inl ⟨fun _ => rfl, rfl, hx, rfl, .none rfl rfl⟩
  | false =>
    rw [State.operatorT, hx] at h
    obtain ⟨u, hu, hrest⟩ := Option.bind_eq_some_iff.mp h
    cases attempt with
    | returns =>
      cases hrest
      obtain ⟨hdefined, heffect, hconstructed⟩ := effect_of_returns hu
      exact Or.inl ⟨fun hthrows => (by cases hthrows), rfl, hconstructed, hdefined, heffect⟩
    | throws =>
      cases nothrow with
      | true => cases hrest
      | false =>
        cases hrest
        exact Or.inr ⟨rfl, rfl, spoils_of_throws hu⟩

/-- How a step goes wrong: the end of `operator=` is reached, or a construction throws. -/
inductive Fails (s : State O Args) (r : Result) (s' : State O Args) : Prop
  | undefined (hdefined : s'.defined = false) (hr : r = .flowsOff)
  | spoils (x : O) (hspoils : Spoils s x s') (hr : r = .exception)

/-- An orderly step has an effect, any other one fails. -/
structure Ordered (s : State O Args) (a : Operation O Args) (r : Result) (s' : State O Args) :
    Prop where
  orderly : Orderly s a
  unthrown : r ≠ .exception
  defined : s'.defined = s.defined
  effect : Effect s a s'

theorem conversion_cases {attempt : Attempt}
    (hok : Orderly s a ↔ (attempt = .throws → s.Constructed x = true))
    (h : s.operatorT nothrow x attempt = some (r, s')) :
    Ordered s a r s' ∨ ¬Orderly s a ∧ Fails s r s' := by
  rcases operatorT_cases h with ⟨hconstructed, hr, -, hdefined, heffect⟩ | ⟨hthrows, hr, hspoils⟩
  · refine Or.inl ⟨hok.mpr hconstructed, ?_, hdefined, heffect⟩
    rw [hr]
    intro hcontra
    cases hcontra
  · refine Or.inr ⟨fun hcontra => ?_, .spoils x hspoils hr⟩
    have hx := hok.mp hcontra hthrows
    rw [hspoils.before] at hx
    cases hx

theorem step_cases (h : s.apply nothrow a = some (r, s')) :
    Ordered s a r s' ∨ ¬Orderly s a ∧ Fails s r s' := by
  obtain ⟨-, h⟩ := Option.ite_none_right_eq_some.mp h
  cases a with
  | construct x args =>
    obtain ⟨halive, heq⟩ := Option.ite_none_left_eq_some.mp h
    cases heq
    have hx := not_constructed_of_not_alive (Bool.eq_false_iff.mpr halive)
    refine Or.inl ⟨trivial, fun hcontra => (by cases hcontra), rfl, .none ?_ rfl⟩
    rw [State.construct, constructed_setValue]
    exact update_constructed hx
  | moveConstruct x val rest =>
    obtain ⟨halive, hmove⟩ := Option.ite_none_left_eq_some.mp h
    obtain ⟨u, hu, heq⟩ := Option.map_eq_some_iff.mp hmove
    cases heq
    have hx := not_constructed_of_not_alive (Bool.eq_false_iff.mpr halive)
    obtain ⟨hdefined, heffect⟩ := effect_moveConstruct hx hu
    exact Or.inl ⟨trivial, fun hcontra => (by cases hcontra), hdefined, heffect⟩
  | moveAssign x val rest =>
    obtain ⟨-, hmove⟩ := Option.ite_none_right_eq_some.mp h
    obtain ⟨u, hu, heq⟩ := Option.map_eq_some_iff.mp hmove
    cases heq
    obtain ⟨hval, hdefined⟩ := undefined_moveAssign hu
    exact Or.inr ⟨by simp [Orderly, hval], .undefined hdefined rfl⟩
  | convert x attempt => exact conversion_cases (by cases attempt <;> simp [Orderly]) h
  | convertConst x attempt => exact conversion_cases (by cases attempt <;> simp [Orderly]) h
  | destroy x =>
    obtain ⟨-, heq⟩ := Option.ite_none_right_eq_some.mp h
    cases heq
    exact Or.inl ⟨trivial, fun hcontra => (by cases hcontra), defined_reset, effect_destroy x⟩

/-! ### The lifetimes of the `T` -/

omit [DecidableEq O] in
theorem Lifetimes.initial : Lifetimes ({} : State O Args) where
  defined := rfl
  constructed x := by simp [State.Constructed]
  balanced := .initial

omit [DecidableEq O] in
theorem Lifetimes.object_eq_none (h : Lifetimes s) (hx : s.Constructed x = false) :
    s.objects.object x = none := by
  rw [Option.eq_none_iff_forall_ne_some]
  intro n hn
  rw [(h.constructed x).mpr ⟨n, hn⟩] at hx
  cases hx

theorem Lifetimes.effect (h : Lifetimes s) (hdefined : s'.defined = s.defined)
    (heffect : Effect s a s') : Lifetimes s' := by
  have hd := hdefined.trans h.defined
  cases heffect with
  | none hc ho => exact ⟨hd, fun x => by rw [hc, ho, h.constructed], ho ▸ h.balanced⟩
  | starts x args hx hc ho =>
    refine ⟨hd, fun y => ?_, ho ▸ h.balanced.start (h.object_eq_none hx) args⟩
    rw [hc, ho]
    by_cases hy : y = x
    · subst hy
      simp
    · rw [Function.update_of_ne hy, Ledger.object_start_of_ne hy, h.constructed]
  | finishes x ha hx hc ho =>
    obtain ⟨n, hn⟩ := (h.constructed x).mp hx
    refine ⟨hd, fun y => ?_, ho ▸ h.balanced.finish hn⟩
    rw [hc, ho]
    by_cases hy : y = x
    · subst hy
      simp
    · rw [Function.update_of_ne hy, Ledger.object_finish_of_ne hy, h.constructed]

theorem Lifetimes.spoiled (h : Lifetimes s) (hspoils : Spoils s x s') : ¬Lifetimes s' := by
  intro hcontra
  obtain ⟨n, hn⟩ := (hcontra.constructed x).mp (by rw [hspoils.constructed, Function.update_self])
  rw [hspoils.objects, h.object_eq_none hspoils.before] at hn
  cases hn

/-- Where a construction has thrown, the destructor of the object runs that of `T` on
nothing. -/
theorem Lifetimes.spoiled_destroy (h : Lifetimes s) (hspoils : Spoils s x s') :
    ¬(s'.destroy x).objects.Balanced := by
  have hx : s'.Constructed x = true := by rw [hspoils.constructed, Function.update_self]
  have hnone : s'.objects.object x = none := by
    rw [hspoils.objects, h.object_eq_none hspoils.before]
  show ¬(s'.reset x).objects.Balanced
  rw [objects_reset, if_pos hx]
  exact Ledger.not_balanced_finish hnone

omit [DecidableEq O] in
/-- Once the objects are gone, so is every `T`. -/
theorem Lifetimes.ended_once (h : Lifetimes s) (hgone : ∀ x, s.Alive x = false)
    (hn : n < s.objects.begun.length) : s.objects.ended.count (some n) = 1 := by
  rcases h.balanced.once n hn with ⟨hlive, -⟩ | ⟨-, hcount⟩
  · obtain ⟨x, hx⟩ := hlive.exists
    have hconstructed := (h.constructed x).mpr ⟨n, hx⟩
    rw [not_constructed_of_not_alive (hgone x)] at hconstructed
    cases hconstructed
  · exact hcount

theorem Lifetimes.failed (h : Lifetimes s) (hfails : Fails s r s') : ¬Lifetimes s' := by
  cases hfails with
  | undefined hdefined hr =>
    intro hcontra
    rw [hcontra.defined] at hdefined
    cases hdefined
  | spoils x hspoils hr => exact h.spoiled hspoils

/-- A step leaves what it is to leave just if it is orderly. -/
theorem Lifetimes.kept_iff (h : Lifetimes s) (hstep : s.apply nothrow a = some (r, s')) :
    Kept a r s' ↔ Orderly s a := by
  rcases step_cases hstep with hordered | ⟨hdisorderly, hfails⟩
  · refine ⟨fun _ => hordered.orderly, fun _ => ?_⟩
    exact ⟨h.effect hordered.defined hordered.effect, fun hcontra => (hordered.unthrown hcontra).elim⟩
  · exact ⟨fun hkept => (h.failed hfails hkept.lifetimes).elim, fun hok => (hdisorderly hok).elim⟩

theorem Lifetimes.reachable (h : (lazyConstruct O Args nothrow).ReachableVia Orderly s) :
    Lifetimes s := by
  refine System.ReachableVia.invariant (K := fun _ => True) (fun _ _ => trivial) ?_ ?_ h
  · intro s h0
    exact h0 ▸ .initial
  · intro s a s' _ hs hok hstep
    obtain ⟨⟨r, u⟩, happly, hu⟩ := Option.map_eq_some_iff.mp hstep
    subst hu
    exact ((hs.kept_iff happly).mpr hok).lifetimes

/-! ### The `T` of one object -/

/-- The object has constructed its `T`, and no other has taken its place. -/
structure Holds (s : State O Args) (x : O) (n : ℕ) : Prop where
  constructed : s.Constructed x = true
  object : s.objects.object x = some n

theorem Holds.step (h : Holds s x n) (ha : a ≠ .destroy x) (hdefined : s'.defined = true)
    (hstep : s.apply nothrow a = some (r, s')) : Holds s' x n := by
  have hother {y : O} (hy : s.Constructed y = false) : x ≠ y := by
    intro hxy
    rw [← hxy, h.constructed] at hy
    cases hy
  rcases step_cases hstep with hordered | ⟨-, hfails⟩
  · cases hordered.effect with
    | none hc ho => exact ⟨hc ▸ h.constructed, ho ▸ h.object⟩
    | starts y args hy hc ho =>
      refine ⟨?_, ?_⟩
      · rw [hc, Function.update_of_ne (hother hy), h.constructed]
      · rw [ho, Ledger.object_start_of_ne (hother hy), h.object]
    | finishes y hay hy hc ho =>
      have hxy : x ≠ y := fun hxy => ha (hxy ▸ hay)
      refine ⟨?_, ?_⟩
      · rw [hc, Function.update_of_ne hxy, h.constructed]
      · rw [ho, Ledger.object_finish_of_ne hxy, h.object]
  · cases hfails with
    | undefined hno hr =>
      rw [hdefined] at hno
      cases hno
    | spoils y hspoils hr =>
      refine ⟨?_, hspoils.objects ▸ h.object⟩
      rw [hspoils.constructed, Function.update_of_ne (hother hspoils.before), h.constructed]

/-- Nothing follows undefined behaviour, so that a run has been defined wherever it is. -/
theorem defined_of_apply (h : s.apply nothrow a = some (r, s')) : s.defined = true :=
  (Option.ite_none_right_eq_some.mp h).1

theorem Holds.exec {t : State O Args} (as : List (Operation O Args)) (h : Holds s x n)
    (ha : .destroy x ∉ as) (hrun : (lazyConstruct O Args nothrow).exec s as = some t)
    (hdefined : t.defined = true) : Holds t x n := by
  refine System.exec_labels (S := lazyConstruct O Args nothrow)
    (I := fun past u => .destroy x ∉ past → u.defined = true → Holds u x n) ?_ as (fun _ _ => h)
    hrun ha hdefined
  intro past s a s' hpast hstep hdestroy hs'
  obtain ⟨⟨r, u⟩, happly, hu⟩ := Option.map_eq_some_iff.mp hstep
  subst hu
  simp only [List.mem_append, List.mem_singleton, not_or] at hdestroy
  have hheld := hpast hdestroy.1 (defined_of_apply happly)
  exact hheld.step (fun heq => hdestroy.2 heq.symm) hs' happly

theorem Holds.convert (h : Holds s x n) (hdefined : s.defined = true) (ha : a.converted = some x) :
    s.apply nothrow a = some (.reference (some n), s) := by
  have hreference : s.reference x = .reference (some n) := by
    rw [State.reference, h.object]
  refine (if_pos hdefined).trans ?_
  cases a with
  | construct _ _ | moveConstruct _ _ _ | moveAssign _ _ _ | destroy _ => cases ha
  | convert y attempt =>
    cases ha
    exact hreference ▸ operatorT_of_constructed attempt h.constructed
  | convertConst y attempt =>
    cases ha
    exact hreference ▸ operatorT_of_constructed attempt h.constructed

theorem reference_of_apply {o : Option ℕ} (ha : a.converted = some x)
    (h : s.apply nothrow a = some (.reference o, s')) :
    s'.Constructed x = true ∧ s'.objects.object x = o := by
  obtain ⟨-, h⟩ := Option.ite_none_right_eq_some.mp h
  have hconversion (attempt : Attempt)
      (h : s.operatorT nothrow x attempt = some (.reference o, s')) :
      s'.Constructed x = true ∧ s'.objects.object x = o := by
    rcases operatorT_cases (a := a) h with ⟨-, hr, hx, -⟩ | ⟨-, hr, -⟩
    · exact ⟨hx, (Result.reference.inj hr).symm⟩
    · cases hr
  cases a with
  | construct _ _ | moveConstruct _ _ _ | moveAssign _ _ _ | destroy _ => cases ha
  | convert y attempt =>
    cases ha
    exact hconversion attempt h
  | convertConst y attempt =>
    cases ha
    exact hconversion attempt h

end

/-- In an orderly run `Constructed` tells where a `T` lives, every `T` ends once, at the
latest with the objects, and the conversions of an object give the same `T` until it is
destroyed. The next step is as it is to be just if it is orderly. -/
theorem lifetimes_of_orderly (nothrow : Bool) {s : State O Args}
    (h : (lazyConstruct O Args nothrow).ReachableVia Orderly s) :
    Lifetimes s ∧
      ((∀ x, s.Alive x = false) →
        ∀ n, n < s.objects.begun.length → s.objects.ended.count (some n) = 1) ∧
      (∀ a r s', s.apply nothrow a = some (r, s') → (Kept a r s' ↔ Orderly s a)) ∧
      ∀ a x o s', a.converted = some x → s.apply nothrow a = some (.reference o, s') →
        ∃ n, o = some n ∧ ∀ as t, .destroy x ∉ as → t.defined = true →
          (lazyConstruct O Args nothrow).exec s' as = some t →
          ∀ b, b.converted = some x → t.apply nothrow b = some (.reference (some n), t) := by
  have hs := Lifetimes.reachable h
  refine ⟨hs, fun hgone n => hs.ended_once hgone, fun a r s' => hs.kept_iff, ?_⟩
  intro a x o s' ha happly
  obtain ⟨hx, hobject⟩ := reference_of_apply ha happly
  have hok : Orderly s a := by
    rcases step_cases happly with hordered | ⟨-, hfails⟩
    · exact hordered.orderly
    · cases hfails with
      | undefined hdefined hr => cases hr
      | spoils y hspoils hr => cases hr
  have hs' := ((hs.kept_iff happly).mpr hok).lifetimes
  obtain ⟨n, hn⟩ := (hs'.constructed x).mp hx
  refine ⟨n, hobject.symm.trans hn, fun as t has hdefined hrun b hb => ?_⟩
  exact (Holds.exec as ⟨hx, hn⟩ has hrun hdefined).convert hdefined hb

/-- An object is moved from, the other is converted twice, and both are destroyed. -/
def movedAndConverted : List (Operation Bool Unit) :=
  [.construct true (), .moveConstruct false true (), .convert false .returns,
   .convertConst false .throws, .destroy true, .destroy false]

theorem lifetimes_of_orderly_moved : ∃ s : State Bool Unit,
    (lazyConstruct Bool Unit false).exec {} movedAndConverted = some s ∧
    Lifetimes s ∧ s.objects.ended = [some 0] := by
  have hstart : (lazyConstruct Bool Unit false).ReachableVia Orderly {} := .initial rfl
  have hfirst := hstart.step (Operation.construct true ()) trivial rfl
  have hmoved := hfirst.step (Operation.moveConstruct false true ()) trivial rfl
  have hconverted := hmoved.step (Operation.convert false .returns) trivial rfl
  have hagain := hconverted.step (Operation.convertConst false .throws) rfl rfl
  have hdestroyed := hagain.step (Operation.destroy true) trivial rfl
  have hgone := hdestroyed.step (Operation.destroy false) trivial rfl
  exact ⟨_, rfl, (lifetimes_of_orderly false hgone).1, rfl⟩

/-- The conversion of an object throws. The object takes itself for constructed, the
next conversion gives a `T` that is not there, and the destructor runs on it. -/
theorem throwing_conversion : ∃ s s' : State Unit Unit,
    (lazyConstruct Unit Unit false).exec {} [.construct () (), .convert () .throws] = some s ∧
    s.Constructed () = true ∧ s.objects.object () = none ∧ ¬Lifetimes s ∧
    s.apply false (.convert () .returns) = some (.reference none, s) ∧
    (lazyConstruct Unit Unit false).step s (.destroy ()) = some s' ∧
    s'.objects.begun = [] ∧ s'.objects.ended = [none] := by
  refine ⟨_, _, rfl, rfl, rfl, ?_, rfl, rfl, rfl, rfl⟩
  intro h
  obtain ⟨n, hn⟩ := (h.constructed ()).mp rfl
  cases hn

end TLazyConstruct
end UvExec
