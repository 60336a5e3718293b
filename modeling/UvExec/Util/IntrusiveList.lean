import UvExec.Lib.Neighbours
import Mathlib.Logic.Function.Basic

/-! # `TIntrusiveList` (util/intrusive_list.hpp)

The nodes are the elements of `A`. A node that was never in the list has the
links it was constructed with. -/

namespace UvExec
open Lib

structure TIntrusiveListNode (A : Type) where
  next : Option A := none
  prev : Option A := none
  deriving DecidableEq, Repr

structure TIntrusiveList (A : Type) where
  head : Option A := none
  node : A → TIntrusiveListNode A := fun _ => {}

namespace TIntrusiveList
variable {A : Type} [DecidableEq A]

/-- `p->Next = n` where `p` is not null. -/
def setNext (l : TIntrusiveList A) (p n : Option A) : TIntrusiveList A :=
  match p with
  | none => l
  | some a => { l with node := Function.update l.node a { l.node a with next := n } }

/-- `p->Prev = n` where `p` is not null. -/
def setPrev (l : TIntrusiveList A) (p n : Option A) : TIntrusiveList A :=
  match p with
  | none => l
  | some a => { l with node := Function.update l.node a { l.node a with prev := n } }

def add (l : TIntrusiveList A) (a : A) : TIntrusiveList A :=
  let l := l.setNext (some a) l.head
  let l := l.setPrev l.head (some a)
  { l with head := some a }

def erase (l : TIntrusiveList A) (a : A) : TIntrusiveList A :=
  let l := l.setPrev (l.node a).next (l.node a).prev
  let l := l.setNext (l.node a).prev (l.node a).next
  let l := if l.head = some a then { l with head := (l.node a).next } else l
  (l.setPrev (some a) none).setNext (some a) none

/-- `none` where the source dereferences a null pointer. -/
def pop (l : TIntrusiveList A) : Option (A × TIntrusiveList A) := l.head.map fun h => (h, l.erase h)

def empty (l : TIntrusiveList A) : Bool := l.head.isNone

/-- The nodes that `Erase` comes to over the links of its argument. -/
def linked (l : TIntrusiveList A) (a : A) : List A :=
  (l.node a).next.toList ++ (l.node a).prev.toList

variable {l : TIntrusiveList A} {a b x : A} {p n : Option A} {xs : List A}

/-! ### What the operations write -/

@[simp] theorem head_setNext : (l.setNext p n).head = l.head := by
  cases p <;> rfl

@[simp] theorem head_setPrev : (l.setPrev p n).head = l.head := by
  cases p <;> rfl

theorem node_setNext :
    (l.setNext p n).node x = if p = some x then { l.node x with next := n } else l.node x := by
  cases p with
  | none => rfl
  | some a =>
    by_cases hx : a = x
    · subst hx
      simp [setNext]
    · simp [setNext, hx, Ne.symm hx]

theorem node_setPrev :
    (l.setPrev p n).node x = if p = some x then { l.node x with prev := n } else l.node x := by
  cases p with
  | none => rfl
  | some a =>
    by_cases hx : a = x
    · subst hx
      simp [setPrev]
    · simp [setPrev, hx, Ne.symm hx]

@[simp] theorem next_setNext :
    ((l.setNext p n).node x).next = if p = some x then n else (l.node x).next := by
  rw [node_setNext]
  split <;> rfl

@[simp] theorem prev_setNext : ((l.setNext p n).node x).prev = (l.node x).prev := by
  rw [node_setNext]
  split <;> rfl

@[simp] theorem next_setPrev : ((l.setPrev p n).node x).next = (l.node x).next := by
  rw [node_setPrev]
  split <;> rfl

@[simp] theorem prev_setPrev :
    ((l.setPrev p n).node x).prev = if p = some x then n else (l.node x).prev := by
  rw [node_setPrev]
  split <;> rfl

theorem head_add : (l.add a).head = some a := rfl

theorem next_add : ((l.add a).node x).next = if x = a then l.head else (l.node x).next := by
  simp [add, eq_comm]

theorem prev_add :
    ((l.add a).node x).prev = if l.head = some x then some a else (l.node x).prev := by
  simp [add]

omit [DecidableEq A] in
theorem node_setHead (l : TIntrusiveList A) (h : Option A) (c : Prop) [Decidable c] :
    (if c then { l with head := h } else l).node = l.node := by
  split <;> rfl

theorem head_erase :
    (l.erase a).head = if l.head = some a then (l.node a).next else l.head := by
  simp only [erase, head_setNext, head_setPrev]
  split
  next => simp
  next => simp

theorem next_erase : ((l.erase a).node x).next =
    if x = a then none
    else if (l.node a).prev = some x then (l.node a).next else (l.node x).next := by
  simp [erase, node_setHead, eq_comm]

theorem prev_erase : ((l.erase a).node x).prev =
    if x = a then none
    else if (l.node a).next = some x then (l.node a).prev else (l.node x).prev := by
  simp [erase, node_setHead, eq_comm]

/-! ### What the operations do not come to -/

/-- The list with something else in the memory of a node. -/
def put (l : TIntrusiveList A) (b : A) (n : TIntrusiveListNode A) : TIntrusiveList A :=
  { l with node := Function.update l.node b n }

variable {m : TIntrusiveListNode A}

theorem setNext_put (h : p ≠ some b) : (l.put b m).setNext p n = (l.setNext p n).put b m := by
  cases p with
  | none => rfl
  | some a =>
    have hne : a ≠ b := fun hab => h (congrArg some hab)
    simp [setNext, put, hne, Function.update_comm hne]

theorem setPrev_put (h : p ≠ some b) : (l.put b m).setPrev p n = (l.setPrev p n).put b m := by
  cases p with
  | none => rfl
  | some a =>
    have hne : a ≠ b := fun hab => h (congrArg some hab)
    simp [setPrev, put, hne, Function.update_comm hne]

@[simp] theorem head_put : (l.put b m).head = l.head := rfl

@[simp] theorem node_put_ne (h : a ≠ b) : (l.put b m).node a = l.node a :=
  Function.update_of_ne h _ _

theorem add_put (hab : a ≠ b) (hh : l.head ≠ some b) : (l.put b m).add a = (l.add a).put b m := by
  have ha : some a ≠ some b := by simpa using hab
  simp only [add, head_put, setNext_put ha, head_setNext, setPrev_put hh]
  rfl

theorem erase_put (hab : a ≠ b) (hl : b ∉ l.linked a) :
    (l.put b m).erase a = (l.erase a).put b m := by
  simp only [linked, List.mem_append, Option.mem_toList, not_or] at hl
  have ha : some a ≠ some b := by simpa using hab
  have hp : ((l.setPrev (l.node a).next (l.node a).prev).node a).prev ≠ some b := by
    rw [prev_setPrev]
    split <;> exact hl.2
  have hhead (l' : TIntrusiveList A) (h : Option A) (c : Prop) [Decidable c] :
      (if c then { l'.put b m with head := h } else l'.put b m) =
        (if c then { l' with head := h } else l').put b m := by
    split <;> rfl
  simp only [erase, node_put_ne hab, setPrev_put hl.1, setNext_put hp, head_put, hhead,
    setPrev_put ha, setNext_put ha]

/-! ### The list that the nodes form -/

/-- The links are those of the nodes of `xs` in order, and null elsewhere. -/
structure Represents (l : TIntrusiveList A) (xs : List A) : Prop where
  nodup : xs.Nodup
  head : l.head = xs.head?
  next : ∀ a, (l.node a).next = after xs a
  prev : ∀ a, (l.node a).prev = before xs a

theorem Represents.initial : Represents ({} : TIntrusiveList A) [] :=
  ⟨List.nodup_nil, rfl, fun _ => rfl, fun _ => rfl⟩

theorem Represents.add (h : l.Represents xs) (ha : a ∉ xs) : (l.add a).Represents (a :: xs) where
  nodup := List.nodup_cons.mpr ⟨ha, h.nodup⟩
  head := rfl
  next x := by rw [next_add, after_cons ha, h.head, h.next]
  prev x := by rw [prev_add, before_cons ha, h.head, h.prev]

theorem Represents.erase (h : l.Represents xs) (a : A) : (l.erase a).Represents (xs.erase a) where
  nodup := h.nodup.erase a
  head := by rw [TIntrusiveList.head_erase, Lib.head_erase h.nodup, h.head, h.next]
  next x := by
    rw [next_erase, h.next, h.prev, h.next]
    split
    next hx => rw [hx, after_of_not_mem h.nodup.not_mem_erase]
    next hx => rw [after_erase h.nodup hx]
  prev x := by
    rw [prev_erase, h.next, h.prev, h.prev]
    split
    next hx => rw [hx, before, beforeFrom_of_not_mem h.nodup.not_mem_erase]
    next hx => rw [before_erase h.nodup hx]

theorem Represents.pop (h : l.Represents xs) :
    (xs = [] ∧ l.pop = none) ∨
      ∃ a rest, xs = a :: rest ∧ l.pop = some (a, l.erase a) ∧ (l.erase a).Represents rest := by
  cases xs with
  | nil => exact Or.inl ⟨rfl, by rw [TIntrusiveList.pop, h.head]; rfl⟩
  | cons a rest =>
    have herase := h.erase a
    rw [List.erase_cons_head] at herase
    exact Or.inr ⟨a, rest, rfl, by rw [TIntrusiveList.pop, h.head]; rfl, herase⟩

theorem Represents.empty_iff (h : l.Represents xs) : l.empty = true ↔ xs = [] := by
  rw [TIntrusiveList.empty, h.head, Option.isNone_iff_eq_none, List.head?_eq_none_iff]

/-- No pointer of the list to the node, and none of its own. -/
structure Unlinked (l : TIntrusiveList A) (a : A) : Prop where
  head : l.head ≠ some a
  next : (l.node a).next = none
  prev : (l.node a).prev = none

theorem Represents.unlinked (h : l.Represents xs) (ha : a ∉ xs) : l.Unlinked a where
  head hhead := ha (List.mem_of_mem_head? (h.head ▸ hhead))
  next := by rw [h.next, after_of_not_mem ha]
  prev := by rw [h.prev, before, beforeFrom_of_not_mem ha]

/-- Every link that is followed leads to a node of the list. -/
theorem Represents.mem_of_link (h : l.Represents xs)
    (hb : l.head = some b ∨ (l.node a).next = some b ∨ (l.node a).prev = some b) : b ∈ xs := by
  rw [h.head, h.next, h.prev] at hb
  rcases hb with hhead | hnext | hprev
  · exact List.mem_of_mem_head? hhead
  · exact mem_of_after hnext
  · exact mem_of_before hprev

end TIntrusiveList
end UvExec
