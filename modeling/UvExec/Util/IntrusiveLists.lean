import UvExec.Lib.Sequences
import UvExec.Lib.Transition
import UvExec.Util.IntrusiveList

/-! # The operations of `TIntrusiveList` (util/intrusive_list.hpp)

Any number of lists over the nodes of one memory, and runs of operations on them. -/

namespace UvExec
open Lib

attribute [ext] TIntrusiveListNode TIntrusiveList

namespace TIntrusiveList
variable {A : Type} [DecidableEq A] {l l' : TIntrusiveList A} {a x : A} {xs : List A}

/-- The links of the nodes of `xs`, whatever the other nodes hold. -/
structure Segment (l : TIntrusiveList A) (xs : List A) : Prop where
  nodup : xs.Nodup
  head : l.head = xs.head?
  next : ∀ a ∈ xs, (l.node a).next = after xs a
  prev : ∀ a ∈ xs, (l.node a).prev = before xs a

theorem Segment.congr (h : l.Segment xs) (hhead : l'.head = l.head)
    (hnode : ∀ a ∈ xs, l'.node a = l.node a) : l'.Segment xs where
  nodup := h.nodup
  head := hhead.trans h.head
  next a ha := by rw [hnode a ha, h.next a ha]
  prev a ha := by rw [hnode a ha, h.prev a ha]

/-- `Add` leaves `Prev` of the new node as it is. -/
theorem Segment.add (h : l.Segment xs) (ha : a ∉ xs) (hprev : (l.node a).prev = none) :
    (l.add a).Segment (a :: xs) where
  nodup := List.nodup_cons.mpr ⟨ha, h.nodup⟩
  head := rfl
  next x hx := by
    rw [next_add, after_cons ha, h.head]
    by_cases hxa : x = a
    · rw [if_pos hxa, if_pos hxa]
    · rw [if_neg hxa, if_neg hxa]
      exact h.next x (List.mem_of_ne_of_mem hxa hx)
  prev x hx := by
    rw [prev_add, before_cons ha, h.head]
    by_cases hhead : xs.head? = some x
    · rw [if_pos hhead, if_pos hhead]
    · rw [if_neg hhead, if_neg hhead]
      rcases List.mem_cons.mp hx with hxa | hx
      · rw [hxa, hprev, before, beforeFrom_of_not_mem ha]
      · exact h.prev x hx

theorem Segment.node_add (h : l.Segment xs) (hx : x ∉ a :: xs) : (l.add a).node x = l.node x := by
  rw [List.mem_cons, not_or] at hx
  have hhead : l.head ≠ some x := fun hhead => hx.2 (List.mem_of_mem_head? (h.head ▸ hhead))
  ext1
  · rw [next_add, if_neg hx.1]
  · rw [prev_add, if_neg hhead]

theorem Segment.erase (h : l.Segment xs) (ha : a ∈ xs) : (l.erase a).Segment (xs.erase a) where
  nodup := h.nodup.erase a
  head := by rw [TIntrusiveList.head_erase, Lib.head_erase h.nodup, h.head, h.next a ha]
  next x hx := by
    obtain ⟨hxa, hx⟩ := h.nodup.mem_erase_iff.mp hx
    rw [next_erase, if_neg hxa, h.prev a ha, h.next a ha, h.next x hx, after_erase h.nodup hxa]
  prev x hx := by
    obtain ⟨hxa, hx⟩ := h.nodup.mem_erase_iff.mp hx
    rw [prev_erase, if_neg hxa, h.prev a ha, h.next a ha, h.prev x hx, before_erase h.nodup hxa]

theorem Segment.node_erase (h : l.Segment xs) (ha : a ∈ xs) (hx : x ∉ xs) :
    (l.erase a).node x = l.node x := by
  have hxa : x ≠ a := fun hxa => hx (hxa ▸ ha)
  have hprev : (l.node a).prev ≠ some x := by
    rw [h.prev a ha]
    exact fun hb => hx (mem_of_before hb)
  have hnext : (l.node a).next ≠ some x := by
    rw [h.next a ha]
    exact fun hb => hx (mem_of_after hb)
  ext1
  · rw [next_erase, if_neg hxa, if_neg hprev]
  · rw [prev_erase, if_neg hxa, if_neg hnext]

theorem node_erase_self : (l.erase a).node a = {} := by
  ext1
  · rw [next_erase, if_pos rfl]
  · rw [prev_erase, if_pos rfl]

theorem Unlinked.erase (h : l.Unlinked a) : l.erase a = l := by
  have hnone (x : A) : (none : Option A) ≠ some x := (Option.some_ne_none x).symm
  ext1
  · rw [head_erase, if_neg h.head]
  · funext x
    by_cases hx : x = a
    · rw [hx, node_erase_self]
      ext1
      · rw [h.next]
      · rw [h.prev]
    · ext1
      · rw [next_erase, if_neg hx, h.prev, if_neg (hnone x)]
      · rw [prev_erase, if_neg hx, h.next, if_neg (hnone x)]

end TIntrusiveList

/-- Lists over the same nodes, each with its `Head`. -/
structure TIntrusiveLists (L A : Type) where
  head : L → Option A := fun _ => none
  node : A → TIntrusiveListNode A := fun _ => {}

namespace TIntrusiveLists
variable {L A : Type}

def list (s : TIntrusiveLists L A) (c : L) : TIntrusiveList A := ⟨s.head c, s.node⟩

variable [DecidableEq L]

/-- What an operation on the list `c` leaves. -/
def put (s : TIntrusiveLists L A) (c : L) (l : TIntrusiveList A) : TIntrusiveLists L A where
  head := Function.update s.head c l.head
  node := l.node

inductive Operation (L A : Type)
  | add (c : L) (node : A)
  | pop (c : L)
  | erase (c : L) (node : A)

variable [DecidableEq A]

/-- `none` where the source dereferences a null pointer. -/
def step (s : TIntrusiveLists L A) : Operation L A → Option (TIntrusiveLists L A)
  | .add c a => some (s.put c ((s.list c).add a))
  | .pop c => (s.list c).pop.map fun popped => s.put c popped.2
  | .erase c a => some (s.put c ((s.list c).erase a))

/-- The node that an operation returns. -/
def returned (s : TIntrusiveLists L A) : Operation L A → Option A
  | .add _ _ | .erase _ _ => none
  | .pop c => (s.list c).pop.map Prod.fst

def lists (L A : Type) [DecidableEq L] [DecidableEq A] :
    System (TIntrusiveLists L A) (Operation L A) where
  initial s := s = {}
  step := step

/-! ### The sequences that the lists stand for -/

/-- What the operations mean. Only a node that is in no list is added, only a list
with a node is popped, and what is erased is in that list or in none. -/
noncomputable def sequences (L A : Type) [DecidableEq L] [DecidableEq A] :
    System (Sequences L A) (Operation L A) where
  initial xs := xs = .empty
  step xs op :=
    open Classical in
    match op with
    | .add c a => if h : xs.Free a then some (xs.push c a h) else none
    | .pop c => if xs.of c ≠ [] then some (xs.dropFirst c) else none
    | .erase c a => if a ∈ xs.of c ∨ xs.Free a then some (xs.remove c a) else none

structure Represents (s : TIntrusiveLists L A) (xs : Sequences L A) : Prop where
  head : ∀ c, s.head c = (xs.of c).head?
  next : ∀ a b, (s.node a).next = some b ↔ ∃ c, [a, b] <:+: xs.of c
  prev : ∀ a b, (s.node b).prev = some a ↔ ∃ c, [a, b] <:+: xs.of c
  first : ∀ c a, (xs.of c).head? = some a → (s.node a).prev = none
  last : ∀ c a, (xs.of c).getLast? = some a → (s.node a).next = none
  outside : ∀ a, xs.Free a → (s.node a).next = none ∧ (s.node a).prev = none

/-- The invariant of the operations. -/
structure Links (s : TIntrusiveLists L A) (xs : Sequences L A) : Prop where
  segment : ∀ c, (s.list c).Segment (xs.of c)
  free : ∀ a, xs.Free a → s.node a = {}

variable {s s' : TIntrusiveLists L A} {xs ys : Sequences L A} {c d : L} {a b : A}
  {l : TIntrusiveList A}

omit [DecidableEq A] in
theorem list_put_self : (s.put c l).list c = l := by
  simp [list, put]

omit [DecidableEq A] in
theorem list_put_of_ne (h : d ≠ c) : (s.put c l).list d = ⟨s.head d, l.node⟩ := by
  simp [list, put, h]

omit [DecidableEq L] in
theorem Links.initial : Links ({} : TIntrusiveLists L A) .empty where
  segment _ := ⟨List.nodup_nil, rfl, fun _ _ => rfl, fun _ _ => rfl⟩
  free _ _ := rfl

theorem Links.add (h : s.Links xs) (c : L) (ha : xs.Free a) :
    (s.put c ((s.list c).add a)).Links (xs.push c a ha) where
  segment d := by
    by_cases hd : d = c
    · subst hd
      rw [list_put_self, Sequences.push_self]
      refine (h.segment d).add (ha d) ?_
      show (s.node a).prev = none
      rw [h.free a ha]
    · rw [list_put_of_ne hd, Sequences.push_of_ne ha hd]
      refine (h.segment d).congr rfl fun x hx => (h.segment c).node_add ?_
      rw [List.mem_cons, not_or]
      exact ⟨fun hxa => ha d (hxa ▸ hx), fun hxc => hd (xs.apart d c x hx hxc)⟩
  free x hx := by
    obtain ⟨hxa, hx⟩ := Sequences.free_push ha hx
    have hnode := (h.segment c).node_add (x := x) (a := a) (by simp [hxa, hx c])
    exact hnode.trans (h.free x hx)

theorem Links.erase (h : s.Links xs) (ha : a ∈ xs.of c) :
    (s.put c ((s.list c).erase a)).Links (xs.remove c a) where
  segment d := by
    by_cases hd : d = c
    · subst hd
      rw [list_put_self, Sequences.remove, Sequences.keep_self]
      exact (h.segment d).erase ha
    · rw [list_put_of_ne hd, Sequences.remove, Sequences.keep_of_ne _ hd]
      exact (h.segment d).congr rfl fun x hx =>
        (h.segment c).node_erase ha fun hxc => hd (xs.apart d c x hx hxc)
  free x hx := by
    rcases Sequences.free_remove hx with hxa | hx
    · rw [hxa]
      exact TIntrusiveList.node_erase_self
    · exact ((h.segment c).node_erase ha (hx c)).trans (h.free x hx)

omit [DecidableEq L] in
theorem Links.unlinked (h : s.Links xs) (c : L) (ha : xs.Free a) : (s.list c).Unlinked a where
  head hhead := ha c (List.mem_of_mem_head? ((h.segment c).head ▸ hhead))
  next := by rw [show (s.list c).node a = s.node a from rfl, h.free a ha]
  prev := by rw [show (s.list c).node a = s.node a from rfl, h.free a ha]

/-- Erasing a node that is in no list writes nothing. -/
theorem Links.erase_free (h : s.Links xs) (c : L) (ha : xs.Free a) :
    s.put c ((s.list c).erase a) = s := by
  rw [(h.unlinked c ha).erase]
  show ({ head := Function.update s.head c (s.head c), node := s.node } : TIntrusiveLists L A) = s
  rw [Function.update_eq_self]

omit [DecidableEq L] in
theorem Links.pop (h : s.Links xs) (c : L) :
    (s.list c).pop = (xs.of c).head?.map fun a => (a, (s.list c).erase a) := by
  rw [TIntrusiveList.pop, (h.segment c).head]

theorem Links.step (h : s.Links xs) {op : Operation L A}
    (hs : (sequences L A).step xs op = some ys) : ∃ s', s.step op = some s' ∧ s'.Links ys := by
  cases op with
  | add c a =>
    obtain ⟨ha, hys⟩ := Option.dite_none_right_eq_some.mp hs
    exact ⟨_, rfl, Option.some.inj hys ▸ h.add c ha⟩
  | pop c =>
    obtain ⟨hc, hys⟩ := Option.ite_none_right_eq_some.mp hs
    obtain ⟨a, rest, hrest⟩ := List.exists_cons_of_ne_nil hc
    have ha : a ∈ xs.of c := by rw [hrest]; exact List.mem_cons_self
    refine ⟨s.put c ((s.list c).erase a), ?_, ?_⟩
    · show (s.list c).pop.map _ = _
      rw [h.pop, hrest]
      rfl
    · rw [← Option.some.inj hys, Sequences.dropFirst_eq_remove hrest]
      exact h.erase ha
  | erase c a =>
    obtain ⟨ha, hys⟩ := Option.ite_none_right_eq_some.mp hs
    refine ⟨_, rfl, ?_⟩
    rw [← Option.some.inj hys]
    rcases ha with ha | ha
    · exact h.erase ha
    · rw [h.erase_free c ha, Sequences.remove_of_not_mem (ha c)]
      exact h

theorem Links.exec (ops : List (Operation L A)) (h : (sequences L A).exec .empty ops = some xs) :
    ∃ s, (lists L A).exec {} ops = some s ∧ s.Links xs := by
  refine System.exec_labels
    (I := fun past xs => ∃ s, (lists L A).exec {} past = some s ∧ s.Links xs)
    ?_ ops ⟨{}, rfl, .initial⟩ h
  intro past xs op ys hpast hs
  obtain ⟨s, hexec, hlinks⟩ := hpast
  obtain ⟨s', hstep, hlinks⟩ := hlinks.step hs
  refine ⟨s', ?_, hlinks⟩
  rw [System.exec_append _ _ hexec, System.exec_cons _ hstep]
  rfl

omit [DecidableEq L] in
theorem Links.mem_of_ne (h : s.Links xs) (ha : s.node a ≠ {}) : ∃ c, a ∈ xs.of c := by
  by_contra hfree
  exact ha (h.free a fun c hc => hfree ⟨c, hc⟩)

omit [DecidableEq L] in
theorem Links.represents (h : s.Links xs) : s.Represents xs where
  head c := (h.segment c).head
  next a b := by
    constructor
    · intro hb
      obtain ⟨c, hc⟩ := h.mem_of_ne (a := a) (fun hnode => by rw [hnode] at hb; cases hb)
      have hnext := (h.segment c).next a hc
      exact ⟨c, (after_eq_some_iff (xs.nodup c)).mp (hnext.symm.trans hb)⟩
    · intro hab
      obtain ⟨c, hab⟩ := hab
      have ha : a ∈ xs.of c := hab.subset (by simp)
      exact ((h.segment c).next a ha).trans ((after_eq_some_iff (xs.nodup c)).mpr hab)
  prev a b := by
    constructor
    · intro ha
      obtain ⟨c, hc⟩ := h.mem_of_ne (a := b) (fun hnode => by rw [hnode] at ha; cases ha)
      have hprev := (h.segment c).prev b hc
      exact ⟨c, (before_eq_some_iff (xs.nodup c)).mp (hprev.symm.trans ha)⟩
    · intro hab
      obtain ⟨c, hab⟩ := hab
      have hb : b ∈ xs.of c := hab.subset (by simp)
      exact ((h.segment c).prev b hb).trans ((before_eq_some_iff (xs.nodup c)).mpr hab)
  first c a ha := by
    have hmem := List.mem_of_mem_head? ha
    exact ((h.segment c).prev a hmem).trans (before_head ha)
  last c a ha := by
    have hmem := List.mem_of_getLast? ha
    exact ((h.segment c).next a hmem).trans (after_last (xs.nodup c) ha)
  outside a ha := by
    rw [h.free a ha]
    exact ⟨rfl, rfl⟩

/-- The lists stand for the sequences that the operations so far mean. -/
theorem exec_represents (ops : List (Operation L A))
    (h : (sequences L A).exec .empty ops = some xs) :
    ∃ s, (lists L A).exec {} ops = some s ∧ s.Represents xs ∧
      (∀ c, s.returned (.pop c) = (xs.of c).head?) ∧
      ∀ c a, xs.Free a → s.step (.erase c a) = some s := by
  obtain ⟨s, hexec, hlinks⟩ := Links.exec ops h
  refine ⟨s, hexec, hlinks.represents, fun c => ?_, fun c a ha => ?_⟩
  · show (s.list c).pop.map Prod.fst = _
    rw [hlinks.pop, Option.map_map]
    exact Option.map_id'
  · exact congrArg some (hlinks.erase_free c ha)

/-- Two nodes in one list, of which the second is erased and added to another. -/
theorem exec_represents_of_two_lists : ∃ (xs : Sequences Bool Bool) (s : TIntrusiveLists Bool Bool),
    xs.of false = [false] ∧ xs.of true = [true] ∧ s.Represents xs ∧
      (lists Bool Bool).exec {}
        [.add false true, .add false false, .erase false true, .add true true] = some s := by
  have hfirst : (Sequences.empty : Sequences Bool Bool).Free true := fun _ => List.not_mem_nil
  have hsecond : (Sequences.empty.push false true hfirst).Free false := by
    intro c
    cases c <;> simp [Sequences.push, Sequences.empty]
  have hmem : true ∈
      ((Sequences.empty.push false true hfirst).push false false hsecond).of false := by
    simp
  have herase : (sequences Bool Bool).step _ (.erase false true) = some _ :=
    if_pos (Or.inl hmem)
  have hthird : (((Sequences.empty.push false true hfirst).push false false hsecond).remove
      false true).Free true := by
    intro c
    cases c <;> simp [Sequences.push, Sequences.remove, Sequences.keep, Sequences.empty]
  have hadd : (sequences Bool Bool).step _ (.add true true) = some _ := dif_pos hthird
  obtain ⟨s, hexec, hrepr, -⟩ := exec_represents
    [.add false true, .add false false, .erase false true, .add true true]
    ((System.exec_cons _ (dif_pos hfirst)).trans ((System.exec_cons _ (dif_pos hsecond)).trans
      ((System.exec_cons _ herase).trans (System.exec_cons _ hadd))))
  refine ⟨_, s, ?_, ?_, hrepr, hexec⟩
  · simp [Sequences.push, Sequences.remove, Sequences.keep, Sequences.empty]
  · simp [Sequences.push, Sequences.remove, Sequences.keep, Sequences.empty]

end TIntrusiveLists
end UvExec
