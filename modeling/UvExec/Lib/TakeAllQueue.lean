import UvExec.Lib.Transition

/-! # A FIFO queue whose consumer takes everything at once

`queue` is what waits, the oldest element first, and `taken` are the batches in
the order in which they were taken. -/

namespace UvExec.Lib

structure TakeAllQueue (O : Type) where
  queue : List O := []
  taken : List (List O) := []
  deriving Repr

namespace TakeAllQueue
variable {O : Type}

inductive Action (O : Type) where
  | push (op : O)
  | takeAll
  deriving DecidableEq, Repr

def step (q : TakeAllQueue O) : Action O → TakeAllQueue O
  | .push op => { q with queue := q.queue ++ [op] }
  | .takeAll => { queue := [], taken := q.taken ++ [q.queue] }

def system : System (TakeAllQueue O) (Action O) where
  initial q := q = {}
  step q a := some (step q a)

def Action.pushed : Action O → Option O
  | .push op => some op
  | .takeAll => none

/-- Everything that has been pushed, in the order in which it is taken. -/
def contents (q : TakeAllQueue O) : List O := q.taken.flatten ++ q.queue

theorem contents_step (q : TakeAllQueue O) (a : Action O) :
    (step q a).contents = q.contents ++ a.pushed.toList := by
  cases a with
  | push op => simp [step, contents, Action.pushed]
  | takeAll => simp [step, contents, Action.pushed]

/-- Nothing is lost, duplicated or overtaken. -/
theorem contents_exec {q q' : TakeAllQueue O} (as : List (Action O))
    (h : system.exec q as = some q') : q'.contents = q.contents ++ as.filterMap Action.pushed := by
  induction as generalizing q with
  | nil => simp [Option.some.inj h]
  | cons a as ih =>
    have hrest : system.exec (step q a) as = some q' := h
    rw [ih hrest, contents_step, List.append_assoc]
    cases a with
    | push op => simp [Action.pushed]
    | takeAll => simp [Action.pushed, List.filterMap_cons]

end TakeAllQueue
end UvExec.Lib
