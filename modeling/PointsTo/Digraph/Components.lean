import PointsTo.Assoc
/-!
# Strongly connected components

The components of a graph given by a successor function, found by one
depth-first traversal that numbers the points in the order it enters them.
A point is kept on a stack until its component is complete, and the
traversal returns the least number on the stack that it can get back to.
Components come out with the components they can reach before them.
-/

namespace PointsTo

namespace Components

variable {α : Type} [DecidableEq α]

/-- The state of the traversal. -/
structure Progress (α : Type) where
  /-- The points entered so far, with their numbers. -/
  entered : Assoc α Nat := []
  /-- The entered points whose component is not complete, last first. -/
  stack : List α := []
  /-- The complete components, in order. -/
  complete : List (List α) := []
  deriving Repr

/-- Enters a point. -/
def Progress.enter (p : Progress α) (v : α) : Progress α :=
  { p with entered := (v, p.entered.length) :: p.entered, stack := v :: p.stack }

/-- Completes the component of the points entered from `v` on. -/
def Progress.close (p : Progress α) (v : α) : Progress α :=
  { p with
    stack := (p.stack.dropWhile (· ≠ v)).drop 1
    complete := p.complete ++ [p.stack.takeWhile (· ≠ v) ++ [v]] }

/-- Enters `v` and what it reaches, `fuel` points deep at most. The first
result is the least number on the stack `v` gets back to. -/
def visit (next : α → List α) : Nat → α → Progress α → Nat × Progress α
  | 0, _, p => (p.entered.length, p)
  | fuel + 1, v, p =>
    let number := p.entered.length
    let (low, p) := (next v).foldl (fun (low, p) w =>
      match p.entered.get? w with
      | none =>
        let (l, p) := visit next fuel w p
        (min low l, p)
      | some j => if w ∈ p.stack then (min low j, p) else (low, p)) (number, p.enter v)
    if low = number then (low, p.close v) else (low, p)

/-- Enters the points that have not been entered yet, one after the other. -/
def visitAll (next : α → List α) (bound : Nat) (points : List α) : Progress α :=
  points.foldl (fun p v => if p.entered.has v then p else (visit next bound v p).2) {}

end Components

variable {α : Type} [DecidableEq α]

/-- The strongly connected components of the points reachable from
`points`. `bound` is at least the number of these. -/
def components (next : α → List α) (bound : Nat) (points : List α) : List (List α) :=
  (Components.visitAll next bound points).complete

/-- The least element of a list that starts with `x`. -/
def leastOf (lt : α → α → Bool) (x : α) (xs : List α) : α :=
  xs.foldl (fun least y => if lt y least then y else least) x

/-- Maps every point to the least point of its component. -/
def componentRepresentatives (lt : α → α → Bool) (cs : List (List α)) : Assoc α α :=
  cs.foldl (fun reps c =>
    match c with
    | [] => reps
    | x :: xs => c.foldl (fun reps y => reps.set y (leastOf lt x xs)) reps) []

end PointsTo
