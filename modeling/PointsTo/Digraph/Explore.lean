/-!
# Exploring a graph

What can be reached from a list of starting points along a successor
function. Every relation of the library that is a closure — supertypes,
callees, calls — is computed by this one traversal.
-/

namespace PointsTo

variable {α : Type} [DecidableEq α]

/-- Visits the pending points one by one, at most `fuel` of them, putting
the successors of a new point in front of the pending ones. -/
def exploreFrom (next : α → List α) : Nat → List α → List α → List α
  | 0, _, seen => seen
  | _ + 1, [], seen => seen
  | fuel + 1, x :: pending, seen =>
    if x ∈ seen then exploreFrom next fuel pending seen
    else exploreFrom next fuel (next x ++ pending) (seen ++ [x])

/-- The points reachable from `start`, the starting points included. Every
point that is visited puts its successors up once, so that `arcs`, a bound
on the number of successors of all points together, bounds the visits. -/
def explore (next : α → List α) (arcs : Nat) (start : List α) : List α :=
  exploreFrom next (start.length + arcs) start []

end PointsTo
