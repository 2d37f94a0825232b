import PointsTo.Assoc
/-!
# Directed graphs with labelled points

A finite graph over integer keys, with at most one arc from a point to
another and a label on every point. Keys and neighbours are kept in
increasing order; a key that was given twice is listed twice.
-/

namespace PointsTo

/-- A point of a graph. -/
structure Point where
  id : Int := 0
  label : String := ""
  deriving DecidableEq, Repr, Inhabited

/-- A finite directed graph. -/
structure Digraph where
  /-- Every key that counts is below the order. -/
  order : Nat
  /-- The keys, in increasing order. -/
  keys : List Int
  points : Assoc Int Point
  /-- The distinct ends of the arcs out of each key. -/
  arcs : Assoc Int (List Int)
  deriving Repr, Inhabited

namespace Digraph

/-- Integers in increasing order. -/
def increasing (ks : List Int) : List Int := ks.mergeSort fun a b => decide (a ≤ b)

/-- The keys that count towards the order are those whose successor is a
64-bit number. -/
def keyLimit : Int := 9223372036854775807

/-- One more than the largest key, or zero if that is negative. -/
def orderOf (ks : List Int) : Nat :=
  ks.foldl (fun order k => if k < keyLimit then max order (k + 1).toNat else order) 0

/-- The graph over `keys`. Successors that are not keys are ignored. -/
def ofSuccessors (keys : List Int) (next : Int → List Int) (label : Int → String) : Digraph :=
  let keys := increasing keys
  { order := orderOf keys
    keys
    points := keys.foldl (fun ps k => ps.set k ⟨k, label k⟩) []
    arcs := keys.foldl (fun arcs k => arcs.set k ((next k).eraseDups.filter (· ∈ keys))) [] }

/-- Points are labelled with their key unless something else is asked for. -/
def keyLabel (k : Int) : String := toString k

/-- The distinct ends of the arcs out of a key. -/
def targets (g : Digraph) (k : Int) : List Int := g.arcs.getD k []

/-- Whether there is an arc. -/
def hasArc (g : Digraph) (a b : Int) : Bool := (g.targets a).contains b

/-- Whether there is an arc in one of the directions. -/
def hasArcBetween (g : Digraph) (a b : Int) : Bool := g.hasArc a b || g.hasArc b a

/-- The successors of a key, in increasing order. -/
def succs (g : Digraph) (k : Int) : List Int :=
  increasing ((g.keys.filter (· == k)).flatMap fun _ => g.targets k)

/-- The predecessors of a key, in increasing order. -/
def preds (g : Digraph) (k : Int) : List Int := g.keys.filter fun s => g.hasArc s k

/-- The point of a key. -/
def point? (g : Digraph) (k : Int) : Option Point := g.points.get? k

/-- The point of a key, or the blank point. -/
def pointD (g : Digraph) (k : Int) : Point := (g.point? k).getD {}

/-- The graph with only the given keys and the arcs between them. The order
stays, so that keys mean the same in both. -/
def restrict (g : Digraph) (keys : List Int) : Digraph :=
  let keys := increasing keys
  { order := g.order
    keys
    points := keys.foldl (fun ps k => ps.set k (g.pointD k)) []
    arcs := keys.foldl (fun arcs k => arcs.set k ((g.targets k).filter (· ∈ keys))) [] }

/-- The successors of a key up to the one at which `stop` calls have been
made, zero meaning never, and whether it stopped there. -/
def visit (g : Digraph) (k : Int) (stop : Nat) : List Int × Bool :=
  match g.point? k with
  | none => ([], false)
  | some _ =>
    let succs := g.succs k
    if 0 < stop ∧ stop ≤ succs.length then (succs.take stop, true) else (succs, false)

end Digraph

end PointsTo
