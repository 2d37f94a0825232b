import PointsTo.Digraph.Basic
import PointsTo.Digraph.Components
import PointsTo.Fault
/-!
# Elementary cycles

All elementary cycles of a graph, self loops included, each written from
its least point back to it. The search starts at the least point that lies
on a cycle, finds every cycle through it, and goes on with the larger
points alone. A point from which the start could not be reached is blocked
until one of the points it waits for is left with a cycle found.
-/

namespace PointsTo

namespace Digraph

/-- The state of the search for the cycles through one point. -/
structure CycleSearch where
  /-- The points the search does not enter. -/
  blocked : List Int := []
  /-- The points to be unblocked together with a point. -/
  waiting : Assoc Int (List Int) := []
  /-- The points of the path, last first. -/
  path : List Int := []
  /-- The cycles found, in order. -/
  found : List (List Int) := []
  deriving Repr

namespace CycleSearch

/-- Whether as many cycles have been found as are wanted; a limit that is
not positive is none. -/
def full (limit : Int) (s : CycleSearch) : Bool := 0 < limit && limit ≤ s.found.length

/-- Unblocks a point and, in turn, the blocked points waiting for it. -/
def unblock : Nat → Int → CycleSearch → CycleSearch
  | 0, _, s => s
  | fuel + 1, u, s =>
    let waiters := s.waiting.getD u []
    let s := { s with blocked := s.blocked.erase u, waiting := s.waiting.erase u }
    waiters.foldl (fun s w => if w ∈ s.blocked then unblock fuel w s else s) s

/-- Makes `v` wait for each of the points. -/
def await (v : Int) (ws : List Int) (s : CycleSearch) : CycleSearch :=
  ws.foldl (fun s w => { s with waiting := s.waiting.set w ((s.waiting.getD w []).insert v) }) s

/-- Extends the path by `v` and finds the cycles back to `start`. The
result says whether there was one. -/
def circuit (g : Digraph) (limit start : Int) : Nat → Int → CycleSearch → Bool × CycleSearch
  | 0, _, s => (false, s)
  | fuel + 1, v, s =>
    let s := { s with path := v :: s.path, blocked := s.blocked.insert v }
    let (hit, s) := (g.succs v).foldl (fun (hit, s) w =>
      if s.full limit then (hit, s)
      else if w = start then
        (true, { s with found := s.found ++ [(w :: s.path).reverse] })
      else if w ∈ s.blocked then (hit, s)
      else
        let (h, s) := circuit g limit start fuel w s
        (hit || h, s)) (false, s)
    let s := if hit then unblock (g.keys.length + 1) v s else await v (g.succs v) s
    (hit, { s with path := s.path.drop 1 })

end CycleSearch

/-- The least point that lies on a cycle. Components are only known of the
points below the order, and an arc that leads out of them is a fault. -/
def leastOnCycle (g : Digraph) : Except Fault (Option Int) :=
  let inside (k : Int) : Bool := 0 ≤ k && k < g.order
  let points := g.keys.filter inside
  if points.any fun k => (g.succs k).any (!inside ·) then .error .outOfRange
  else
    let cyclic := (components g.succs g.keys.length points).filter fun c =>
      match c with
      | [v] => g.hasArc v v
      | _ => true
    .ok (cyclic.flatten.min?)

/-- Finds the cycles through the least point on a cycle and goes on with
the keys after it, `fuel` times at most. -/
def cyclesFrom (g : Digraph) (limit : Int) :
    Nat → List Int → List (List Int) → Except Fault (List (List Int))
  | 0, _, found => .ok found
  | fuel + 1, keys, found =>
    if keys.isEmpty ∨ ({ found } : CycleSearch).full limit then .ok found
    else do
      let sub := g.restrict keys
      match ← sub.leastOnCycle with
      | none => .ok found
      | some least =>
        let (_, s) := CycleSearch.circuit sub limit least (sub.keys.length + 1) least { found }
        cyclesFrom g limit fuel (g.keys.drop ((g.keys.takeWhile (· < least)).length + 1)) s.found

/-- The elementary cycles of the graph, at most `limit` of them if that is
positive. -/
def elementaryCycles (g : Digraph) (limit : Int) : Except Fault (List (List Int)) :=
  g.cyclesFrom limit (g.keys.length + limit.toNat + 1) g.keys []

end Digraph

end PointsTo
