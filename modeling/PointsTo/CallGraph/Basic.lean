import PointsTo.Digraph.Basic
import PointsTo.Digraph.Components
import PointsTo.Digraph.Explore
import PointsTo.Fault
/-!
# The call graph

The raw call multigraph over method numbers. Edges are only ever added,
one for each call site identity, and are known by their position. An edge
also carries what later passes find out about it: whether it stays inside
a component, and the offset of the contexts it is entered with.
-/

namespace PointsTo

/-- A call edge. -/
structure Edge extends CallSite where
  /-- Caller and callee are in the same component. -/
  inComponent : Bool := false
  /-- The first context of the callee that the edge leads to; zero if the
  edge has not been given contexts. -/
  offset : Int64 := 0
  deriving DecidableEq, Repr, Inhabited

namespace Edge

/-- Whether the edge has been given contexts. -/
def mapped (e : Edge) : Bool := 0 < e.offset

/-- An edge is written as its call site, with a mark inside components. -/
def text (e : Edge) : String := e.toCallSite.text ++ (if e.inComponent then " (scc)" else "")

end Edge

/-- A call graph: the methods are the numbers below `size`. -/
structure CallGraph where
  size : Nat := 0
  /-- The edges, in the order they were added. -/
  edges : Array Edge := #[]
  deriving Repr, Inhabited

namespace CallGraph

/-- Grows the graph so that `m` is a method. -/
def ensure (g : CallGraph) (m : MethodId) : CallGraph :=
  { g with size := max g.size (m + 1).toNat }

/-- The graph with the methods below `n` and no edge. -/
def ofSize (n : Int) : CallGraph := ({} : CallGraph).ensure (n - 1)

/-- Whether the number is that of a method. -/
def hasMethod (g : CallGraph) (m : MethodId) : Bool := 0 ≤ m && m < g.size

/-- The methods, in increasing order. -/
def methods (g : CallGraph) : List MethodId := (List.range g.size).map Int.ofNat

/-- The position of the edge of a call site. -/
def position? (g : CallGraph) (cs : CallSite) : Option Nat :=
  g.edges.toList.findIdx? fun e => e.toCallSite == cs

/-- The edge of a call site. -/
def edge? (g : CallGraph) (cs : CallSite) : Option Edge :=
  (g.position? cs).bind fun i => g.edges[i]?

/-- Adds the edge of a call site unless it is there, and says whether it
was new. The methods it names are added before it turns out that a caller
cannot have edges. -/
def addEdge (cs : CallSite) : Attempt CallGraph Bool := do
  match (← get).position? cs with
  | some _ => pure false
  | none =>
    modify fun g => (g.ensure cs.caller).ensure cs.callee
    if cs.caller < 0 then throw .outOfRange
    modify fun g => { g with edges := g.edges.push { cs with } }
    pure true

/-- Changes the edge at a position. -/
def modifyEdge (g : CallGraph) (i : Nat) (f : Edge → Edge) : CallGraph :=
  { g with edges := g.edges.modify i f }

/-- The positions of the edges out of a method, in the order of addition. -/
def outPositions (g : CallGraph) (m : MethodId) : List Nat :=
  (List.range g.edges.size).filter fun i => (g.edges[i]?).any (·.caller == m)

/-- The edges out of a method, in the order of addition. -/
def out (g : CallGraph) (m : MethodId) : List Edge := g.edges.toList.filter (·.caller == m)

/-- The callees of a method, once per edge. -/
def successors (g : CallGraph) (m : MethodId) : List MethodId := (g.out m).map (·.callee)

/-- For each method, whether the root reaches it. A callee that is no
method is a fault. -/
def reachable (g : CallGraph) : Except Fault (Array Bool) :=
  if g.size = 0 then .ok #[]
  else
    let reached := explore g.successors g.edges.size [rootMethod]
    if reached.all g.hasMethod then .ok ((g.methods.map (reached.contains ·)).toArray)
    else .error .outOfRange

/-- The representative of each method: the least method of its component. -/
def representatives (g : CallGraph) : List MethodId :=
  let reps := componentRepresentatives (fun a b => decide (a < b))
    (components g.successors (g.size + g.edges.size) g.methods)
  g.methods.map fun m => reps.getD m 0

/-- The graph as a labelled digraph; parallel edges become one arc. -/
def toDigraph (g : CallGraph) (label : MethodId → String) : Digraph :=
  Digraph.ofSuccessors g.methods g.successors label

end CallGraph

end PointsTo
