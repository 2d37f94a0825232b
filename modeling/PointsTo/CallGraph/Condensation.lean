import PointsTo.CallGraph.Basic
/-!
# Condensation

The call graph with every component collapsed into a representative. Only
the methods the root reaches are condensed. The edges between distinct
components are kept at the representative of their caller, and a traversal
that finalizes a component once all its callers are finalized gives the
components their order and their rank.
-/

namespace PointsTo

/-- A call graph seen through its components. Tables are by method. -/
structure Condensation where
  /-- The representative of each method. -/
  rep : Array MethodId
  /-- The rank of each representative. -/
  rank : Array Nat
  /-- The positions of the edges leaving each component. -/
  out : Array (List Nat)
  /-- The methods of each component, at its representative. -/
  members : Array (List MethodId)
  /-- Whether the root reaches the method. -/
  reachable : Array Bool
  /-- The representatives in the order they were finalized. -/
  order : List MethodId
  deriving Repr, Inhabited

namespace Condensation

/-- The number of methods. -/
def size (c : Condensation) : Nat := c.rep.size

/-- The representative of a method. -/
def rep? (c : Condensation) (m : MethodId) : Option MethodId := slot? c.rep m

/-- The representative of a method, or the root. -/
def repD (c : Condensation) (m : MethodId) : MethodId := (c.rep? m).getD rootMethod

/-- The rank of the component of a method. -/
def rankOf (c : Condensation) (m : MethodId) : Nat := (slot? c.rank (c.repD m)).getD 0

/-- The positions of the edges leaving the component of a representative. -/
def outOf (c : Condensation) (r : MethodId) : List Nat := (slot? c.out r).getD []

/-- The methods of the component of a representative. -/
def membersOf (c : Condensation) (r : MethodId) : List MethodId := (slot? c.members r).getD []

/-- Whether the root reaches the method. -/
def isReachable (c : Condensation) (m : MethodId) : Bool := (slot? c.reachable m).getD false

/-! ## The traversal -/

/-- The state of the traversal. -/
structure Traversal where
  queue : List MethodId
  rank : Array Nat
  /-- The edges into each component from components not finalized yet. -/
  waiting : Array Int
  order : List MethodId := []
  deriving Repr

namespace Traversal

/-- Lets the component `t` know that a caller of rank `rank` is finalized. -/
def relax (rank : Nat) (s : Traversal) (t : MethodId) : Traversal :=
  let waiting := s.waiting.modify t.toNat (· - 1)
  { s with
    rank := s.rank.modify t.toNat (max · (rank + 1))
    waiting
    queue := if waiting[t.toNat]? = some 0 then s.queue ++ [t] else s.queue }

/-- Finalizes the components of the queue one after the other. `callees`
gives the components called by one, once per edge. -/
def run (callees : MethodId → List MethodId) : Nat → Traversal → Traversal
  | 0, s => s
  | fuel + 1, s =>
    match s.queue with
    | [] => s
    | m :: queue =>
      let rank := (slot? s.rank m).getD 0
      let s := { s with queue, order := s.order ++ [m] }
      run callees fuel ((callees m).foldl (relax rank) s)

end Traversal

end Condensation

namespace CallGraph

/-- The representative of each method: as given, and itself beyond the end
of the list. -/
def repTable (g : CallGraph) (reps : List MethodId) : Array MethodId :=
  ((List.range g.size).map fun i => reps.getD i (Int.ofNat i)).toArray

/-- Checks that every representative is a method that represents itself. -/
def checkReps (rep : Array MethodId) : Except Fault Unit :=
  (List.range rep.size).forM fun i =>
    match rep[i]? with
    | some r => if slot? rep r = some r then .ok () else .error (.notRepresentative r i)
    | none => .ok ()

/-- Marks the edges of reachable callers that stay inside a component. -/
def markComponents (g : CallGraph) (rep : Array MethodId) (reachable : Array Bool) : CallGraph :=
  { g with
    edges := g.edges.map fun e =>
      if (slot? reachable e.caller).getD false && slot? rep e.caller == slot? rep e.callee then
        { e with inComponent := true }
      else e }

/-- The positions of the edges leaving the component of `r`. -/
def leaving (g : CallGraph) (rep : Array MethodId) (reachable : Array Bool) (r : MethodId) :
    List Nat :=
  (g.methods.filter fun m => slot? rep m == some r && (slot? reachable m).getD false).flatMap
    fun m => (g.outPositions m).filter fun i => (g.edges[i]?).any (!·.inComponent)

/-- Collapses the components given by a representative for each method.
The edges inside components are marked in the graph. -/
def condense (g : CallGraph) (reps : List MethodId) : Except Fault (CallGraph × Condensation) := do
  let rep := g.repTable reps
  checkReps rep
  let reachable ← g.reachable
  let g := g.markComponents rep reachable
  let out := (g.methods.map (g.leaving rep reachable)).toArray
  let callees (m : MethodId) : List MethodId :=
    ((slot? out m).getD []).filterMap fun i => (g.edges[i]?).bind fun e => slot? rep e.callee
  let entering := g.methods.flatMap callees
  let start : Condensation.Traversal :=
    { queue := if g.size = 0 then [] else [rootMethod]
      rank := Array.replicate g.size 0
      waiting := (g.methods.map fun m => (entering.count m : Int)).toArray }
  let done := Condensation.Traversal.run callees (g.size + 1) start
  .ok (g,
    { rep
      rank := done.rank
      out
      members := (g.methods.map fun r => g.methods.filter fun m => slot? rep m == some r).toArray
      reachable
      order := done.order })

end CallGraph

namespace Condensation

/-- The components the root reaches as a labelled digraph. The graph is the
one that was condensed. -/
def toDigraph (c : Condensation) (g : CallGraph) (label : MethodId → String) : Digraph :=
  Digraph.ofSuccessors c.order
    (fun r => (c.outOf r).filterMap fun i => (g.edges[i]?).bind fun e => c.rep? e.callee) label

end Condensation

end PointsTo
