import PointsTo.CallGraph.Search
import PointsTo.Facts
import PointsTo.Universe.Basic
/-!
# Context-sensitive queries

What a variable points to under a calling context, which is given in part,
by one call edge, or in full, by a chain of edges. Results are handed to a
visitor one by one; a visitor may stop the query with a fault.
-/

namespace PointsTo

/-- The labels one querier uses from query to query. -/
structure Querier where
  /-- The label of each component. -/
  marks : Array Nat
  /-- Labels up to this one have been used. -/
  generation : Nat
  deriving Repr, Inhabited

namespace Querier

/-- The generation at which the labels start over. -/
def lastGeneration : Nat := 2147483645

/-- A querier for a graph with that many methods. Its first query starts
the labels over. -/
def new (methods : Nat) : Querier := ⟨Array.replicate methods 0, lastGeneration⟩

/-- Starts the labels over if none are left. -/
def renew (q : Querier) : Querier :=
  if lastGeneration ≤ q.generation then ⟨q.marks.map fun _ => 0, 0⟩ else q

/-- Marks a component. -/
def mark (q : Querier) (r : MethodId) (label : Nat) : Querier :=
  { q with marks := q.marks.modify r.toNat fun _ => label }

/-- The labels of a completed search are used up. -/
def advance (q : Querier) : Querier := { q with generation := q.generation + 2 }

end Querier

/-- Takes the results of a query one by one. -/
abbrev Visitor (σ : Type) := Fact → Attempt σ Unit

namespace Visitor

/-- Collects the results. -/
def collect : Visitor (List Fact) := fun f => modify (· ++ [f])

/-- Lets the visitor take a list of results. -/
def takeAll {σ : Type} (v : Visitor σ) : List Fact → Attempt σ Unit
  | [] => pure ()
  | f :: fs => do
    v f
    takeAll v fs

end Visitor

namespace Query

/-- What queries are asked about. -/
structure Scene where
  graph : CallGraph
  encoding : Encoding
  nodes : Universe
  facts : FactStore

/-- The state of a query: the labels, and what the visitor keeps. -/
abbrev State (σ : Type) := Querier × σ

variable {σ : Type}

/-- Runs the visitor beside the labels. -/
def visiting {α : Type} (a : Attempt σ α) : Attempt (State σ) α := ExceptT.mk do
  let (q, s) ← get
  let (r, s) := a.go s
  set (q, s)
  pure r

/-- Performs the events of a search: marks components, and hands the facts
of the node under the requested contexts to the visitor. -/
def perform (facts : FactStore) (node : NodeId) (v : Visitor σ) :
    List SearchEvent → Attempt (State σ) Unit
  | [] => pure ()
  | .mark r label :: es => do
    modify fun (q, s) => (q.mark r label, s)
    perform facts node v es
  | .request l r :: es => do
    visiting (v.takeAll (facts.contextObjects node l r))
    perform facts node v es

/-- The search a query by one edge makes with the labels at hand. -/
def searchFrom (sc : Scene) (e : Edge) (target : MethodId) (length : Int64) (q : Querier) :
    SearchState :=
  sc.encoding.search sc.graph ⟨target, length, q.generation + 1, q.generation + 2⟩
    sc.encoding.searchDepth e.callee e.offset { marks := q.marks }

/-- Visits what `ptr` points to under the contexts that go through a call
edge, which can be any hop of the calling context. The answer is no, and
nothing is visited, if the pointer has been removed or has no method, or
if the edge is unknown or unmapped. -/
def byAnyEdge (sc : Scene) (cs : CallSite) (ptr : NodeId) (v : Visitor σ) :
    Attempt (State σ) Bool := do
  match sc.facts.representative ptr, sc.graph.edge? cs with
  | some node, some e =>
    let target := sc.nodes.methodOf ptr
    if !e.mapped || (sc.encoding.graph.rep? target).isNone then pure false
    else
      let b ← (sc.encoding.block e.caller : Except Fault Block)
      modify fun (q, s) => (q.renew, s)
      let (q, _) ← get
      let found := searchFrom sc e target b.size q
      perform sc.facts node v found.events
      let _ ← (found.outcome : Except Fault Bool)
      modify fun (q, s) => (q.advance, s)
      pure true
  | _, _ => pure false

/-- Visits what `ptr` points to under the calling context of a chain of
edges, from the farthest caller to the closest. The answer is no, and
nothing is visited, if the pointer has been removed, if the chain is
empty, or if one of its edges is unknown or unmapped. -/
def byChain (sc : Scene) (chain : List CallSite) (ptr : NodeId) (v : Visitor σ) :
    Attempt (State σ) Bool := do
  match sc.facts.representative ptr with
  | none => pure false
  | some node =>
    let edges := chain.map sc.graph.edge?
    match edges with
    | some first :: _ =>
      if edges.contains none then pure false
      else
        match ← (sc.encoding.compose edges : Except Fault (Option Int64)) with
        | none => pure false
        | some l =>
          let b ← (sc.encoding.block first.caller : Except Fault Block)
          visiting (v.takeAll (sc.facts.contextObjects node l (l + b.size)))
          pure true
    | _ => pure false

/-! ## Fields -/

/-- What the field of an object points to under the contexts of the fact,
if the object has a node for the field that has not been removed. -/
def fieldObjects (sc : Scene) (f : FieldId) (o : Fact) : Option (List Fact) := do
  let n ← sc.nodes.findAllocField o.obj f
  let node ← sc.facts.representative n
  pure (sc.facts.contextObjects node o.lo o.hi)

/-- Runs a query that collects its results, and hands these on. -/
def collecting (query : Attempt (State (List Fact)) Bool) :
    Attempt (State σ) (Bool × List Fact) := ExceptT.mk do
  let (q, s) ← get
  let (r, q, found) := query.go (q, [])
  set (q, s)
  pure (r.map fun ok => (ok, found))

/-- Visits what a field of the objects of `ptr` points to, under the
contexts that go through a call edge. Objects without the field are
skipped. -/
def fieldByAnyEdge (sc : Scene) (cs : CallSite) (ptr : NodeId) (f : FieldId) (v : Visitor σ) :
    Attempt (State σ) Bool := do
  let (ok, objs) ← collecting (byAnyEdge sc cs ptr Visitor.collect)
  if ok then
    visiting (v.takeAll (objs.flatMap fun o => (fieldObjects sc f o).getD []))
    pure true
  else pure false

/-- Visits what a field of the given objects points to, up to the first
object without the field. The answer is whether all have it. -/
def fieldOfAll (sc : Scene) (f : FieldId) (v : Visitor σ) : List Fact → Attempt (State σ) Bool
  | [] => pure true
  | o :: os => do
    match fieldObjects sc f o with
    | none => pure false
    | some fs =>
      visiting (v.takeAll fs)
      fieldOfAll sc f v os

/-- Visits what a field of the objects of `ptr` points to under the calling
context of a chain. The query fails at the first object without the field;
what was visited before stays visited. -/
def fieldByChain (sc : Scene) (chain : List CallSite) (ptr : NodeId) (f : FieldId)
    (v : Visitor σ) : Attempt (State σ) Bool := do
  let (ok, objs) ← collecting (byChain sc chain ptr Visitor.collect)
  if ok then fieldOfAll sc f v objs else pure false

end Query

end PointsTo
