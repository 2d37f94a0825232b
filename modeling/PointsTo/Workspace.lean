import PointsTo.Builder
import PointsTo.CallGraph.Query
import PointsTo.Casting.ClassMasks
/-!
# The workspace

A workspace holds one of everything an analysis is made of — nodes, a
class hierarchy, facts, a call graph, its encoding, queriers, a builder —
and lets them be used side by side. Call graphs, tables and encodings are
kept in numbered places, since several parts can use the same one: a
querier sees what is later changed in the encoding it was made for, and a
builder grows the graph that can also be grown directly.
-/

namespace PointsTo

/-- A table of qualified allocations, and whether it knows the hierarchy. -/
structure TablePlace where
  knowsHierarchy : Bool := true
  table : HeapTable := {}

/-- An encoding and the number of the graph it encodes. -/
structure EncodingPlace where
  graph : Nat
  encoding : Encoding

/-- A querier and the number of the encoding it uses. -/
structure QuerierPlace where
  encoding : Nat
  querier : Querier

/-- A builder, the graph it grows, and the table it qualifies with. -/
structure BuilderPlace where
  builder : Builder
  graph : Nat
  table : Option Nat
  /-- The encoding it was frozen with. -/
  frozen : Option Nat := none

/-- A frozen result: the graph, its encoding, and the reachable methods. -/
structure ResultPlace where
  graph : Nat
  encoding : Nat
  reachable : List MethodId

/-- One of everything an analysis is made of. -/
structure Workspace where
  nodes : Universe := {}
  hierarchy : ClassHierarchy := {}
  /-- Whether casts are decided with the hierarchy. -/
  typed : Bool := true
  casting : Casting := {}
  facts : FactStore := {}
  collected : List Fact := []
  graphs : Array CallGraph := #[CallGraph.ofSize 1]
  graph : Nat := 0
  tables : Array TablePlace := #[{}]
  table : Nat := 0
  /-- The condensation at hand and the graph it condenses. -/
  condensed : Option (Nat × Condensation) := none
  encodings : Array EncodingPlace := #[]
  encoding : Option Nat := none
  queriers : Array QuerierPlace := #[]
  builder : Option BuilderPlace := none
  result : Option ResultPlace := none
  log : String := ""

namespace Workspace

/-- The workspace at the start. -/
def empty : Workspace := {}

/-- A step in a workspace. -/
abbrev Step (α : Type) := Attempt Workspace α

/-- Lifts a result that may be a fault. -/
def lift {α : Type} (r : Except Fault α) : Step α := r

/-- The thing, or the fault that it has not been made. -/
def present {α : Type} (o : Option α) : Step α :=
  match o with
  | some a => pure a
  | none => throw .absent

/-! ## Parts -/

/-- Changes the nodes. -/
def onNodes {α : Type} (f : Universe → α × Universe) : Step α := do
  let w ← get
  let (a, nodes) := f w.nodes
  set { w with nodes }
  pure a

/-- Changes the nodes unless that is a fault. -/
def tryNodes {α : Type} (f : Universe → Except Fault (α × Universe)) : Step α := do
  let w ← get
  let (a, nodes) ← lift (f w.nodes)
  set { w with nodes }
  pure a

/-- The hierarchy over the types as they are. -/
def hierarchyView (w : Workspace) : Hierarchy := w.hierarchy.view w.nodes

/-- The hierarchy casts are decided with. -/
def castHierarchy (w : Workspace) : Option Hierarchy :=
  if w.typed then some w.hierarchyView else none

/-- Decides casts and masks. -/
def onCasting {α : Type} (f : Universe → Option Hierarchy → Attempt Casting α) : Step α :=
  ExceptT.mk do
    let w ← get
    let (r, casting) := (f w.nodes w.castHierarchy).go w.casting
    set { w with casting }
    pure r

/-- Casts are decided with the hierarchy, or without one, from scratch. -/
def setTyped (typed : Bool) : Step Unit := modify ({ · with typed, casting := {} })

/-- The facts that pass the mask of a type. -/
def filterFacts (t : TypeId) : List Fact → Step (List Fact)
  | [] => pure []
  | f :: fs => do
    let kept ← onCasting fun u h => Casting.filter u h t f
    pure (kept.toList ++ (← filterFacts t fs))

/-! ## Tables -/

/-- The table at hand. -/
def tablePlace (w : Workspace) : TablePlace := w.tables.getD w.table {}

/-- The hierarchy a table knows. -/
def tableHierarchy (w : Workspace) (p : TablePlace) : Option Hierarchy :=
  if p.knowsHierarchy then some w.hierarchyView else none

/-- Puts a table in a new place and takes it at hand. -/
def pushTable (p : TablePlace) : Step Unit :=
  modify fun w => { w with tables := w.tables.push p, table := w.tables.size }

/-- Replaces the table at hand. -/
def setTable (t : HeapTable) : Step Unit :=
  modify fun w => { w with tables := w.tables.modify w.table ({ · with table := t }) }

/-- Starts the table at hand over. -/
def resetTable (k : Int) (types : List TypeId) : Step Unit := do
  let w ← get
  setTable (HeapTable.reset (w.tableHierarchy w.tablePlace) k types)

/-- Qualifies an allocation with the table at hand. -/
def intern (f : HeapTable → Universe → Except Fault (NodeId × HeapTable × Universe)) :
    Step NodeId := do
  let w ← get
  let (n, t, nodes) ← lift (f w.tablePlace.table w.nodes)
  modify ({ · with nodes })
  setTable t
  pure n

/-- Sets up the table at hand as a configuration asks. The result tells
whether allocations are qualified, and the unknown names. -/
def configureTable (cfg : Option Config) : Step (Bool × List String) := do
  match cfg with
  | none => pure (false, [])
  | some cfg =>
    let w ← get
    let heap := heapAbstraction cfg w.nodes (w.tableHierarchy w.tablePlace)
    match heap.table with
    | none => pure (false, heap.unknown)
    | some t =>
      setTable t
      pure (true, heap.unknown)

/-! ## Graphs and encodings -/

/-- The call graph in a place. -/
def graphAt (w : Workspace) (i : Nat) : CallGraph := w.graphs.getD i {}

/-- The call graph at hand. -/
def current (w : Workspace) : CallGraph := w.graphAt w.graph

/-- Replaces the call graph in a place. -/
def setGraph (i : Nat) (g : CallGraph) : Step Unit :=
  modify fun w => { w with graphs := w.graphs.modify i fun _ => g }

/-- Puts a call graph in a new place and takes it at hand. -/
def pushGraph (g : CallGraph) : Step Unit :=
  modify fun w => { w with graphs := w.graphs.push g, graph := w.graphs.size }

/-- Changes the call graph at hand. -/
def onGraph {α : Type} (a : Attempt CallGraph α) : Step α := ExceptT.mk do
  let w ← get
  let (r, g) := a.go w.current
  set { w with graphs := w.graphs.modify w.graph fun _ => g }
  pure r

/-- Adds edges one after the other and counts the new ones. -/
def addEdges : List CallSite → Step Nat
  | [] => pure 0
  | cs :: rest => do
    let new ← onGraph (CallGraph.addEdge cs)
    pure ((← addEdges rest) + if new then 1 else 0)

/-- Condenses the call graph at hand. -/
def condense (reps : Option (List MethodId)) : Step Condensation := do
  let w ← get
  let g := w.current
  let (g, c) ← lift (g.condense (reps.getD g.representatives))
  setGraph w.graph g
  modify ({ · with condensed := some (w.graph, c) })
  pure c

/-- Puts an encoding in a new place and takes it at hand. -/
def pushEncoding (p : EncodingPlace) : Step Nat := do
  let w ← get
  set { w with encodings := w.encodings.push p, encoding := some w.encodings.size }
  pure w.encodings.size

/-- Encodes the condensation at hand. -/
def encode (maxSpan : Int64) : Step Unit := do
  let w ← get
  let (i, c) ← present w.condensed
  let (g, enc) := (w.graphAt i).encode c maxSpan
  setGraph i g
  let _ ← pushEncoding ⟨i, enc⟩

/-- Gives every method of the condensation at hand one context. -/
def encodeTrivially : Step Unit := do
  let (i, c) ← present (← get).condensed
  let _ ← pushEncoding ⟨i, Encoding.trivial c⟩

/-- The encoding at hand, its number, and its graph. -/
def currentEncoding : Step (Nat × EncodingPlace) := do
  let w ← get
  let i ← present w.encoding
  pure (i, ← present w.encodings[i]?)

/-- Sets the layout of a method in the encoding at hand, and gives its
number of contexts. -/
def setBlock (m : MethodId) (b : Block) : Step Int64 := do
  let (i, p) ← currentEncoding
  let enc ← lift (p.encoding.setBlock m b)
  modify fun w => { w with encodings := w.encodings.modify i ({ · with encoding := enc }) }
  pure b.span

/-- Sets the offset of an edge, and tells whether there is one. -/
def setOffset (cs : CallSite) (offset : Int64) : Step Bool := do
  let w ← get
  match w.current.position? cs with
  | none => pure false
  | some i =>
    setGraph w.graph (w.current.modifyEdge i ({ · with offset }))
    pure true

/-- The context an edge leads to, if the edge is known. -/
def mapThrough (cs : CallSite) (x : Int64) : Step (Option Int64) := do
  let w ← get
  match w.current.edge? cs with
  | none => pure none
  | some e =>
    let (_, p) ← currentEncoding
    some <$> lift (p.encoding.mapThrough e x)

/-- The context a chain of edges leads to. No encoding is needed to see that
the first edge leads nowhere. -/
def compose (chain : List CallSite) : Step (Option Int64) := do
  let edges := chain.map (← get).current.edge?
  if (edges.head?.bind id).any (·.mapped) then
    let (_, p) ← currentEncoding
    lift (p.encoding.compose edges)
  else pure none

/-! ## Queries -/

/-- Makes a querier for an encoding and gives its number. -/
def pushQuerier (encoding : Nat) : Step Nat := do
  let w ← get
  let p ← present w.encodings[encoding]?
  set { w with queriers := w.queriers.push ⟨encoding, Querier.new p.encoding.graph.size⟩ }
  pure w.queriers.size

/-- Makes a querier for the encoding at hand. -/
def addQuerier : Step Nat := do pushQuerier (← currentEncoding).1

/-- The querier of that number. -/
def querierAt (q : Int) : Step QuerierPlace := do
  match slot? (← get).queriers q with
  | some p => pure p
  | none => throw .outOfRange

/-- Makes another querier for the encoding of a querier. -/
def fork (q : Int) : Step Nat := do pushQuerier (← querierAt q).encoding

/-- A visitor that collects the facts passing the mask of a type; zero lets
everything pass. -/
def visitor (u : Universe) (h : Option Hierarchy) (t : TypeId) :
    Visitor (Casting × List Fact) := fun f => ExceptT.mk do
  let (c, found) ← get
  if t = noType then
    set (c, found ++ [f])
    pure (.ok ())
  else
    let (r, c) := (Casting.filter u h t f).go c
    match r with
    | .ok kept =>
      set (c, found ++ kept.toList)
      pure (.ok ())
    | .error e =>
      set (c, found)
      pure (.error e)

/-- Runs a query with a querier, letting through what passes the mask of a
type. The result is the answer and the facts, in the order they came. -/
def runQuery (q : Int) (t : TypeId)
    (query : Query.Scene → Visitor (Casting × List Fact) →
      Attempt (Query.State (Casting × List Fact)) Bool) : Step (Bool × List Fact) := do
  let w ← get
  let place ← querierAt q
  let p ← present w.encodings[place.encoding]?
  let scene : Query.Scene := ⟨w.graphAt p.graph, p.encoding, w.nodes, w.facts⟩
  let (r, querier, casting, found) :=
    (query scene (visitor w.nodes w.castHierarchy t)).go (place.querier, w.casting, [])
  set { w with
    casting
    queriers := w.queriers.modify q.toNat ({ · with querier }) }
  pure (← lift r, found)

/-! ## The builder -/

/-- Starts a builder. Its graph, and its table if it has one, are taken at
hand. The result tells whether allocations are qualified. -/
def startBuilder (cfg : Config) (log : Log) (knowsHierarchy : Bool) : Step Bool := do
  let w ← get
  let h := if knowsHierarchy then some w.hierarchyView else none
  let (b, table) := Builder.new cfg log w.nodes h
  pushGraph b.graph
  match table with
  | none => pure ()
  | some table => pushTable { knowsHierarchy, table }
  modify fun w =>
    { w with
      log := w.log ++ b.log.buffer
      builder := some
        { builder := { b with log := { b.log with buffer := "" } }
          graph := w.graph
          table := table.map fun _ => w.table } }
  pure table.isSome

/-- The builder, with its graph as it is. -/
def takeBuilder : Step BuilderPlace := do
  let w ← get
  let p ← present w.builder
  pure { p with builder := { p.builder with graph := w.graphAt p.graph } }

/-- Puts the builder back, with its graph and what it logged. -/
def putBuilder (p : BuilderPlace) (b : Builder) : Step Unit :=
  modify fun w =>
    { w with
      log := w.log ++ b.log.buffer
      graphs := w.graphs.modify p.graph fun _ => b.graph
      builder := some { p with builder := { b with log := { b.log with buffer := "" } } } }

/-- Runs a step of the builder. -/
def onBuilder {α : Type} (f : Universe → Builder.Step α) : Step (Except BuildError α) := do
  let p ← takeBuilder
  let (r, b) := (f (← get).nodes).go p.builder
  putBuilder p b
  pure r

/-- The allocation the builder's heap abstraction gives. -/
def builderHeapContext (base enclosing : NodeId) : Step NodeId := do
  let w ← get
  let p ← present w.builder
  let table := (p.table.bind fun i => w.tables[i]?).map (·.table)
  let (n, table, nodes) ← lift (heapContext table w.nodes base enclosing)
  modify fun w =>
    { w with
      nodes
      tables :=
        match p.table, table with
        | some i, some table => w.tables.modify i ({ · with table })
        | _, _ => w.tables }
  pure n

/-- Freezes the builder, whose graph, condensation and encoding are taken
at hand. The result tells whether it was frozen before. -/
def freeze : Step Bool := do
  let p ← takeBuilder
  let (r, b, _) := ((Builder.freeze (← get).nodes).go (p.builder, ({} : Disk)) :
    Except Fault Frozen × Builder × Disk)
  putBuilder p b
  let frozen ← lift r
  let (again, i) ← match p.frozen with
    | some i => pure (true, i)
    | none => pure (false, ← pushEncoding ⟨p.graph, frozen.encoding⟩)
  modify fun w =>
    { w with
      builder := w.builder.map ({ · with frozen := some i })
      graph := p.graph
      condensed := some (p.graph, frozen.encoding.graph)
      encoding := some i
      result := some ⟨p.graph, i, frozen.reachable⟩ }
  pure again

/-- The statistics of the result. -/
def stats : Step Stats := do
  let w ← get
  let r ← present w.result
  let p ← present w.encodings[r.encoding]?
  lift (Stats.ofGraph (w.graphAt r.graph) p.encoding r.reachable.length)

/-- The methods reachable in the result. -/
def resultReachable : Step (List MethodId) := do pure (← present (← get).result).reachable

/-- Makes a querier for the result. -/
def addResultQuerier : Step Nat := do pushQuerier (← present (← get).result).encoding

/-- What has been logged since the last time. -/
def takeLog : Step String := do
  let w ← get
  set { w with log := "" }
  pure w.log

end Workspace

end PointsTo
