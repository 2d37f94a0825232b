import PointsTo.CallGraph.Encoding
import PointsTo.Config.Basic
import PointsTo.Disk
import PointsTo.HeapContext
/-!
# Building the call graph

The call graph is grown from the entry points: a resolver gives the calls
of a method, once for each method that becomes reachable. Freezing ends
the construction: the graph is condensed and encoded, and no edge can be
added any more.
-/

namespace PointsTo

/-! ## Statistics -/

/-- The shape of a frozen call graph. -/
structure Stats where
  methods : Nat := 0
  reachable : Nat := 0
  edges : Nat := 0
  /-- The edges inside components. -/
  inComponents : Nat := 0
  unmapped : Nat := 0
  components : Nat := 0
  /-- The components with an edge inside. -/
  cyclic : Nat := 0
  maxRank : Nat := 0
  /-- The largest number of contexts of a method. -/
  maxSpan : Int64 := 0
  /-- The components laid out in more than one block. -/
  blocked : Nat := 0
  deriving DecidableEq, Repr, Inhabited

namespace Stats

/-- The statistics in one line. -/
def text (s : Stats) : String :=
  toString s.methods ++ " methods (" ++ toString s.reachable ++ " reachable), " ++
    toString s.edges ++ " edges (" ++ toString s.inComponents ++ " in cycles, " ++
    toString s.unmapped ++ " unmapped), " ++
    toString s.components ++ " components (" ++ toString s.cyclic ++ " cyclic, " ++
    toString s.blocked ++ " blocked), max rank " ++ toString s.maxRank ++
    ", max span " ++ toString s.maxSpan.toInt

/-- The statistics as a document, one entry a line. -/
def document (s : Stats) : String :=
  let entry (key : String) (value : Int) : String := key ++ ": " ++ toString value ++ "\n"
  entry "methods" s.methods ++ entry "reachable" s.reachable ++ entry "edges" s.edges ++
    entry "scc-edges" s.inComponents ++ entry "unmapped-edges" s.unmapped ++
    entry "components" s.components ++ entry "cyclic-components" s.cyclic ++
    entry "max-rank" s.maxRank ++ entry "max-span" s.maxSpan.toInt ++
    entry "blocked-components" s.blocked

/-- The statistics of an encoded graph. The component of an edge inside
one has to be known to the encoding. -/
def ofGraph (g : CallGraph) (enc : Encoding) (reachable : Nat) : Except Fault Stats :=
  let c := enc.graph
  let inside := g.edges.toList.filter (·.inComponent)
  if inside.any fun e => (c.rep? e.caller).isNone then .error .outOfRange
  else
    let cyclic := inside.map fun e => c.repD e.caller
    let spans := c.order.map fun r => (enc.blockD r).span
    .ok
      { methods := c.size
        reachable
        edges := g.edges.size
        inComponents := inside.length
        unmapped := (g.edges.toList.filter (!·.mapped)).length
        components := c.order.length
        cyclic := (c.order.filter (cyclic.contains ·)).length
        maxRank := (c.order.map c.rankOf).foldl max 0
        maxSpan := spans.foldl (fun m s => if m < s then s else m) 0
        blocked := (c.order.filter fun r => 1 < (enc.blockD r).num).length }

end Stats

/-! ## The heap abstraction -/

/-- How allocations are qualified: the table that is used, if they are,
and the names of the types that should not be qualified but are unknown. -/
structure HeapAbstraction where
  table : Option HeapTable
  unknown : List String

/-- The heap abstraction a configuration asks for. -/
def heapAbstraction (cfg : Config) (u : Universe) (h : Option Hierarchy) : HeapAbstraction :=
  if cfg.objectSensitive then
    { table := some (HeapTable.reset h cfg.objectSensitivity
        (cfg.noContextClasses.filterMap u.lookupType))
      unknown := cfg.noContextClasses.filter fun n => (u.lookupType n).isNone }
  else ⟨none, []⟩

/-- The allocation standing for the objects made at `base` by a method of
the receiver `enclosing`, which is zero if the method has none. Without a
table it is `base` itself. -/
def heapContext (t : Option HeapTable) (u : Universe) (base enclosing : NodeId) :
    Except Fault (NodeId × Option HeapTable × Universe) :=
  match t with
  | none => .ok (base, none, u)
  | some t => do
    let (n, t, u) ←
      if enclosing = noNode then t.internContextless u base else t.intern u base enclosing
    .ok (n, some t, u)

/-! ## The builder -/

/-- A frozen call graph: its encoding, and the methods the root reaches as
the builder counted them. The graph itself stays with the builder. -/
structure Frozen where
  encoding : Encoding
  reachable : List MethodId
  deriving Repr, Inhabited

/-- Why the builder refused something. -/
inductive BuildError where
  /-- The graph is frozen. -/
  | frozen
  /-- An edge was added to a frozen graph. -/
  | frozenEdge (cs : CallSite)
  /-- An edge has an end that is no method. -/
  | unknownMethod (cs : CallSite)
  /-- A configured entry point is no method. -/
  | unknownEntry (name : String)
  /-- The resolver answered with a call of another method. -/
  | wrongCaller (cs : CallSite) (m : MethodId)
  deriving DecidableEq, Repr, Inhabited

namespace BuildError

/-- What the builder says. -/
def message : BuildError → String
  | frozen => "call graph is frozen"
  | frozenEdge cs => "adding " ++ cs.text ++ ": call graph is frozen"
  | unknownMethod cs => "adding " ++ cs.text ++ ": unknown method"
  | unknownEntry name => "entry point " ++ Text.quoted name ++ ": unknown method"
  | wrongCaller cs m => "resolver returned " ++ cs.text ++ " for method " ++ toString m

end BuildError

/-- A call graph under construction. -/
structure Builder where
  config : Config
  log : Log
  graph : CallGraph
  /-- The methods that are reachable so far, in the order they became so. -/
  reachable : List MethodId := [rootMethod]
  /-- The reachable methods whose calls are not resolved yet, last first. -/
  pending : List MethodId := []
  result : Option Frozen := none

namespace Builder

/-- A step of the construction. When it fails, what it did before stays
done. -/
abbrev Step (α : Type) := ExceptT BuildError (StateM Builder) α

/-- Runs a step. -/
def Step.go {α : Type} (s : Step α) (b : Builder) : Except BuildError α × Builder :=
  StateT.run (ExceptT.run s) b

/-- A builder for the methods of a universe, and its heap abstraction. -/
def new (cfg : Config) (log : Log) (u : Universe) (h : Option Hierarchy) :
    Builder × Option HeapTable :=
  let heap := heapAbstraction cfg u h
  let log := heap.unknown.foldl (fun log name =>
    log.say .warn ("no-context class " ++ Text.quoted name ++ " is not a known type")) log
  let log :=
    if heap.table.isSome then
      log.say .info ("object-sensitive heap, k=" ++ toString cfg.objectSensitivity)
    else log.say .debug "context-insensitive heap"
  ({ config := cfg, log, graph := CallGraph.ofSize u.numMethods }, heap.table)

/-- Writes a message. -/
def say (b : Builder) (s : Severity) (msg : String) : Builder := { b with log := b.log.say s msg }

/-- Notes that a method is reachable. -/
def reach (b : Builder) (m : MethodId) : Builder :=
  if m ∈ b.reachable then b
  else { b with reachable := b.reachable ++ [m], pending := m :: b.pending }

/-- Adds a call edge unless it is there, and says whether it was new. The
callee becomes reachable. -/
def addEdge (u : Universe) (cs : CallSite) : Step Bool := do
  let b ← get
  if b.result.isSome then throw (.frozenEdge cs)
  if !u.hasMethod cs.caller || !u.hasMethod cs.callee then throw (.unknownMethod cs)
  match (CallGraph.addEdge cs).go b.graph with
  | (.ok true, g) =>
    let b := { b with graph := g }
    let b := b.say .trace
      ("edge " ++ u.methodName cs.caller ++ " -> " ++ u.methodName cs.callee)
    set (b.reach cs.callee)
    pure true
  | _ => pure false

/-- Adds the edge from the root to an entry point. -/
def addEntryPoint (u : Universe) (m : MethodId) : Step Unit := do
  let _ ← addEdge u (.entry m)

/-- Adds the named entry points one after the other. -/
def addEntryPoints (u : Universe) : List String → Step Unit
  | [] => pure ()
  | name :: names => do
    match u.lookupMethod name with
    | none => throw (.unknownEntry name)
    | some m =>
      addEntryPoint u m
      addEntryPoints u names

/-- Adds the entry points of the configuration. -/
def addConfiguredEntryPoints (u : Universe) : Step Unit := do
  addEntryPoints u (← get).config.entryPoints

/-- Adds the calls a resolver gave for a method. -/
def addCalls (u : Universe) (m : MethodId) : List CallSite → Step Unit
  | [] => pure ()
  | cs :: rest => do
    if cs.caller ≠ m then throw (.wrongCaller cs m)
    let _ ← addEdge u cs
    addCalls u m rest

/-- A step of the construction that consults someone, who may do something
besides. What was done before it failed stays done here as well. -/
abbrev Consulting (μ : Type → Type) (α : Type) := ExceptT BuildError (StateT Builder μ) α

/-- Runs a step that consults someone. -/
def Consulting.go {μ : Type → Type} {α : Type} (s : Consulting μ α) (b : Builder) :
    μ (Except BuildError α × Builder) :=
  StateT.run (ExceptT.run s) b

/-- A step that consults nobody. -/
def Step.alone {μ : Type → Type} [Monad μ] {α : Type} (s : Step α) : Consulting μ α :=
  ExceptT.mk fun b => pure (s.go b)

/-- Resolves the calls of pending methods, `fuel` of them at most, and
counts them. The resolver is asked for the calls of one method after the
other. -/
def resolvePending {μ : Type → Type} [Monad μ] (u : Universe)
    (calls : MethodId → μ (List CallSite)) : Nat → Nat → Consulting μ Nat
  | 0, resolved => pure resolved
  | fuel + 1, resolved => do
    let b ← get
    match b.pending with
    | [] => pure resolved
    | m :: pending =>
      set { b with pending }
      let sites ← calls m
      (addCalls u m sites).alone
      resolvePending u calls fuel (resolved + 1)

/-- Resolves the calls of every method that became reachable, until no new
method is reached. Every method becomes reachable once, which bounds the
number of methods to resolve. -/
def buildWith {μ : Type → Type} [Monad μ] (u : Universe) (calls : MethodId → μ (List CallSite)) :
    Consulting μ Unit := do
  let b ← get
  if b.result.isSome then throw .frozen
  if b.reachable.length = 1 ∧ b.pending.isEmpty then
    set (b.say .warn "no entry point: only the root method is reachable")
  let resolved ← resolvePending u calls (b.pending.length + u.numMethods + 1) 0
  modify fun b => b.say .debug
    ("resolved the callees of " ++ toString resolved ++ " methods, " ++
      toString b.graph.edges.size ++ " edges")

/-- Builds with a resolver that knows the calls of every method. -/
def build (u : Universe) (calls : MethodId → List CallSite) : Step Unit :=
  @buildWith Id _ u calls

/-- The reachable methods, in increasing order. -/
def reachables (b : Builder) : List MethodId :=
  b.reachable.mergeSort fun x y => decide (x ≤ y)

/-- The statistics of the frozen graph. -/
def stats (b : Builder) (r : Frozen) : Except Fault Stats :=
  Stats.ofGraph b.graph r.encoding r.reachable.length

/-- Writes the statistics into a new file of the reports directory. -/
def report (b : Builder) (disk : Disk) (s : Stats) : Builder × Disk :=
  let dir := b.config.reportsDir
  let name (n : Nat) : String :=
    dir ++ (if dir.endsWith "/" then "" else "/") ++ "callgraph-stats-" ++ toString n ++ ".yaml"
  let path := disk.freeName name
  match disk.write path s.document with
  | .ok disk => (b.say .info ("call graph statistics written in " ++ path), disk)
  | .error e => (b.say .error ("could not write statistics: " ++ e.message), disk)

/-- Ends the construction: the graph is condensed and encoded. A second
call changes nothing. -/
def freeze (u : Universe) : Attempt (Builder × Disk) Frozen := do
  let (b, disk) ← get
  match b.result with
  | some r => pure r
  | none =>
    let b :=
      if b.pending.isEmpty then b
      else b.say .warn ("freezing with " ++ toString b.pending.length ++
        " methods whose callees have not been resolved")
    let b := { b with graph := b.graph.ensure (u.numMethods - 1) }
    set (b, disk)
    let (g, c) ← (b.graph.condense b.graph.representatives : Except Fault (CallGraph × Condensation))
    let (g, enc) := g.encode c b.config.maxContextSpan
    let r : Frozen := ⟨enc, b.reachables⟩
    let b := { b with graph := g, result := some r }
    set (b, disk)
    let s ← (b.stats r : Except Fault Stats)
    let b := b.say .info ("call graph: " ++ s.text)
    set (if b.config.reportStats ∧ b.config.reportsDir ≠ "" then b.report disk s else (b, disk))
    pure r

end Builder

end PointsTo
