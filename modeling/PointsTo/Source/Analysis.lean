import PointsTo.CallGraph.Query
import PointsTo.Source.Lifting
/-!
# Analysis of a source program

The whole way from a source program to answers: the inclusion analysis,
the call graph of the configured construction, its encoding, the facts,
and queries about values by call edge.
-/

namespace PointsTo

namespace Source

/-- Why an analysis came to no result. -/
inductive AnalysisError where
  | invalid (e : InvalidOption)
  | noCalls (e : CallsError)
  | refused (e : BuildError)
  | stopped (f : Fault)
  deriving Repr, Inhabited

/-- The result of an analysis. -/
structure Analysis where
  subject : Subject
  graph : CallGraph
  frozen : Frozen
  stats : Stats
  lifting : Lifting

/-- A step of an analysis. What was logged stays logged when it fails. -/
abbrev Analyzing (α : Type) := ExceptT AnalysisError (StateM Log) α

namespace Analyzing

/-- Runs a step. -/
def go {α : Type} (a : Analyzing α) (log : Log) : Except AnalysisError α × Log :=
  StateT.run (ExceptT.run a) log

/-- Logs a message. -/
def say (msg : String) : Analyzing Unit := modify (·.say .info msg)

/-- A value, or a failure of the analysis. -/
def orFail {ε α : Type} (wrap : ε → AnalysisError) : Except ε α → Analyzing α
  | .ok a => pure a
  | .error e => throw (wrap e)

/-- Runs a step of the builder, which logs for itself. -/
def building {α : Type} (b : Builder) (s : Builder.Step α) : Analyzing (α × Builder) := do
  let (r, b) := s.go { b with log := ← get }
  set b.log
  pure (← orFail .refused r, b)

end Analyzing

namespace Code

open Analyzing

/-- A universe with the given functions as methods. -/
def methodUniverse (c : Code) (fs : List Nat) : Universe :=
  fs.foldl (fun u f => (u.addMethod (c.nameOf f)).2) .empty

/-- The call graph of the configured construction. -/
def configuredCalls (c : Code) (s : Solution) (mode : CallgraphMode) : Analyzing Calls := do
  if mode = .pointer then pure (inclusionCalls s)
  else
    say ("computing " ++ mode.name ++ " call graph")
    orFail .noCalls (c.calls mode)

/-- Grows the call graph of the numbered functions from the entry points,
those of the configuration if it has some. -/
def grow (c : Code) (g : Calls) (n : Numbering) (u : Universe) : Builder.Step Unit := do
  if (← get).config.entryPoints.isEmpty then
    ((g.entries c).filterMap n.method?).forM (Builder.addEntryPoint u)
  else Builder.addConfiguredEntryPoints u
  Builder.build u (n.callSites g)

/-- Analyzes a program as a configuration asks for. The functions that
were analyzed are lifted if their package passes the filter. -/
def analyze (c : Code) (cfg : Config) : Analyzing Analysis := do
  let mode ← orFail .invalid (CallgraphMode.parse cfg.callgraphMode)
  say "running pointer analysis"
  let solution ← orFail .noCalls <|
    match c.solution? with
    | some s => .ok s
    | none => .error .nothingToAnalyze
  let calls ← c.configuredCalls solution mode
  let functions := calls.numbered c
  let sites := (calls.calls.map fun call => (call.caller, call.register)).eraseDups
  let nodes := c.methodUniverse functions
  let types : TypeTable := { declarations := c.declarations }
  let (b, table) := Builder.new cfg (← get) nodes (some (types.hierarchy nodes))
  set b.log
  let (_, b) ← building b (c.grow calls ⟨functions, sites⟩ nodes)
  let (numbering, graph) := Numbering.inOrder ⟨functions, sites⟩ b.graph
  let (r, b, _) := (Builder.freeze nodes).go ({ b with graph }, ({} : Disk))
  set b.log
  let frozen ← orFail .stopped r
  let stats ← orFail .stopped (b.stats frozen)
  let subject : Subject := ⟨c, numbering, solution⟩
  let lifted := if cfg.matchesPackage c.declarations.package then solution.functions else []
  let (r, lifting) := (subject.lift frozen.encoding lifted).go { nodes, types, table }
  orFail .stopped r
  say ("lifted " ++ toString lifting.facts.numFacts ++ " points-to facts")
  pure ⟨subject, b.graph, frozen, stats, lifting⟩

end Code

/-! ## Queries -/

/-- A question about a value of a function under the contexts that go
through a call: the call of that position in the caller, or the one that
enters the callee if no caller is given. -/
structure ValueQuery where
  function : String
  value : String
  caller : Option String
  position : Int
  callee : String
  /-- The field of the objects that is asked for, if it is one. -/
  field : Option String
  deriving Repr, Inhabited

namespace Analysis

/-- The value of that name: a parameter or a register. -/
def valueOf? (f : Function) (name : String) : Option Value :=
  if (f.params.lookup name).isSome then some (.param name)
  else
    ((List.range f.registers.size).find? fun n => (Value.register n).name == name).map .register

/-- What a query names: the function and value, the call, if it is none
that enters, and the callee. -/
def resolve? (a : Analysis) (q : ValueQuery) :
    Option ((Nat × Value) × Option (Nat × Nat) × Nat) := do
  let c := a.subject.code
  let f ← c.function? q.function
  let v ← valueOf? (c.functionD f) q.value
  let callee ← c.function? q.callee
  match q.caller with
  | none => pure ((f, v), none, callee)
  | some caller =>
    let g ← c.function? caller
    if q.position < 0 then none
    else
      let (register, _, _) ← (c.functionD g).calls[q.position.toNat]?
      pure ((f, v), some (g, register), callee)

/-- The call site of a call; there is none if one of the functions has no
number. -/
def callSite? (a : Analysis) (call : Option (Nat × Nat)) (callee : Nat) : Option CallSite := do
  let n := a.subject.numbering
  let callee ← n.method? callee
  match call with
  | none => pure (.entry callee)
  | some (f, register) => pure ⟨← n.method? f, callee, n.site f register⟩

/-- What a query looks at. -/
def scene (a : Analysis) : Query.Scene :=
  ⟨a.graph, a.frozen.encoding, a.lifting.nodes, a.lifting.facts⟩

/-- A querier for the analysis. -/
def querier (a : Analysis) : Querier := Querier.new a.frozen.encoding.graph.size

/-- The search that answers a query; there is none if a function has no
number or the field is unknown. -/
def search? (a : Analysis) (n : NodeId) (cs : CallSite) (field : Option String) :
    Option (Attempt (Query.State (List Fact)) Bool) :=
  match field with
  | none => some (Query.byAnyEdge a.scene cs n Visitor.collect)
  | some name =>
    (a.lifting.nodes.lookupField name).map fun f =>
      Query.fieldByAnyEdge a.scene cs n f Visitor.collect

/-- Answers a query: whether it could be answered, and what was found. A
query about a value, a call or a function that is not there has no
answer. -/
def query (q : ValueQuery) (querier : Querier) (a : Analysis) :
    Option (Except Fault (Bool × List Fact)) × Querier × Analysis :=
  match a.resolve? q with
  | none => (none, querier, a)
  | some ((f, v), call, callee) =>
    let (r, lifting) := (a.subject.variableNode f v).go a.lifting
    let a := { a with lifting }
    match r, a.callSite? call callee with
    | .ok (some n), some cs =>
      match a.search? n cs q.field with
      | some search =>
        let (r, querier, found) := search.go (querier, [])
        (some (r.map (·, found)), querier, a)
      | none => (some (.ok (false, [])), querier, a)
    | _, _ => (some (.ok (false, [])), querier, a)

/-- Answers queries one after the other. -/
def queryFrom : List ValueQuery → Querier → Analysis →
    List (Option (Except Fault (Bool × List Fact)))
  | [], _, _ => []
  | q :: qs, querier, a =>
    let (r, querier, a) := query q querier a
    r :: queryFrom qs querier a

/-- Answers queries with one querier. -/
def queryAll (a : Analysis) (qs : List ValueQuery) :
    List (Option (Except Fault (Bool × List Fact))) :=
  queryFrom qs a.querier a

/-! ## Views -/

/-- The label of an allocation: the name of its site. -/
def label (a : Analysis) (n : NodeId) : String :=
  let nodes := a.lifting.nodes
  ((nodes.node? n).bind fun r => (nodes.node? r.site).map (·.name)).getD ""

/-- Facts with the labels of their objects, by label and then by interval. -/
def labelled (a : Analysis) (fs : List Fact) : List (String × Fact) :=
  (fs.map fun f => (a.label f.obj, f)).mergeSort fun (x, f) (y, g) =>
    x < y || x = y && (f.lo < g.lo || f.lo = g.lo && f.hi ≤ g.hi)

/-- The labels of what a node points to, in increasing order. -/
def labels (a : Analysis) (n : NodeId) : List String :=
  ((a.labelled (a.lifting.facts.factsOf n)).map (·.1)).eraseDups

/-- The nodes of some kind. -/
def nodesThat (a : Analysis) (p : Node → Bool) : List Node :=
  a.lifting.nodes.nodes.toList.filter fun n => n.id != noNode && p n

/-- The name of the type of a node. -/
def typeName (a : Analysis) (n : Node) : String := (a.lifting.nodes.typeD n.type).name

/-- The position in its function of the call of an edge; the edges of entry
points have none. -/
def position? (a : Analysis) (e : Edge) : Option Nat :=
  (a.subject.numbering.call? e.site).map fun (f, register) => a.subject.code.ordinal f register

end Analysis

end Source

end PointsTo
