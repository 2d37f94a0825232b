import PointsTo.CallGraph.Query
import PointsTo.Program.Build
import PointsTo.Workers
/-!
# Queries of a program

The queries of a description are answered one by one, each by a querier
that remembers what the queries before it left behind, or shared out among
several queriers. An answer can be compared with the one that is expected.
-/

namespace PointsTo

/-- The outcome of a query. -/
structure QueryOutcome where
  query : QueryDecl
  ok : Bool := false
  /-- What was found, sorted. -/
  objects : List Fact := []
  /-- Why the query could not be run. -/
  error : Option ProgramError := none
  deriving Repr, Inhabited

namespace Program

/-- What a query looks at. -/
def scene (p : Program) (b : BuiltProgram) : Query.Scene :=
  ⟨b.graph, b.frozen.encoding, p.nodes, b.facts⟩

/-- A visitor that collects the facts whose object is in the mask of a
type, or all of them if there is no type. -/
def collector (p : Program) (t : Option TypeId) : Visitor (Casting × List Fact) := fun f =>
  match t with
  | none => modify fun (c, fs) => (c, fs ++ [f])
  | some t => ExceptT.mk do
    let (c, fs) ← get
    let (r, c) := (Casting.filter p.nodes (some p.hierarchyView) t f).go c
    set (c, fs ++ ((r.toOption.bind id).toList))
    pure (r.map fun _ => ())

/-- How a query goes about: by an edge or by a chain. -/
inductive Approach where
  | edge (cs : CallSite)
  | chain (css : List CallSite)
  deriving Repr, Inhabited

/-- The approach a query asks for. -/
def approach (q : QueryDecl) : Step Approach := do
  match q.edge, q.chain with
  | some e, [] => pure (.edge (← callSite e))
  | none, c :: cs => pure (.chain (← (c :: cs).mapM callSite))
  | _, _ => throw (.ambiguousQuery q.name)

/-- What a query does, once all that it names is found. -/
def task (b : BuiltProgram) (q : QueryDecl) :
    Step (Attempt (Query.State (Casting × List Fact)) Bool) := do
  let ptr ← node q.pointer
  let t ← if q.type = "" then pure none else some <$> type q.type
  let f ←
    if q.field = "" then pure none
    else some <$> orFail (.unknownField q.field) ((← get).nodes.lookupField q.field)
  let how ← approach q
  let p ← get
  let sc := p.scene b
  let v := p.collector t
  pure <|
    match how, f with
    | .edge cs, none => Query.byAnyEdge sc cs ptr v
    | .edge cs, some f => Query.fieldByAnyEdge sc cs ptr f v
    | .chain css, none => Query.byChain sc css ptr v
    | .chain css, some f => Query.fieldByChain sc css ptr f v

/-- The outcome of a query and the querier after it. A query that cannot
be run says why; only a fault ends it for good. Masks that were decided
stay decided. -/
def run (b : BuiltProgram) (q : QueryDecl) (querier : Querier) (p : Program) :
    Except Fault QueryOutcome × Querier × Program :=
  match (task b q).go p with
  | (.error (.stopped f), p) => (.error f, querier, p)
  | (.error e, p) => (.ok { query := q, error := some e }, querier, p)
  | (.ok attempt, p) =>
    let (r, querier, casting, found) := attempt.go (querier, p.casting, [])
    (r.map fun ok => { query := q, ok, objects := Fact.sorted found }, querier,
      { p with casting })

/-- A querier for a built program. -/
def querier (b : BuiltProgram) : Querier := Querier.new b.frozen.encoding.graph.size

/-- Runs all queries with a number of queriers. The outcomes are in the
order of the queries. -/
def runAll (workers : Int) (p : Program) :
    Except ProgramError (List (Except Fault QueryOutcome) × Program) :=
  match p.built with
  | none => .error (.notBuilt p.name)
  | some b =>
    .ok (Workers.map (run b) workers (querier b) p.description.queries p)

/-! ## Checking answers -/

/-- The facts in brackets, by the names of their objects. -/
def objectsText (p : Program) (fs : List Fact) : String :=
  "\x7b" ++ ", ".intercalate (fs.map fun f =>
    p.nodeName f.obj ++ "@[" ++ toString f.lo.toInt ++ "," ++ toString f.hi.toInt ++ ")") ++ "\x7d"

/-- The list without entries that repeat the one before. -/
def dropRepeats : List Fact → List Fact
  | [] => []
  | f :: fs =>
    match dropRepeats fs with
    | [] => [f]
    | g :: gs => if f = g then g :: gs else f :: g :: gs

/-- Why an outcome is not the expected one. -/
inductive Mismatch where
  | notRun (e : ProgramError)
  | answered (query : String) (ok : Bool)
  | unknownObject (query : String) (e : ProgramError)
  | found (query got expected : String)
  deriving DecidableEq, Repr, Inhabited

/-- What is not as expected. -/
def Mismatch.message : Mismatch → String
  | notRun e => e.message
  | answered q ok => "query " ++ q ++ " returned " ++ (if ok then "true" else "false")
  | unknownObject q e => "query " ++ q ++ ": " ++ e.message
  | found q got expected => "query " ++ q ++ ": got " ++ got ++ ", expected " ++ expected

/-- The facts a query expects, as far as their objects are known. -/
def expectedFacts (p : Program) (q : QueryDecl) : Except Mismatch (List Fact) :=
  q.expect.mapM fun e =>
    match p.names.get? e.object with
    | some n => .ok ⟨n, e.lo, e.hi⟩
    | none => .error (.unknownObject q.name (.unknownNode e.object))

/-- Compares an outcome with what its query expects. Facts are compared
as sets. A query that should be answered with no may have found something;
that only counts if the query says what. -/
def check (p : Program) (r : QueryOutcome) : Except Mismatch Unit :=
  match r.error with
  | some e => .error (.notRun e)
  | none =>
    let q := r.query
    if r.ok = q.fails then .error (.answered q.name r.ok)
    else if q.fails ∧ q.expect.isEmpty then .ok ()
    else
      match p.expectedFacts q with
      | .error e => .error e
      | .ok expected =>
        let expected := dropRepeats (Fact.sorted expected)
        let got := dropRepeats r.objects
        if expected = got then .ok ()
        else .error (.found q.name (p.objectsText got) (p.objectsText expected))

end Program

end PointsTo
