import PointsTo.Config.Mode
import PointsTo.Source.Flow
import PointsTo.Universe.Basic
/-!
# Call graphs of source programs

Five ways to find the callees of the dynamic calls of a program. They
differ in the structs that a dynamic call is taken to go to: those the
inclusion analysis finds, none, all that implement the interface, those
among them that reachable code makes, and those that flow to the call.
-/

namespace PointsTo

namespace Source

/-! ## Graphs -/

/-- Where a call graph starts. -/
inductive CallRoot where
  /-- Nowhere: the graph is one of all functions. -/
  | absent
  /-- At a node of its own, which calls the functions a run starts with. -/
  | apart
  /-- At one of the functions. -/
  | function (f : Nat)
  deriving DecidableEq, Repr, Inhabited

/-- The calls of a program. -/
structure Calls where
  functions : List Nat
  calls : List Call
  root : CallRoot
  deriving Repr, Inhabited

/-- Why there is no call graph. -/
inductive CallsError where
  /-- The inclusion analysis found no main function. -/
  | nothingToAnalyze
  /-- There is no main function to start from. -/
  | noMainPackage
  /-- There is no construction of that number. -/
  | unsupported (n : Nat)
  deriving DecidableEq, Repr, Inhabited

namespace CallsError

/-- What is wrong. -/
def message : CallsError → String
  | nothingToAnalyze =>
    "pointer analysis failed: no main/test packages to analyze (check $GOROOT/$GOPATH)"
  | noMainPackage => "rapid type analysis needs a main package"
  | unsupported n => "unsupported callgraph analysis mode " ++ CallgraphMode.numberText n

end CallsError

namespace Code

/-! ## Calls by the structs that receive them -/

/-- The calls of a function, if a dynamic call goes to the given structs. -/
def callsTo (c : Code) (receivers : (receiver : Value) → (interface : Nat) → List Nat)
    (f : Nat) : List Call :=
  (c.functionD f).calls.flatMap fun (register, callee, _) =>
    match callee with
    | .static g => [⟨f, register, g⟩]
    | .dynamic v interface m =>
      ((receivers v interface).filterMap (c.methodOf? · m)).map (⟨f, register, ·⟩)

/-- The graph of all functions in use, with the given calls. -/
def graphOfAll (c : Code) (calls : Nat → List Call) : Calls :=
  ⟨c.inUse, c.inUse.flatMap calls, .absent⟩

/-- The graph of all functions with the calls that name their callee. -/
def staticCalls (c : Code) : Calls := c.graphOfAll (c.callsTo fun _ _ => [])

/-- The calls of a function if a dynamic call goes to all implementations
that are in use. -/
def possibleCalls (c : Code) (f : Nat) : List Call :=
  (c.callsTo (fun _ i => c.implementers i) f).filter fun call => c.inUse.contains call.callee

/-- The graph of all functions with the calls of all implementations. -/
def hierarchyCalls (c : Code) : Calls := c.graphOfAll c.possibleCalls

/-- The graph the inclusion analysis found. -/
def inclusionCalls (s : Solution) : Calls := ⟨s.functions, s.calls, .apart⟩

/-! ## Types that flow to a call -/

/-- The graph of all functions where a dynamic call goes to the structs
that flow to its receiver. They flow along the calls of all
implementations, and only those are called. -/
def flowCalls (c : Code) : Calls :=
  let possible := c.inUse.flatMap c.possibleCalls
  let callees (f register : Nat) : List Nat :=
    (possible.filter fun call => call.caller == f && call.register == register).map (·.callee)
  let ways := (c.inUse.flatMap fun f =>
    (c.functionD f).instructions.flatMap (c.ways (callees f) f)).eraseDups
  let flows := c.inUse.flatMap fun f =>
    (c.boxes f).map fun (register, struct) => (struct, flow ways (.value f (.register register)))
  let receivers (f : Nat) (v : Value) (i : Nat) : List Nat :=
    (c.implementers i).filter fun s =>
      flows.any fun (t, reached) => t == s && reached.contains (.value f v)
  c.graphOfAll fun f => (c.callsTo (receivers f) f).filter (possible.contains ·)

/-! ## Types that reachable code makes -/

/-- The exported methods of the structs that can be found from values of
the given structs. -/
def foundMethods (c : Code) (structs : List Nat) : List Nat :=
  (c.foundStructs true structs).flatMap fun s =>
    (c.methodsOf s).filter fun m => (c.functionD m).method.any fun (_, name) => isExported name

/-- The calls of reachable functions, where a dynamic call goes to the
structs that those functions make interface values of. -/
def callsAmong (c : Code) (reached : List Nat) : List Call :=
  let structs := c.foundStructs true (reached.flatMap c.boxedStructs)
  reached.flatMap (c.callsTo fun _ i => (c.implementers i).filter (structs.contains ·))

/-- Adds what becomes reachable with functions: their callees, and all
exported methods of the structs that can be found from their interface
values. -/
def reachMore (c : Code) (reached : List Nat) : List Nat :=
  (reached ++ (c.callsAmong reached).map (·.callee) ++
    c.foundMethods (reached.flatMap c.boxedStructs)).eraseDups

/-- The graph of the calls of reachable functions. Functions that neither
call nor are called are not in it, the root apart. Each round reaches a new
function or is the last. -/
def runtimeCalls (c : Code) : Except CallsError Calls :=
  match c.roots with
  | [] => .error .noMainPackage
  | roots =>
    let reached := c.positions.foldl (fun reached _ => c.reachMore reached) roots
    let calls := c.callsAmong reached
    let ends := calls.flatMap fun call => [call.caller, call.callee]
    .ok ⟨(c.initFunction :: ends).eraseDups, calls, .function c.initFunction⟩

/-! ## Construction -/

/-- The call graph by one of the constructions. -/
def calls (c : Code) : CallgraphMode → Except CallsError Calls
  | .pointer =>
    match c.solution? with
    | some s => .ok (inclusionCalls s)
    | none => .error .nothingToAnalyze
  | .static => .ok c.staticCalls
  | .cha => .ok c.hierarchyCalls
  | .rta => c.runtimeCalls
  | .vta => .ok c.flowCalls

/-- The call graph by the construction of that number. -/
def callsByNumber (c : Code) (n : Nat) : Except CallsError Calls :=
  match CallgraphMode.ofNumber? n with
  | some m => c.calls m
  | none => .error (.unsupported n)

/-- The position of a call among the calls of its function. -/
def ordinal (c : Code) (f register : Nat) : Nat :=
  ((c.functionD f).calls.findIdx? (·.1 == register)).getD 0

/-- The full name of a function. -/
def nameOf (c : Code) (f : Nat) : String := (c.functionD f).name

end Code

namespace Calls

/-- The functions that get numbers as methods, by name. A function that is
the root gets none. -/
def numbered (g : Calls) (c : Code) : List Nat :=
  (g.functions.filter fun f => g.root ≠ .function f).mergeSort
    fun a b => !(c.nameOf b < c.nameOf a)

/-- The functions the graph is entered at, if no entry points are given. -/
def entries (g : Calls) (c : Code) : List Nat := c.roots.filter ((g.numbered c).contains ·)

/-- The calls of a function in the order of its instructions. -/
def callsOf (g : Calls) (f : Nat) : List Call :=
  (g.calls.filter (·.caller == f)).mergeSort fun a b => decide (a.register ≤ b.register)

/-- The names of the nodes of the graph. -/
def nodeNames (g : Calls) (c : Code) : List String :=
  (if g.root = .apart then [rootMethodName] else []) ++ g.functions.map c.nameOf

/-- The calls by the names of their ends and their position in the caller;
the root calls from no position. -/
def edgeNames (g : Calls) (c : Code) : List (String × String × Int) :=
  (if g.root = .apart then c.roots.map fun f => (rootMethodName, c.nameOf f, -1) else []) ++
    (g.calls.map fun call =>
      (c.nameOf call.caller, c.nameOf call.callee,
        (c.ordinal call.caller call.register : Int))).eraseDups

end Calls

end Source

end PointsTo
