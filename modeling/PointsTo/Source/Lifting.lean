import PointsTo.Builder
import PointsTo.Facts
import PointsTo.Source.Calls
import PointsTo.Source.Hierarchy
/-!
# Lifting points-to sets to facts

The objects that the inclusion analysis finds become allocation nodes, and
the values and fields that point to them nodes with facts. The inclusion
analysis does not know contexts: a value points to its objects under all
contexts of its function, and a field under all contexts there are.
-/

namespace PointsTo

namespace Source

/-! ## Methods and call sites -/

/-- The methods and call sites of a source program: functions get the
numbers after the root in the order of this list, and calls the numbers of
call sites in the order of theirs. A call is known by its function and
register. -/
structure Numbering where
  functions : List Nat
  sites : List (Nat × Nat) := []
  deriving Repr, Inhabited

namespace Numbering

/-- The method of a function, if it has a number. -/
def method? (n : Numbering) (f : Nat) : Option MethodId :=
  (n.functions.findIdx? (· == f)).map fun i => Int.ofNat i + 1

/-- The method of a function, or that of none. -/
def methodD (n : Numbering) (f : Nat) : MethodId := (n.method? f).getD noMethod

/-- The function of a method. -/
def function? (n : Numbering) (m : MethodId) : Option Nat :=
  if m ≤ rootMethod then none else n.functions[(m - 1).toNat]?

/-- The number of a call site, or a number that none has. -/
def site (n : Numbering) (f register : Nat) : SiteId :=
  Int.ofNat (n.sites.idxOf (f, register))

/-- The call at a site. -/
def call? (n : Numbering) (s : SiteId) : Option (Nat × Nat) :=
  if s < 0 then none else n.sites[s.toNat]?

/-- The calls that a numbered method makes of other numbered methods. -/
def callSites (n : Numbering) (g : Calls) (m : MethodId) : List CallSite :=
  match n.function? m with
  | none => []
  | some f =>
    (g.callsOf f).filterMap fun c =>
      (n.method? c.callee).map fun callee => ⟨m, callee, n.site f c.register⟩

/-- Numbers the sites of a graph again, in the order of its edges. -/
def inOrder (n : Numbering) (g : CallGraph) : Numbering × CallGraph :=
  let used := (g.edges.toList.map (·.site)).filter (0 ≤ ·) |>.eraseDups
  let renumber (s : SiteId) : SiteId := if s < 0 then s else Int.ofNat (used.idxOf s)
  ({ n with sites := used.filterMap n.call? },
    { g with edges := g.edges.map fun e => { e with site := renumber e.site } })

end Numbering

/-! ## Nodes -/

/-- The nodes and facts that have been lifted. -/
structure Lifting where
  nodes : Universe
  types : TypeTable
  /-- The table that qualifies allocations, if they are. -/
  table : Option HeapTable := none
  valueNodes : Assoc (Nat × Value) NodeId := []
  allocations : Assoc Origin NodeId := []
  facts : FactStore := .empty

/-- What lifting needs to know of the program. -/
structure Subject where
  code : Code
  numbering : Numbering
  solution : Solution

namespace Subject

variable (s : Subject)

/-- The full name of a value of a function. -/
def valueName (f : Nat) (v : Value) : String := s.code.nameOf f ++ "." ++ v.name

/-- The number of a type; values without one have the type of none. -/
def typeNumber (t : Option Ty) : Attempt Lifting TypeId := do
  let l ← get
  match t with
  | none => pure noType
  | some t =>
    let (id, types, nodes) := l.types.number l.nodes t
    set { l with types, nodes }
    pure id

/-- The node of a value, made on its first use. Values of functions
without number have none, and global variables are no values of a
function. -/
def variableNode (f : Nat) (v : Value) : Attempt Lifting (Option NodeId) := do
  match (← get).valueNodes.get? (f, v), s.numbering.method? f, v with
  | some n, _, _ => pure (some n)
  | none, none, _ | none, _, .global _ => pure none
  | none, some m, v =>
    let t ← typeNumber ((s.code.functionD f).typeOf? v)
    let l ← get
    let (n, nodes) := l.nodes.addVariable (s.valueName f v) t m
    set { l with nodes, valueNodes := l.valueNodes.set (f, v) n }
    pure (some n)

/-- The label of an origin. -/
def label : Origin → String
  | .register f n => s.valueName f (.register n)
  | .global g => s.code.declarations.package ++ "." ++ g

/-- The type of the objects of an origin: what the register points to, or
what is in the interface value; a global variable is pointed to. -/
def objectType : Origin → Option Ty
  | .register f n =>
    let fn := s.code.functionD f
    let boxed := fn.instructions.findSome? fun i =>
      match i with
      | .box dst v _ => if dst = n then fn.typeOf? v else none
      | _ => none
    boxed <|> fn.typeOf? (.register n)
  | .global g => (s.code.globals.lookup g).map .pointer

/-- The method that makes the objects of an origin, or that of none. -/
def maker : Origin → MethodId
  | .register f _ => s.numbering.methodD f
  | .global _ => noMethod

/-- The allocation of an origin, made on its first use. -/
def allocation (o : Origin) : Attempt Lifting NodeId := do
  match (← get).allocations.get? o with
  | some n => pure n
  | none =>
    let t ← typeNumber (s.objectType o)
    let l ← get
    let (n, nodes) := l.nodes.addAlloc (s.label o) t (s.maker o)
    set { l with nodes, allocations := l.allocations.set o n }
    pure n

/-- The allocation of an origin as the heap abstraction has it. -/
def heapNode (o : Origin) : Attempt Lifting NodeId := do
  let n ← s.allocation o
  let l ← get
  let (n, table, nodes) ← (heapContext l.table l.nodes n noNode : Except Fault _)
  set { l with table, nodes }
  pure n

/-- The allocations of objects. -/
def heapNodes (os : List Object) : Attempt Lifting (List NodeId) :=
  (os.map (·.origin)).mapM s.heapNode

/-- Records that a node points to allocations under an interval of
contexts. -/
def record (n : NodeId) (os : List NodeId) (l r : Int64) : Attempt Lifting Unit :=
  modify fun s => { s with facts := os.foldl (fun fs o => fs.add n o l r) s.facts }

/-! ## Values and fields -/

/-- The values of a function that are defined or used by an instruction and
have a type. -/
def values (f : Nat) : List Value :=
  let fn := s.code.functionD f
  (fn.instructions.flatMap fun i => i.operands ++ (i.defined.map Value.register).toList).eraseDups
    |>.filter fun v => (fn.typeOf? v).isSome

/-- Lifts what the values of a function point to. -/
def liftValues (enc : Encoding) (f : Nat) : Attempt Lifting Unit :=
  (s.values f).forM fun v => do
    match ← s.variableNode f v with
    | none => pure ()
    | some n =>
      let span := (enc.blockD ((← get).nodes.methodOf n)).span
      if 0 < span then
        record n (← s.heapNodes (s.solution.pointsTo f v)) 1 (Context.satAdd span 1)

/-- Lifts what is stored in the fields that a function takes the address
of. -/
def liftFields (f : Nat) : Attempt Lifting Unit :=
  (s.code.functionD f).instructions.forM fun i => do
    match i with
    | .fieldAddress dst base struct field =>
      let l ← get
      let (id, nodes) := l.nodes.addField (s.code.fieldName struct field)
      set { l with nodes }
      let targets ← s.heapNodes (s.solution.pointsToContent f (.register dst))
      (← s.heapNodes (s.solution.pointsTo f base)).forM fun o => do
        let l ← get
        let (n, nodes) ← (l.nodes.addAllocField o id : Except Fault _)
        set { l with nodes }
        record n targets 1 Context.largest
    | _ => pure ()

/-- Lifts the given functions: first all values, then all fields. -/
def lift (enc : Encoding) (fs : List Nat) : Attempt Lifting Unit := do
  fs.forM (s.liftValues enc)
  fs.forM s.liftFields

end Subject

end Source

end PointsTo
