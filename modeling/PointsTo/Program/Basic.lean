import PointsTo.Builder
import PointsTo.Casting
import PointsTo.Program.Description
/-!
# Programs

A program in memory: the universe of its methods, types and nodes, its
class hierarchy, and the names by which nodes are known. Reading a
description declares all that does not depend on a configuration; the rest
is done when the program is built.
-/

namespace PointsTo

/-- Why a description could not be used. -/
inductive ProgramError where
  | unreadable (e : PathError)
  /-- The text is no document, or not one of a program. -/
  | malformed (file : String)
  | unknownInterface (name cls : String)
  | unknownSuperclass (name cls : String)
  | unknownRoot (name : String)
  | unknownMethod (name : String)
  | unknownNode (name : String)
  | unknownType (name : String)
  | unknownField (name : String)
  | classWithoutName
  | reservedMethod (name : String)
  | nodeWithoutName
  | declaredTwice (name : String)
  | alreadyBuilt (program : String)
  | notBuilt (program : String)
  | emptyBlock (method : String)
  | offsetOfNoEdge (cs : CallSite)
  | fieldOfNoAlloc (field node : String)
  | pointsToNoAlloc (pointer object : String)
  | ambiguousQuery (name : String)
  | refused (e : BuildError)
  | stopped (f : Fault)
  /-- An error in a file. -/
  | inFile (file : String) (e : ProgramError)
  | atEntryPoint (e : ProgramError)
  | whileBuilding (program : String) (e : ProgramError)
  deriving DecidableEq, Repr, Inhabited

namespace ProgramError

/-- What is wrong, where a name is unknown. -/
def unknown (what name : String) : String := what ++ " " ++ Text.quoted name ++ ": unknown name"

/-- What is wrong, where a description is invalid. -/
def invalid (what : String) : String := "invalid fact file: " ++ what

/-- What is wrong. -/
def message : ProgramError → String
  | unreadable e => "could not read fact file: " ++ e.message
  | malformed file => "could not unmarshal fact file " ++ file ++ ": yaml: malformed document"
  | unknownInterface name cls =>
    "interface " ++ Text.quoted name ++ " of " ++ cls ++ ": unknown name"
  | unknownSuperclass name cls =>
    "superclass " ++ Text.quoted name ++ " of " ++ cls ++ ": unknown name"
  | unknownRoot name => unknown "root class" name
  | unknownMethod name => unknown "method" name
  | unknownNode name => unknown "node" name
  | unknownType name => unknown "type" name
  | unknownField name => unknown "field" name
  | classWithoutName => invalid "class without name"
  | reservedMethod name => invalid (name ++ " is reserved")
  | nodeWithoutName => invalid "node without name"
  | declaredTwice name => invalid ("node " ++ Text.quoted name ++ " declared twice")
  | alreadyBuilt p => invalid ("program " ++ p ++ " already built")
  | notBuilt p => invalid ("program " ++ p ++ " must be built before running queries")
  | emptyBlock m => invalid ("block of " ++ m ++ " must be positive")
  | offsetOfNoEdge cs =>
    invalid ("offset of edge " ++ cs.text ++ " which is not in the call graph")
  | fieldOfNoAlloc f n => invalid ("field " ++ f ++ " of " ++ n ++ ", which is not an allocation")
  | pointsToNoAlloc p o => invalid (p ++ " points to " ++ o ++ ", which is not an allocation")
  | ambiguousQuery name => invalid ("query " ++ name ++ " needs exactly one of edge and chain")
  | refused e => e.message
  | stopped f => f.message.getD ""
  | inFile file e => "in fact file " ++ file ++ ": " ++ e.message
  | atEntryPoint e => "entry point: " ++ e.message
  | whileBuilding p e => "building call graph of " ++ p ++ ": " ++ e.message

/-- The error below the places it was met at. -/
def cause : ProgramError → ProgramError
  | inFile _ e | atEntryPoint e | whileBuilding _ e => e.cause
  | e => e

/-- Whether the cause is a name that nothing has. -/
def isUnknownName (e : ProgramError) : Bool :=
  match e.cause with
  | unknownInterface .. | unknownSuperclass .. | unknownRoot _ | unknownMethod _ | unknownNode _
  | unknownType _ | unknownField _ => true
  | _ => false

end ProgramError

/-- What building a program gave: the frozen call graph with its
encoding, and the points-to facts. -/
structure BuiltProgram where
  graph : CallGraph
  frozen : Frozen
  facts : FactStore
  /-- Whether allocations are qualified. -/
  objectSensitive : Bool

/-- A program. -/
structure Program where
  name : String
  description : Description
  nodes : Universe := .empty
  hierarchy : ClassHierarchy := .empty
  casting : Casting := .empty
  names : Assoc String NodeId := []
  nodeNames : Assoc NodeId String := []
  /-- The calls of the methods, in the order of the description. -/
  calls : List CallSite := []
  built : Option BuiltProgram := none

namespace Program

/-- A step that may change a program and may fail; what it changed before
failing stays changed. -/
abbrev Step (α : Type) := ExceptT ProgramError (StateM Program) α

/-- Runs a step. -/
def Step.go {α : Type} (s : Step α) (p : Program) : Except ProgramError α × Program :=
  StateT.run (ExceptT.run s) p

/-- The class hierarchy as it stands. -/
def hierarchyView (p : Program) : Hierarchy := p.hierarchy.view p.nodes

/-- An optional value as a step. -/
def orFail {α : Type} (e : ProgramError) : Option α → Step α
  | some a => pure a
  | none => throw e

/-- A step of the universe that may stop with a fault. -/
def onNodes {α : Type} (f : Universe → Except Fault (α × Universe)) : Step α := do
  let p ← get
  match f p.nodes with
  | .ok (a, nodes) => set { p with nodes }; pure a
  | .error e => throw (.stopped e)

/-! ## Names -/

/-- The method of that name. -/
def method (name : String) : Step MethodId := do
  orFail (.unknownMethod name) ((← get).nodes.lookupMethod name)

/-- The node of that name. -/
def node (name : String) : Step NodeId := do
  orFail (.unknownNode name) ((← get).names.get? name)

/-- The name of a node, or its number if it has none. -/
def nodeName (p : Program) (n : NodeId) : String :=
  (p.nodeNames.get? n).getD ("#" ++ toString n)

/-- The name without the text `suffix` at its end. -/
def dropEnd? (name suffix : String) : Option String :=
  if name.endsWith suffix then some (name.dropEnd suffix.length).toString else none

/-- The name without the text `start` in front. -/
def dropStart? (name start : String) : Option String :=
  if name.startsWith start then some (name.drop start.length).toString else none

/-- The type of that name, for names of at most `fuel` characters. -/
def typeWithin : Nat → String → Step TypeId
  | 0, _ => pure noType
  | fuel + 1, name => do
    if name = "" then pure noType
    else if name = "null" then pure nullType
    else
      match dropEnd? name "[]", dropStart? name "any " with
      | some elem, _ =>
        let t ← typeWithin fuel elem
        onNodes (·.addArrayType t)
      | none, some base =>
        let t ← typeWithin fuel base
        onNodes (·.addAnySubtype t)
      | none, none => orFail (.unknownType name) ((← get).nodes.lookupType name)

/-- The type of that name. Array types and types standing for any subtype
are made when they are named; the empty name is no type. -/
def type (name : String) : Step TypeId := typeWithin (name.length + 1) name

/-- The call edge a declaration names. -/
def callSite (e : EdgeDecl) : Step CallSite := do
  let caller ← method e.caller
  let callee ← method e.callee
  pure ⟨caller, callee, e.site⟩

/-- The calls of a method. -/
def calleesOf (p : Program) (m : MethodId) : List CallSite := p.calls.filter (·.caller == m)

/-- Gives a node its name. -/
def bindName (name : String) (n : NodeId) : Step Unit := do
  if name = "" then throw .nodeWithoutName
  let p ← get
  if p.names.has name then throw (.declaredTwice name)
  set { p with names := p.names.set name n, nodeNames := p.nodeNames.set n name }

/-! ## Declarations -/

/-- Declares the types. -/
def declareTypes : Step Unit := do
  let d := (← get).description
  for prim in d.primitives do
    modify fun p => { p with nodes := (p.nodes.addType prim .primitive).2 }
  for c in d.classes do
    if c.name = "" then throw .classWithoutName
    modify fun p => { p with nodes := (p.nodes.addType c.name .ref).2 }

/-- Declares a class or interface of the hierarchy. Its type is declared
already. -/
def declareClass (c : ClassDecl) : Step Unit := do
  let nodes := (← get).nodes
  let t := (nodes.lookupType c.name).getD noType
  let supers ← c.interfaces.mapM fun s =>
    orFail (.unknownInterface s c.name) (nodes.lookupType s)
  if c.isInterface then
    modify fun p => { p with hierarchy := p.hierarchy.addInterface t supers }
  else
    let super ←
      if c.super = "" then pure noType
      else orFail (.unknownSuperclass c.super c.name) (nodes.lookupType c.super)
    modify fun p => { p with hierarchy := p.hierarchy.addClass t super supers }
  if c.isAbstract then
    modify fun p => { p with hierarchy := p.hierarchy.setAbstract t }
  if c.isUnresolved then
    modify fun p => { p with nodes := p.nodes.markUnresolved t }

/-- Declares the root class. -/
def declareRoot : Step Unit := do
  let p ← get
  let name := p.description.object
  if name = "" then pure ()
  else
    let t ← orFail (.unknownRoot name) (p.nodes.lookupType name)
    set { p with hierarchy := p.hierarchy.setRoot t }

/-- Declares a method. -/
def declareMethod (name : String) : Step Unit := do
  if name = rootMethodName then throw (.reservedMethod name)
  modify fun p => { p with nodes := (p.nodes.addMethod name).2 }

/-- Declares a call. -/
def declareEdge (e : EdgeDecl) : Step Unit := do
  let cs ← callSite e
  modify fun p => { p with calls := p.calls ++ [cs] }

/-- Declares a variable. -/
def declareVariable (v : VariableDecl) : Step Unit := do
  let m ← method v.method
  let t ← type v.type
  let n ← onNodes fun u => .ok (u.addVariable v.name t m)
  bindName v.name n

/-- Declares an allocation. -/
def declareAlloc (a : AllocDecl) : Step Unit := do
  let t ← type a.type
  let n ←
    if a.isConstant then onNodes fun u => .ok (u.addClassConstant a.name t)
    else
      let m ← method a.method
      onNodes fun u => .ok (u.addAlloc a.name t m)
  bindName a.name n

/-- Declares all that does not depend on a configuration. -/
def declare : Step Unit := do
  let d := (← get).description
  declareTypes
  d.classes.forM declareClass
  declareRoot
  d.methods.forM declareMethod
  d.edges.forM declareEdge
  d.vars.forM declareVariable
  d.allocs.forM declareAlloc

/-- The program of a description that was read from that file. -/
def ofDescription (file : String) (d : Description) : Except ProgramError Program :=
  match declare.go { name := file, description := d } with
  | (.ok _, p) => .ok p
  | (.error (.stopped f), _) => .error (.stopped f)
  | (.error e, _) => .error (.inFile file e)

/-- The program a text describes. -/
def ofText (file text : String) : Except ProgramError Program :=
  match Description.ofText? text with
  | none => .error (.malformed file)
  | some d => ofDescription file d

/-- Loads a description. -/
def load (file : String) (disk : Disk) : Except ProgramError Program :=
  match disk.read file with
  | .error e => .error (.unreadable e)
  | .ok text => ofText file text

/-- Loads a description whose path has to be plain. -/
def loadPlain (file : String) (disk : Disk) : Except ProgramError Program :=
  if Path.isPlain file then load file disk
  else .error (.unreadable ⟨"open", file, .invalidPath⟩)

end Program

end PointsTo
