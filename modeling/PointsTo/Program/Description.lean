import PointsTo.Document.Reading
/-!
# Program descriptions

A program can be described in a document: its classes, methods, call
edges, variables and allocations, the points-to facts found for it, and
queries with the answers expected. Everything is referred to by name.
-/

namespace PointsTo

open Document

/-- A class or interface. -/
structure ClassDecl where
  name : String := ""
  super : String := ""
  interfaces : List String := []
  isInterface : Bool := false
  isAbstract : Bool := false
  isUnresolved : Bool := false
  deriving Repr, Inhabited

/-- A call edge. -/
structure EdgeDecl where
  caller : String := ""
  callee : String := ""
  site : Int := 0
  deriving Repr, Inhabited

/-- A local variable of a method. -/
structure VariableDecl where
  name : String := ""
  method : String := ""
  type : String := ""
  deriving Repr, Inhabited

/-- An allocation, or a class constant. -/
structure AllocDecl where
  name : String := ""
  type : String := ""
  method : String := ""
  isConstant : Bool := false
  deriving Repr, Inhabited

/-- An allocation qualified by the receiver of the method performing it;
an empty receiver stands for a method without one. -/
structure HeapContextDecl where
  name : String := ""
  base : String := ""
  receiver : String := ""
  deriving Repr, Inhabited

/-- The node of a field of the objects of an allocation. -/
structure FieldDecl where
  alloc : String := ""
  field : String := ""
  deriving Repr, Inhabited

/-- A points-to fact. -/
structure FactDecl where
  pointer : String := ""
  object : String := ""
  lo : Int64 := 0
  hi : Int64 := 0
  deriving Repr, Inhabited

/-- A node that was merged into another. -/
structure MergeDecl where
  node : String := ""
  into : String := ""
  deriving Repr, Inhabited

/-- The blocks of a method. -/
structure BlockDecl where
  method : String := ""
  size : Int64 := 0
  num : Int64 := 0
  deriving Repr, Inhabited

/-- The offset of a call edge. -/
structure OffsetDecl where
  edge : EdgeDecl := {}
  offset : Int64 := 0
  deriving Repr, Inhabited

/-- Blocks and offsets that replace the computed ones. -/
structure EncodingDecl where
  blocks : List BlockDecl := []
  offsets : List OffsetDecl := []
  deriving Repr, Inhabited

/-- An expected result of a query. -/
structure ExpectedDecl where
  object : String := ""
  lo : Int64 := 0
  hi : Int64 := 0
  deriving Repr, Inhabited

/-- A query: by an edge or by a chain, which goes from the farthest caller
to the closest one. It can ask for a field of the objects, and for those of
a type only. -/
structure QueryDecl where
  name : String := ""
  edge : Option EdgeDecl := none
  chain : List EdgeDecl := []
  pointer : String := ""
  field : String := ""
  type : String := ""
  expect : List ExpectedDecl := []
  /-- The query is expected to be answered with no. -/
  fails : Bool := false
  deriving Repr, Inhabited

/-- The description of a program. -/
structure Description where
  classes : List ClassDecl := []
  object : String := ""
  primitives : List String := []
  methods : List String := []
  entryPoints : List String := []
  edges : List EdgeDecl := []
  vars : List VariableDecl := []
  allocs : List AllocDecl := []
  heapContexts : List HeapContextDecl := []
  fields : List FieldDecl := []
  facts : List FactDecl := []
  merged : List MergeDecl := []
  dead : List String := []
  encoding : Option EncodingDecl := none
  queries : List QueryDecl := []
  deriving Repr, Inhabited

namespace Description

/-- Reads a class. -/
def readClass : Reader ClassDecl := recordOf fun fs => do
  pure {
    name := ← fs.get "name" text ""
    super := ← fs.get "super" text ""
    interfaces := ← fs.get "interfaces" (listOf text) []
    isInterface := ← fs.get "interface" truth false
    isAbstract := ← fs.get "abstract" truth false
    isUnresolved := ← fs.get "unresolved" truth false }

/-- The call edge some fields describe. -/
def edgeOf (fs : Fields) : Document.Attempt EdgeDecl := do
  pure {
    caller := ← fs.get "caller" text ""
    callee := ← fs.get "callee" text ""
    site := ← fs.get "site" integer 0 }

/-- Reads a call edge. -/
def readEdge : Reader EdgeDecl := recordOf edgeOf

/-- Reads a variable. -/
def readVariable : Reader VariableDecl := recordOf fun fs => do
  pure {
    name := ← fs.get "name" text ""
    method := ← fs.get "method" text ""
    type := ← fs.get "type" text "" }

/-- Reads an allocation. -/
def readAlloc : Reader AllocDecl := recordOf fun fs => do
  pure {
    name := ← fs.get "name" text ""
    type := ← fs.get "type" text ""
    method := ← fs.get "method" text ""
    isConstant := ← fs.get "class-constant" truth false }

/-- Reads a qualified allocation. -/
def readHeapContext : Reader HeapContextDecl := recordOf fun fs => do
  pure {
    name := ← fs.get "name" text ""
    base := ← fs.get "base" text ""
    receiver := ← fs.get "receiver" text "" }

/-- Reads a field node. -/
def readField : Reader FieldDecl := recordOf fun fs => do
  pure { alloc := ← fs.get "alloc" text "", field := ← fs.get "field" text "" }

/-- Reads a fact. -/
def readFact : Reader FactDecl := recordOf fun fs => do
  pure {
    pointer := ← fs.get "pointer" text ""
    object := ← fs.get "object" text ""
    lo := ← fs.get "l" context 0
    hi := ← fs.get "r" context 0 }

/-- Reads a merge. -/
def readMerge : Reader MergeDecl := recordOf fun fs => do
  pure { node := ← fs.get "node" text "", into := ← fs.get "into" text "" }

/-- Reads the blocks of a method. -/
def readBlock : Reader BlockDecl := recordOf fun fs => do
  pure {
    method := ← fs.get "method" text ""
    size := ← fs.get "size" context 0
    num := ← fs.get "num" context 0 }

/-- Reads the offset of an edge. -/
def readOffset : Reader OffsetDecl := recordOf fun fs => do
  pure { edge := ← edgeOf fs, offset := ← fs.get "offset" context 0 }

/-- Reads an encoding. -/
def readEncoding : Reader EncodingDecl := recordOf fun fs => do
  pure {
    blocks := ← fs.get "blocks" (listOf readBlock) []
    offsets := ← fs.get "offsets" (listOf readOffset) [] }

/-- Reads an expected result. -/
def readExpected : Reader ExpectedDecl := recordOf fun fs => do
  pure {
    object := ← fs.get "object" text ""
    lo := ← fs.get "l" context 0
    hi := ← fs.get "r" context 0 }

/-- Reads a query. -/
def readQuery : Reader QueryDecl := recordOf fun fs => do
  pure {
    name := ← fs.get "name" text ""
    edge := ← fs.get "edge" (optional readEdge) none
    chain := ← fs.get "chain" (listOf readEdge) []
    pointer := ← fs.get "pointer" text ""
    field := ← fs.get "field" text ""
    type := ← fs.get "type" text ""
    expect := ← fs.get "expect" (listOf readExpected) []
    fails := ← fs.get "fails" truth false }

/-- Reads the description of a program. -/
def read : Reader Description := recordOf fun fs => do
  pure {
    classes := ← fs.get "classes" (listOf readClass) []
    object := ← fs.get "object" text ""
    primitives := ← fs.get "primitives" (listOf text) []
    methods := ← fs.get "methods" (listOf text) []
    entryPoints := ← fs.get "entry-points" (listOf text) []
    edges := ← fs.get "edges" (listOf readEdge) []
    vars := ← fs.get "variables" (listOf readVariable) []
    allocs := ← fs.get "allocs" (listOf readAlloc) []
    heapContexts := ← fs.get "heap-contexts" (listOf readHeapContext) []
    fields := ← fs.get "fields" (listOf readField) []
    facts := ← fs.get "facts" (listOf readFact) []
    merged := ← fs.get "merged" (listOf readMerge) []
    dead := ← fs.get "dead" (listOf text) []
    encoding := ← fs.get "encoding" (optional readEncoding) none
    queries := ← fs.get "queries" (listOf readQuery) [] }

/-- The description a text holds. A text that says nothing describes the
empty program. -/
def ofText? (source : String) : Option Description :=
  (Document.readText? read source).map (·.getD {})

end Description

end PointsTo
