import PointsTo.Fault
/-!
# The universe

The numbered types, methods, fields and pointer nodes of a program. Every
table only grows, and the number of an entry is its position. Position
zero of the tables of types, nodes and fields is a blank: no type, node or
field has that number.
-/

namespace PointsTo

/-- The shapes of static types the analysis tells apart. -/
inductive TypeKind where
  /-- A class or an interface. -/
  | ref
  /-- An array. -/
  | array
  /-- The type of the null constant. -/
  | null
  /-- Any subtype of a bound: the type of allocations of unknown class. -/
  | anySubtype
  /-- A type whose values are not pointers. -/
  | primitive
  /-- A shape the analysis has no name for. -/
  | unknown
  deriving DecidableEq, Repr, Inhabited

namespace TypeKind

/-- The shapes are numbered from zero. -/
def ofNumber : Int → TypeKind
  | 0 => ref
  | 1 => array
  | 2 => null
  | 3 => anySubtype
  | 4 => primitive
  | _ => unknown

/-- The name of the shape. -/
def text : TypeKind → String
  | ref => "ref"
  | array => "array"
  | null => "null"
  | anySubtype => "any-subtype"
  | primitive => "primitive"
  | unknown => "unknown"

/-- Whether values of the shape can be held by a pointer node. -/
def refLike : TypeKind → Bool
  | ref | array | null | anySubtype => true
  | primitive | unknown => false

end TypeKind

/-- A static type. The default is the blank at position zero. -/
structure TypeRecord where
  id : TypeId := noType
  name : String := ""
  kind : TypeKind := .ref
  /-- The element type of an array. -/
  elem : TypeId := noType
  /-- The bound of an any-subtype type. -/
  base : TypeId := noType
  /-- The hierarchy of the type could not be loaded. -/
  unresolved : Bool := false
  deriving DecidableEq, Repr, Inhabited

/-- The context abstraction an allocation carries. -/
inductive AllocKind where
  /-- A plain allocation site. -/
  | insensitive
  /-- The object standing for a class constant. -/
  | classConstant
  /-- An allocation site qualified by a chain of enclosing sites. -/
  | objectSensitive
  deriving DecidableEq, Repr, Inhabited

namespace AllocKind

/-- The name of the abstraction. -/
def text : AllocKind → String
  | insensitive => "insensitive"
  | classConstant => "class-constant"
  | objectSensitive => "object-sensitive"

/-- The abstractions are numbered from zero. -/
def ofNumber? : Int → Option AllocKind
  | 0 => some insensitive
  | 1 => some classConstant
  | 2 => some objectSensitive
  | _ => none

end AllocKind

/-- What a node stands for. -/
inductive NodeRole where
  /-- A local or global variable. -/
  | var
  /-- The objects allocated at `site`, under the chain of enclosing sites. -/
  | alloc (kind : AllocKind) (site : NodeId) (context : List NodeId)
  /-- A field of the objects of the allocation `base`. -/
  | allocField (base : NodeId) (field : FieldId)
  deriving DecidableEq, Repr, Inhabited

namespace NodeRole

/-- The roles are numbered from one. -/
def kindNumber : NodeRole → Nat
  | var => 1
  | alloc .. => 2
  | allocField .. => 3

/-- The name of the role with that number. -/
def kindText : Int → String
  | 1 => "var"
  | 2 => "alloc"
  | 3 => "alloc-field"
  | _ => "invalid"

end NodeRole

/-- A pointer node. -/
structure Node where
  id : NodeId := noNode
  name : String := ""
  type : TypeId := noType
  method : MethodId := rootMethod
  role : NodeRole := .var
  deriving DecidableEq, Repr, Inhabited

namespace Node

/-- Whether the node is an allocation, of any context abstraction. -/
def isAlloc (n : Node) : Bool :=
  match n.role with
  | .alloc .. => true
  | _ => false

/-- The abstraction of an allocation; other nodes carry none. -/
def allocKind (n : Node) : AllocKind :=
  match n.role with
  | .alloc k _ _ => k
  | _ => .insensitive

/-- The context-free allocation site of an allocation. -/
def site (n : Node) : NodeId :=
  match n.role with
  | .alloc _ s _ => s
  | _ => noNode

/-- The chain of enclosing allocation sites, closest first. -/
def context (n : Node) : List NodeId :=
  match n.role with
  | .alloc _ _ c => c
  | _ => []

/-- The allocation a field node belongs to. -/
def base (n : Node) : NodeId :=
  match n.role with
  | .allocField b _ => b
  | _ => noNode

/-- The field of a field node. -/
def field (n : Node) : FieldId :=
  match n.role with
  | .allocField _ f => f
  | _ => 0

/-- A node is written with its number, and a qualified allocation with the
filled slots of its chain. -/
def text (n : Node) : String :=
  match n.role with
  | .alloc _ _ c =>
    "alloc#" ++ toString n.id ++ " " ++ n.name ++
      String.join ((c.filter (· ≠ noNode)).map fun s => "[" ++ toString s ++ "]")
  | .allocField .. => "field#" ++ toString n.id ++ " " ++ n.name
  | .var => "var#" ++ toString n.id ++ " " ++ n.name

end Node

/-- The name under which the null type is known. -/
def nullTypeName : String := "<null>"

/-- The name of the root method. -/
def rootMethodName : String := "<root>"

/-- The number of the null type, which every universe starts with. -/
def nullType : TypeId := 1

/-- The numbered types, methods, fields and nodes of a program. -/
structure Universe where
  types : Array TypeRecord := #[{}, { id := nullType, name := nullTypeName, kind := .null }]
  methods : Array String := #[rootMethodName]
  fields : Array String := #[""]
  nodes : Array Node := #[{}]
  deriving Repr, Inhabited

namespace Universe

/-- The universe that has only the root method and the null type. -/
def empty : Universe := {}

/-- The first position of a table from `start` on whose entry passes the test. -/
def position? {α : Type} (xs : Array α) (start : Nat) (p : α → Bool) : Option Int :=
  ((xs.toList.drop start).findIdx? p).map fun i => ((i + start : Nat) : Int)

/-! ## Methods and fields -/

/-- The method of that name. -/
def lookupMethod (u : Universe) (name : String) : Option MethodId :=
  position? u.methods 0 (· == name)

/-- The method of that name, numbered if it is new. -/
def addMethod (u : Universe) (name : String) : MethodId × Universe :=
  match u.lookupMethod name with
  | some m => (m, u)
  | none => (u.methods.size, { u with methods := u.methods.push name })

/-- The name of a method; numbers without a method have the empty name. -/
def methodName (u : Universe) (m : MethodId) : String := (slot? u.methods m).getD ""

/-- The number of methods, the root included. -/
def numMethods (u : Universe) : Nat := u.methods.size

/-- Whether the number is that of a method. -/
def hasMethod (u : Universe) (m : MethodId) : Bool := 0 ≤ m && m < u.methods.size

/-- The field of that name. -/
def lookupField (u : Universe) (name : String) : Option FieldId :=
  position? u.fields 1 (· == name)

/-- The field of that name, numbered if it is new. -/
def addField (u : Universe) (name : String) : FieldId × Universe :=
  match u.lookupField name with
  | some f => (f, u)
  | none => (u.fields.size, { u with fields := u.fields.push name })

/-- The name of a field; numbers without a field have the empty name. -/
def fieldName (u : Universe) (f : FieldId) : String := (slot? u.fields f).getD ""

/-! ## Types -/

/-- The type of that number. -/
def type? (u : Universe) (t : TypeId) : Option TypeRecord :=
  if t = noType then none else slot? u.types t

/-- The type of that number, or the blank. -/
def typeD (u : Universe) (t : TypeId) : TypeRecord := (u.type? t).getD {}

/-- The type of that name. -/
def lookupType (u : Universe) (name : String) : Option TypeId :=
  position? u.types 1 (·.name == name)

/-- One more than the largest number of a type. -/
def numTypes (u : Universe) : Nat := u.types.size

/-- The numbers of all types, in increasing order. -/
def typeIds (u : Universe) : List TypeId :=
  ((List.range u.types.size).drop 1).map Int.ofNat

/-- The type of the record's name, numbered if it is new: the rest of the
record counts only then. -/
def internType (u : Universe) (t : TypeRecord) : TypeId × Universe :=
  match u.lookupType t.name with
  | some id => (id, u)
  | none =>
    (u.types.size, { u with types := u.types.push { t with id := u.types.size } })

/-- The type of that name, made with the given shape if it is new. -/
def addType (u : Universe) (name : String) (kind : TypeKind) : TypeId × Universe :=
  u.internType { name, kind }

/-- How the name of an array type is made from its element's. -/
def arrayName (elem : String) : String := elem ++ "[]"

/-- How the name of an any-subtype type is made from its bound's. -/
def anySubtypeName (base : String) : String := "Any_subtype_of_" ++ base

/-- The array type of that element type. -/
def addArrayType (u : Universe) (elem : TypeId) : Except Fault (TypeId × Universe) :=
  match slot? u.types elem with
  | some e => .ok (u.internType { name := arrayName e.name, kind := .array, elem })
  | none => .error .outOfRange

/-- The type standing for any subtype of the bound. -/
def addAnySubtype (u : Universe) (base : TypeId) : Except Fault (TypeId × Universe) :=
  match slot? u.types base with
  | some b => .ok (u.internType { name := anySubtypeName b.name, kind := .anySubtype, base })
  | none => .error .outOfRange

/-- Notes that the hierarchy of the type is not available. -/
def markUnresolved (u : Universe) (t : TypeId) : Universe :=
  if 0 < t then { u with types := u.types.modify t.toNat ({ · with unresolved := true }) } else u

/-! ## Nodes -/

/-- The node of that number. -/
def node? (u : Universe) (n : NodeId) : Option Node :=
  if n = noNode then none else slot? u.nodes n

/-- The enclosing method of a node. -/
def methodOf (u : Universe) (n : NodeId) : MethodId :=
  match u.node? n with
  | some r => r.method
  | none => noMethod

/-- The static type of a node. -/
def typeOf (u : Universe) (n : NodeId) : TypeId :=
  match u.node? n with
  | some r => r.type
  | none => noType

/-- One more than the largest number of a node. -/
def numNodes (u : Universe) : Nat := u.nodes.size

/-- The number the next node gets. -/
def nextNode (u : Universe) : NodeId := u.nodes.size

/-- Appends a node, numbering it. -/
def pushNode (u : Universe) (n : Node) : NodeId × Universe :=
  (u.nextNode, { u with nodes := u.nodes.push { n with id := u.nextNode } })

/-- A new variable of a method. -/
def addVariable (u : Universe) (name : String) (type : TypeId) (method : MethodId) :
    NodeId × Universe :=
  u.pushNode { name, type, method }

/-- A new allocation site of a method. -/
def addAlloc (u : Universe) (name : String) (type : TypeId) (method : MethodId) :
    NodeId × Universe :=
  u.pushNode { name, type, method, role := .alloc .insensitive u.nextNode [] }

/-- Whether the node is the class constant of that name. -/
def isConstant (name : String) (n : Node) : Bool :=
  n.name == name && n.isAlloc && n.allocKind == .classConstant

/-- The allocation standing for the class constant of that name, made on
its first use. -/
def addClassConstant (u : Universe) (name : String) (type : TypeId) : NodeId × Universe :=
  match position? u.nodes 1 (isConstant name) with
  | some n => (n, u)
  | none =>
    u.pushNode { name, type, method := noMethod, role := .alloc .classConstant u.nextNode [] }

/-- A new allocation qualifying the site of `base` by a chain. -/
def addObjectSensitive (u : Universe) (base : NodeId) (chain : List NodeId) :
    Except Fault (NodeId × Universe) :=
  match u.node? base with
  | some b =>
    if b.isAlloc then
      .ok (u.pushNode { b with role := .alloc .objectSensitive b.site chain })
    else .error (.chainOnNonAllocation base)
  | none => .error (.chainOnNonAllocation base)

/-- The node of a field of an allocation, if it has been made. -/
def findAllocField (u : Universe) (base : NodeId) (f : FieldId) : Option NodeId :=
  position? u.nodes 1 fun n => n.role == .allocField base f

/-- The node of a field of an allocation, made on its first use. -/
def addAllocField (u : Universe) (base : NodeId) (f : FieldId) :
    Except Fault (NodeId × Universe) :=
  match u.findAllocField base f with
  | some n => .ok (n, u)
  | none =>
    match slot? u.nodes base, slot? u.fields f with
    | some b, some field =>
      .ok (u.pushNode
        { name := b.name ++ "." ++ field, method := noMethod, role := .allocField base f })
    | _, _ => .error .outOfRange

/-- The allocations, in the order they were made. -/
def allocs (u : Universe) : List NodeId :=
  ((u.nodes.toList.drop 1).filter (·.isAlloc)).map (·.id)

/-- The allocations made after the first `start` ones. -/
def allocsFrom (u : Universe) (start : Int) : Except Fault (List NodeId) :=
  if start < 0 then .error .outOfRange else .ok (u.allocs.drop start.toNat)

end Universe

end PointsTo
