import PointsTo.Assoc
import PointsTo.Source.Type
/-!
# Source programs

A source program is one package of straight-line functions over structs,
interfaces and global variables. Its statements are broken down into
instructions on numbered registers, which is what the analyses look at: a
function is a list of instructions that ends with a return, and every
instruction that gives a value defines the next register.
-/

namespace PointsTo

namespace Source

/-! ## Statements -/

/-- A statement. Where a variable `x` is given, the value of the statement
is bound to it; otherwise the value is dropped. -/
inductive Statement where
  /-- A new object of a struct. -/
  | create (x : Option String) (type : String)
  /-- The field `f` of `y`. -/
  | load (x : Option String) (y f : String)
  /-- Stores `y` in the field `f` of `x`. -/
  | store (x f y : String)
  | loadGlobal (x : Option String) (g : String)
  | storeGlobal (g y : String)
  /-- The address of a global variable. -/
  | address (x : Option String) (g : String)
  /-- What `y` points to. -/
  | loadPointer (x : Option String) (y : String)
  /-- Stores `y` where `x` points to. -/
  | storePointer (x y : String)
  /-- The value `y` as one of an interface. -/
  | box (x : Option String) (type y : String)
  /-- The value in the interface value `y`, if it is of the type. -/
  | assertType (x : Option String) (y type : String)
  | call (x : Option String) (function : String) (args : List String)
  /-- Calls the method `m` of `y`. -/
  | invoke (x : Option String) (y m : String) (args : List String)
  | ret (y : String)
  deriving Repr, Inhabited

/-- A function or, if it has a receiver, a method of a struct. -/
structure FunctionDecl where
  name : String
  receiver : Option String
  params : List (String × String)
  /-- The type of the result; empty if there is none. -/
  result : String
  body : List Statement
  deriving Repr, Inhabited

/-- A method of an interface. -/
structure SignatureDecl where
  name : String
  params : List (String × String)
  result : String
  deriving Repr, Inhabited

/-- A package. Types are given by their text. -/
structure Package where
  name : String
  structs : List (String × List (String × String))
  interfaces : List (String × List SignatureDecl)
  globals : List (String × String)
  functions : List FunctionDecl
  deriving Repr, Inhabited

/-! ## Instructions -/

/-- A value within a function. -/
inductive Value where
  | param (name : String)
  | register (n : Nat)
  /-- The address of a global variable. -/
  | global (name : String)
  deriving DecidableEq, Repr, Inhabited

/-- The name of a value in its function. -/
def Value.name : Value → String
  | .param name | .global name => name
  | .register n => "t" ++ toString n

/-- What is called: a function, or the method of an interface value. -/
inductive Callee where
  | static (function : Nat)
  | dynamic (receiver : Value) (interface : Nat) (method : String)
  deriving DecidableEq, Repr, Inhabited

/-- An instruction. The register it defines comes first. Structs and
interfaces are given by their declaration. -/
inductive Instruction where
  | create (dst : Nat)
  | fieldAddress (dst : Nat) (base : Value) (struct field : Nat)
  | load (dst : Nat) (address : Value)
  | store (address value : Value)
  | box (dst : Nat) (operand : Value) (struct : Nat)
  /-- An interface value as one of another interface. -/
  | convert (dst : Nat) (operand : Value)
  /-- The pointer in an interface value if it leads to the struct, or the
  interface value itself if what is in it implements the interface. -/
  | assertType (dst : Nat) (operand : Value) (target : Nat)
  | call (dst : Nat) (callee : Callee) (args : List Value)
  | ret (value : Option Value)
  deriving DecidableEq, Repr, Inhabited

namespace Instruction

/-- The values an instruction uses. -/
def operands : Instruction → List Value
  | create _ => []
  | fieldAddress _ base _ _ => [base]
  | load _ address => [address]
  | store address value => [address, value]
  | box _ operand _ | convert _ operand | assertType _ operand _ => [operand]
  | call _ (.static _) args => args
  | call _ (.dynamic receiver _ _) args => receiver :: args
  | ret value => value.toList

/-- The register an instruction defines. -/
def defined : Instruction → Option Nat
  | create dst | fieldAddress dst .. | load dst _ | box dst .. | convert dst _
  | assertType dst .. | call dst .. => some dst
  | store .. | ret _ => none

/-- Whether the instruction is a call. -/
def isCall : Instruction → Bool
  | call .. => true
  | _ => false

end Instruction

/-- A function broken down into instructions. -/
structure Function where
  name : String
  params : List (String × Ty) := []
  result : Option Ty := none
  /-- The struct and the name, if the function is a method. -/
  method : Option (Nat × String) := none
  instructions : List Instruction := [.ret none]
  /-- The type of each register; calls without result have none. -/
  registers : Array (Option Ty) := #[]
  deriving Repr, Inhabited

/-- A program broken down into instructions. -/
structure Code where
  declarations : Declarations
  /-- The names of the fields of the structs, by declaration. -/
  fieldNames : Array (List String)
  globals : List (String × Ty)
  functions : Array Function
  /-- The types that other packages can get at by name: the types, and those
  of functions and global variables, whose names are for others to use. -/
  offered : List Ty := []
  deriving Repr, Inhabited

namespace Function

/-- The calls of a function, by their number. -/
def calls (f : Function) : List (Nat × Callee × List Value) :=
  f.instructions.filterMap fun i =>
    match i with
    | .call dst callee args => some (dst, callee, args)
    | _ => none

/-- The type of a parameter or register. -/
def typeOf? (f : Function) : Value → Option Ty
  | .param name => f.params.lookup name
  | .register n => (f.registers[n]?).bind id
  | .global _ => none

end Function

/-! ## Breaking down -/

/-- The surroundings of a function body: the types, global variables and
functions that can be named. -/
structure Scope where
  declarations : Declarations
  fields : Array (List (String × Ty))
  globals : List (String × Ty)
  /-- The functions with their struct, name, parameters and result. -/
  functions : List (Option Nat × String × List Ty × Option Ty)
  /-- The methods of the interfaces, by declaration, with their parameters
  and result. -/
  signatures : List (Nat × String × List Ty × Option Ty)

/-- A function body in the making. -/
structure Draft where
  locals : Assoc String (Value × Ty)
  instructions : List Instruction := []
  registers : Array (Option Ty) := #[]

/-- A step of breaking down a body; none if a name means nothing. -/
abbrev Drafting (α : Type) := StateT Draft Option α

namespace Scope

/-- The type a text stands for: a name after any number of stars. -/
def typeOf? (d : Declarations) (text : String) : Option Ty :=
  let stars := (text.toList.takeWhile (· = '*')).length
  let name := String.ofList (text.toList.drop stars)
  (d.named.toList.findIdx? (·.name == name)).map fun i =>
    (List.range stars).foldl (fun t _ => Ty.pointer t) (.named i)

/-- The declaration of a type. -/
def named? : Ty → Option Nat
  | .named i => some i
  | _ => none

/-- The struct a pointer leads to. -/
def pointee? : Ty → Option Nat
  | .pointer t => named? t
  | _ => none

/-- The value and type of a local variable. -/
def localVar (x : String) : Drafting (Value × Ty) := do (← get).locals.get? x

/-- Adds an instruction that defines a register of that type. -/
def define (type : Option Ty) (make : Nat → Instruction) : Drafting Value := do
  let d ← get
  let n := d.registers.size
  set { d with instructions := d.instructions ++ [make n], registers := d.registers.push type }
  pure (.register n)

/-- Adds an instruction that defines nothing. -/
def perform (i : Instruction) : Drafting Unit :=
  modify fun d => { d with instructions := d.instructions ++ [i] }

/-- Binds a value to a variable, if one is given. The variable has to be
new, and there has to be a value. -/
def bindVar (x : Option String) (v : Value) (type : Option Ty) : Drafting Unit :=
  match x, type with
  | some x, some t => do
    if ((← get).locals.get? x).isSome then failure
    modify fun d => { d with locals := d.locals.set x (v, t) }
  | some _, none => failure
  | none, _ => pure ()

/-- A value as one of a type it can be stored in. Only interface values
differ from what they are made of. -/
def convert (s : Scope) (v : Value) (type target : Ty) : Drafting Value := do
  if type.identical target then return v
  else if !s.declarations.assignable type target then failure
  else if s.declarations.isInterface type then define (some target) fun n => .convert n v
  else
    let struct ← (pointee? type : Option Nat)
    define (some target) fun n => .box n v struct

/-- The arguments of a call as values of the types of the parameters. -/
def arguments (s : Scope) (args : List String) (params : List Ty) : Drafting (List Value) := do
  if args.length ≠ params.length then failure
  let vs ← args.mapM localVar
  (vs.zip params).mapM fun ((v, t), target) => s.convert v t target

/-- Stores a local variable at an address of values of a type. -/
def storeAt (s : Scope) (address : Value) (target : Ty) (y : String) : Drafting Unit := do
  let (v, t) ← localVar y
  perform (.store address (← s.convert v t target))

/-- The address of a field, and the type of the field. -/
def fieldAddress (s : Scope) (x f : String) : Drafting (Value × Ty) := do
  let (v, t) ← localVar x
  let struct ← (pointee? t : Option Nat)
  let fields ← (s.fields[struct]? : Option (List (String × Ty)))
  let i ← (fields.findIdx? (·.1 == f) : Option Nat)
  let ft ← (fields.lookup f : Option Ty)
  let a ← define (some (.pointer ft)) fun n => .fieldAddress n v struct i
  pure (a, ft)

/-- Breaks down a statement of a function with that result. -/
def statement (s : Scope) (result : Option Ty) : Statement → Drafting Unit
  | .create x type => do
    let t ← (typeOf? s.declarations type : Option Ty)
    let v ← define (some (.pointer t)) .create
    bindVar x v (some (.pointer t))
  | .load x y f => do
    let (a, t) ← s.fieldAddress y f
    let v ← define (some t) fun n => .load n a
    bindVar x v (some t)
  | .store x f y => do
    let (a, t) ← s.fieldAddress x f
    s.storeAt a t y
  | .loadGlobal x g => do
    let t ← (s.globals.lookup g : Option Ty)
    let v ← define (some t) fun n => .load n (.global g)
    bindVar x v (some t)
  | .storeGlobal g y => do
    let t ← (s.globals.lookup g : Option Ty)
    s.storeAt (.global g) t y
  | .address x g => do
    let t ← (s.globals.lookup g : Option Ty)
    bindVar x (.global g) (some (.pointer t))
  | .loadPointer x y => do
    match ← localVar y with
    | (v, .pointer t) =>
      let r ← define (some t) fun n => .load n v
      bindVar x r (some t)
    | _ => failure
  | .storePointer x y => do
    match ← localVar x with
    | (a, .pointer t) => s.storeAt a t y
    | _ => failure
  | .box x type y => do
    let t ← (typeOf? s.declarations type : Option Ty)
    let (v, vt) ← localVar y
    bindVar x (← s.convert v vt t) (some t)
  | .assertType x y type => do
    let t ← (typeOf? s.declarations type : Option Ty)
    let (v, vt) ← localVar y
    let isInterface := s.declarations.isInterface t
    let target ← (if isInterface then named? t else pointee? t : Option Nat)
    if !s.declarations.isInterface vt || !(isInterface || s.declarations.implements t vt) then
      failure
    let r ← define (some t) fun n => .assertType n v target
    bindVar x r (some t)
  | .call x function args => do
    let i ← (s.functions.findIdx? fun f => f.1.isNone && f.2.1 == function : Option Nat)
    let (_, _, params, result) ← (s.functions[i]? : Option _)
    let vs ← s.arguments args params
    let r ← define result fun n => .call n (.static i) vs
    bindVar x r result
  | .invoke x y m args => do
    let (v, t) ← localVar y
    match t with
    | .named iface =>
      let (_, _, params, result) ←
        (s.signatures.find? fun g => g.1 == iface && g.2.1 == m : Option _)
      let vs ← s.arguments args params
      let r ← define result fun n => .call n (.dynamic v iface m) vs
      bindVar x r result
    | t =>
      let struct ← (pointee? t : Option Nat)
      let i ← (s.functions.findIdx? fun f => f.1 == some struct && f.2.1 == m : Option Nat)
      let (_, _, params, result) ← (s.functions[i]? : Option _)
      let vs ← s.arguments args params
      let r ← define result fun n => .call n (.static i) (v :: vs)
      bindVar x r result
  | .ret y =>
    match result with
    | none => if y = "" then perform (.ret none) else failure
    | some target => do
      let (v, t) ← localVar y
      perform (.ret (some (← s.convert v t target)))

/-- Whether a statement returns from its function. -/
def returns : Statement → Bool
  | .ret _ => true
  | _ => false

/-- The instructions of a body, which ends with a return. One that is left
out returns nothing, and what follows the first one does not count. -/
def body (s : Scope) (params : List (String × Ty)) (result : Option Ty)
    (statements : List Statement) : Option Draft := do
  let start : Draft := { locals := params.map fun (x, t) => (x, (.param x, t)) }
  if result.isSome && !statements.getLast?.any returns then failure
  let reached := statements.takeWhile (!returns ·) ++ (statements.find? returns).toList
  let _ ← (statements.forM (s.statement result)).run start
  let (_, d) ← (reached.forM (s.statement result)).run start
  return if reached.any returns then d else { d with instructions := d.instructions ++ [.ret none] }

/-- The types that other packages can get at by name. -/
def offered (s : Scope) : List Ty :=
  ((s.declarations.named.toList.zipIdx.filter fun (d, _) => isExported d.name).map
      fun (_, i) => .named i) ++
    (s.globals.filter fun (g, _) => isExported g).map (·.2) ++
    (s.functions.filter fun (struct, f, _) => struct.isNone && isExported f).flatMap
      fun (_, _, params, result) => params ++ result.toList

end Scope

namespace Package

/-- The declarations of the named types of a package, with their methods
left out. -/
def names (p : Package) : Declarations where
  package := p.name
  named := ((p.structs.map (·.1) ++ p.interfaces.map (·.1)).map fun name =>
    { name, under := .struct [], methods := [] }).toArray

/-- The types of parameters. -/
def paramTypes? (d : Declarations) (ps : List (String × String)) : Option (List (String × Ty)) :=
  ps.mapM fun (x, t) => (Scope.typeOf? d t).map (x, ·)

/-- The type of a result, if there is one. -/
def resultType? (d : Declarations) (text : String) : Option (Option Ty) :=
  if text = "" then some none else (Scope.typeOf? d text).map some

/-- The struct of that name. -/
def structIndex? (p : Package) (name : String) : Option Nat := p.structs.findIdx? (·.1 == name)

/-- The full name of a function. -/
def fullName (p : Package) (f : FunctionDecl) : String :=
  match f.receiver with
  | none => p.name ++ "." ++ f.name
  | some s => "(*" ++ p.name ++ "." ++ s ++ ")." ++ f.name

/-- The methods of an interface, as parts of its type. -/
def interfaceType? (d : Declarations) (ms : List SignatureDecl) : Option Ty := do
  let sigs ← ms.mapM fun m => do
    pure (m.name, (← paramTypes? d m.params).map (·.2), (← resultType? d m.result).toList)
  pure (.interfaceOf sigs)

/-- The methods of a struct. -/
def methodDecls? (p : Package) (d : Declarations) (name : String) : Option (List MethodDecl) :=
  (p.functions.filter (·.receiver == some name)).mapM fun f => do
    pure { name := f.name, byPointer := true
           params := (← paramTypes? d f.params).map (·.2)
           results := (← resultType? d f.result).toList }

/-- The declarations of a package. -/
def declarations? (p : Package) : Option Declarations := do
  let d := p.names
  let structs ← p.structs.mapM fun (name, fields) => do
    pure { name, under := .struct ((← paramTypes? d fields).map (·.2))
           methods := ← p.methodDecls? d name : NamedDecl }
  let interfaces ← p.interfaces.mapM fun (name, ms) => do
    pure { name, under := ← interfaceType? d ms, methods := [] : NamedDecl }
  pure { d with named := (structs ++ interfaces).toArray }

/-- What the functions of a package can name. -/
def scope? (p : Package) : Option Scope := do
  let d ← p.declarations?
  let functions ← p.functions.mapM fun f => do
    let struct ← match f.receiver with
      | none => some none
      | some s => (p.structIndex? s).map some
    pure (struct, f.name, (← paramTypes? d f.params).map (·.2), ← resultType? d f.result)
  let signatures ← p.interfaces.mapM fun (_, ms) =>
    ms.mapM fun m => do
      pure (m.name, (← paramTypes? d m.params).map (·.2), ← resultType? d m.result)
  pure
    { declarations := d
      fields := (← p.structs.mapM fun (_, fs) => paramTypes? d fs).toArray
      globals := ← paramTypes? d p.globals
      functions
      signatures := (signatures.zipIdx.flatMap fun (ms, i) =>
        ms.map fun (m, r) => (p.structs.length + i, m, r)) }

/-- Breaks down a function. The receiver of a method is its first
parameter, called `r`. -/
def function? (p : Package) (s : Scope) (f : FunctionDecl) : Option Function := do
  let struct ← match f.receiver with
    | none => some none
    | some r => (p.structIndex? r).map some
  let params ← paramTypes? s.declarations f.params
  let params := (struct.map fun i => ("r", Ty.pointer (.named i))).toList ++ params
  let result ← resultType? s.declarations f.result
  let d ← s.body params result f.body
  pure
    { name := p.fullName f
      params
      result
      method := struct.map (·, f.name)
      instructions := d.instructions
      registers := d.registers }

/-- The name of the function that sets up a package. -/
def initName (p : Package) : String := p.name ++ ".init"

/-- The names that are declared in the package: each can be declared once. -/
def declared (p : Package) : List String :=
  p.structs.map (·.1) ++ p.interfaces.map (·.1) ++ p.globals.map (·.1) ++
    (p.functions.filter (·.receiver.isNone)).map (·.name)

/-- The names that are declared in a struct. -/
def declaredIn (p : Package) (struct : String × List (String × String)) : List String :=
  struct.2.map (·.1) ++ (p.functions.filter (·.receiver == some struct.1)).map (·.name)

/-- Whether no name is declared twice. -/
def isDistinct (p : Package) : Bool :=
  let once (names : List String) : Bool := names.eraseDups.length == names.length
  once p.declared && (p.structs.all fun s => once (p.declaredIn s)) &&
    (p.interfaces.all fun i => once (i.2.map (·.name))) &&
    p.functions.all fun f =>
      once ((if f.receiver.isSome then ["r"] else []) ++ f.params.map (·.1))

/-- Breaks down a package, unless it names something that is not there, a
name twice, or a value where it cannot be. The function that sets it up
comes last. -/
def code? (p : Package) : Option Code := do
  if !p.isDistinct then failure
  let s ← p.scope?
  let functions ← p.functions.mapM (p.function? s)
  pure
    { declarations := s.declarations
      fieldNames := s.fields.map (·.map (·.1))
      globals := s.globals
      functions := (functions ++ [({ name := p.initName } : Function)]).toArray
      offered := s.offered }

end Package

namespace Code

/-- The function of that full name. -/
def function? (c : Code) (name : String) : Option Nat :=
  c.functions.toList.findIdx? (·.name == name)

/-- A function by its position. -/
def functionD (c : Code) (i : Nat) : Function := (c.functions[i]?).getD { name := "" }

/-- The positions of the functions. -/
def positions (c : Code) : List Nat := List.range c.functions.size

/-- The function that sets the package up. -/
def initFunction (c : Code) : Nat := c.functions.size - 1

/-- The main function, if the package is one that can be run. -/
def mainFunction? (c : Code) : Option Nat :=
  if c.declarations.package = "main" then c.function? "main.main" else none

/-- The functions a run starts with, if the package can be run. -/
def roots (c : Code) : List Nat :=
  match c.mainFunction? with
  | some m => [c.initFunction, m]
  | none => []

/-- The method of a struct by its name. -/
def methodOf? (c : Code) (struct : Nat) (m : String) : Option Nat :=
  c.functions.toList.findIdx? (·.method == some (struct, m))

/-- The structs that implement an interface. -/
def implementers (c : Code) (interface : Nat) : List Nat :=
  (List.range c.fieldNames.size).filter fun s =>
    c.declarations.implements (.pointer (.named s)) (.named interface)

/-- The full name of a field of a struct. -/
def fieldName (c : Code) (struct field : Nat) : String :=
  c.declarations.text (.named struct) ++ "." ++
    (((c.fieldNames[struct]?).bind (·[field]?)).getD "")

end Code

end Source

end PointsTo
