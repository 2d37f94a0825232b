import PointsTo.Source.Inclusion
/-!
# Where interface values flow

The variables that can hold interface values, and the ways along which such
values go from one to another: through arguments and results, and through
fields, global variables and pointers. All objects of a struct share the
variables for its fields.
-/

namespace PointsTo

namespace Source

/-- A variable that holds interface values, or leads to one that does
through pointers. -/
inductive FlowVar where
  /-- A parameter or register of a function. -/
  | value (function : Nat) (v : Value)
  | global (name : String)
  | field (struct field : Nat)
  | result (function : Nat)
  /-- All pointers to pointers that end at the interface. -/
  | behind (interface : Nat)
  deriving DecidableEq, Repr, Inhabited

namespace Code

/-- The interface a type is, or that pointers of the type end at. -/
def endInterface? (c : Code) : Ty → Option Nat
  | .pointer t => c.endInterface? t
  | .named i => if c.declarations.isInterface (.named i) then some i else none
  | _ => none

/-- Whether the type is one of pointers to interface values. -/
def isInterfacePointer (c : Code) : Ty → Bool
  | .pointer t => c.declarations.isInterface t
  | _ => false

/-- The type of a value of a function. -/
def typeIn? (c : Code) (f : Nat) : Value → Option Ty
  | .global g => (c.globals.lookup g).map .pointer
  | v => (c.functionD f).typeOf? v

/-- The variable for a value of a function, if it can hold interface
values. -/
def flowVar? (c : Code) (f : Nat) (v : Value) : Option FlowVar := do
  let t ← c.typeIn? f v
  let i ← c.endInterface? t
  if c.declarations.isInterface t || c.isInterfacePointer t then
    match v with
    | .global g => return .global g
    | v => return .value f v
  else return .behind i

/-- Whether the value of a variable can be that of another one at the same
time, so that what is stored through one is found through the other. -/
def isShared (c : Code) : FlowVar → Bool
  | .value f v => (c.typeIn? f v).any c.isInterfacePointer
  | .global _ | .behind _ => true
  | .field .. | .result _ => false

/-- The ways between two variables if the first is assigned to the second. -/
def assigned (c : Code) (source target : Option FlowVar) : List (FlowVar × FlowVar) :=
  match source, target with
  | some s, some t => (s, t) :: if c.isShared s && c.isShared t then [(t, s)] else []
  | _, _ => []

/-- The variable for a field. -/
def fieldVar? (c : Code) (struct field : Nat) : Option FlowVar := do
  let d ← c.declarations.named[struct]?
  match d.under with
  | .struct fields =>
    let t ← fields[field]?
    let _ ← c.endInterface? t
    return .field struct field
  | _ => none

/-- The variable for the result of a function. -/
def resultVar? (c : Code) (f : Nat) : Option FlowVar := do
  let _ ← c.endInterface? (← (c.functionD f).result)
  return .result f

/-- The ways a call opens: from the arguments to the parameters, and from
the result to the register of the call. Static calls list all arguments,
dynamic ones leave the receiver out. -/
def callWays (c : Code) (callees : List Nat) (f register : Nat) (callee : Callee)
    (args : List Value) : List (FlowVar × FlowVar) :=
  callees.flatMap fun g =>
    let params := (c.functionD g).params
    let params := match callee with
      | .static _ => params
      | .dynamic .. => params.drop 1
    ((params.zip args).flatMap fun ((x, _), a) =>
      c.assigned (c.flowVar? f a) (c.flowVar? g (.param x))) ++
    c.assigned (c.resultVar? g) (c.flowVar? f (.register register))

/-- The ways an instruction of a function opens; `callees` are those of its
calls, by the register of the call. -/
def ways (c : Code) (callees : Nat → List Nat) (f : Nat) : Instruction → List (FlowVar × FlowVar)
  | .create _ | .box .. | .ret none => []
  | .convert dst v | .assertType dst v _ =>
    c.assigned (c.flowVar? f v) (c.flowVar? f (.register dst))
  | .fieldAddress dst _ struct field =>
    match c.fieldVar? struct field, c.flowVar? f (.register dst) with
    | some x, some a => [(x, a), (a, x)]
    | _, _ => []
  | .load dst a => c.assigned (c.flowVar? f a) (c.flowVar? f (.register dst))
  | .store a v => c.assigned (c.flowVar? f v) (c.flowVar? f a)
  | .call dst callee args => c.callWays (callees dst) f dst callee args
  | .ret (some v) => c.assigned (c.flowVar? f v) (c.resultVar? f)

/-- The variables that a variable flows to along ways, itself included. -/
def flow (ways : List (FlowVar × FlowVar)) (x : FlowVar) : List FlowVar :=
  explore (fun y => (ways.filter (·.1 == y)).map (·.2)) ways.length [x]

end Code

end Source

end PointsTo
