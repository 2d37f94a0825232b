import PointsTo.Text.Category
/-!
# Types of source programs

The types of the Go language, as far as values can be stored in each
other: basic types, named types with their methods, and the types built
from them. Named types are known by their position in a list of
declarations, so two of them may share a name.
-/

namespace PointsTo

namespace Source

/-- Which way a channel goes. -/
inductive Direction where
  | both
  | send
  | receive
  deriving DecidableEq, Repr, Inhabited

/-- Whether a name is for other packages to use: it begins with a capital
letter. -/
def isExported (name : String) : Bool :=
  name.toList.head?.any fun c => Text.Category.ofChar c = .upperLetter

/-- A type. The methods of an interface are listed in order; a method is its
name, parameters and results. -/
inductive Ty where
  /-- A basic type that has a name. -/
  | basic (name : String)
  /-- The type of the value `nil`. -/
  | untypedNil
  /-- The predeclared interface of errors. -/
  | errorType
  /-- The empty interface, by its short name. -/
  | anyType
  | pointer (elem : Ty)
  | slice (elem : Ty)
  | array (length : Int) (elem : Ty)
  | map (key elem : Ty)
  | channel (dir : Direction) (elem : Ty)
  /-- The named type declared at that position. -/
  | named (index : Nat)
  | interface (methods : List (String × List Ty × List Ty))
  /-- A struct; its fields are called `f0`, `f1` and so on. -/
  | struct (fields : List Ty)
  | function (params results : List Ty)
  deriving Repr, Inhabited

/-- A method of a named type. -/
structure MethodDecl where
  name : String
  /-- The receiver is a pointer. -/
  byPointer : Bool
  params : List Ty
  results : List Ty
  deriving Repr, Inhabited

/-- A named type. -/
structure NamedDecl where
  name : String
  under : Ty
  methods : List MethodDecl
  deriving Repr, Inhabited

/-- The declarations named types refer to, and the package they are in. -/
structure Declarations where
  package : String
  named : Array NamedDecl
  deriving Repr, Inhabited

/-- Whether a method comes no later than another: those for other packages
to use come first, and each kind by name. -/
def methodOrder (a b : String) : Bool :=
  if isExported a = isExported b then !(b < a) else isExported a

/-- An interface with the given methods. -/
def Ty.interfaceOf (methods : List (String × List Ty × List Ty)) : Ty :=
  .interface (methods.mergeSort fun a b => methodOrder a.1 b.1)

/-! ## Identity -/

/-- The basic types with two names. -/
def aliases : List (String × String) := [("byte", "uint8"), ("rune", "int32")]

/-- The main name of a basic type. -/
def mainName (name : String) : String := (aliases.lookup name).getD name

mutual

/-- Whether two types are the same. Named types are only the same as
themselves; all others are compared part by part. -/
def Ty.identical : Ty → Ty → Bool
  | .basic a, .basic b => mainName a == mainName b
  | .untypedNil, .untypedNil => true
  | .errorType, .errorType => true
  | .anyType, .anyType => true
  | .anyType, .interface ms | .interface ms, .anyType => ms.isEmpty
  | .pointer a, .pointer b => a.identical b
  | .slice a, .slice b => a.identical b
  | .array n a, .array m b => n == m && a.identical b
  | .map k a, .map l b => k.identical l && a.identical b
  | .channel d a, .channel e b => d == e && a.identical b
  | .named i, .named j => i == j
  | .interface ms, .interface ns => Ty.sameMethods ms ns
  | .struct xs, .struct ys => Ty.allIdentical xs ys
  | .function ps rs, .function qs ss => Ty.allIdentical ps qs && Ty.allIdentical rs ss
  | _, _ => false

/-- Whether two lists of types are the same. -/
def Ty.allIdentical : List Ty → List Ty → Bool
  | [], [] => true
  | x :: xs, y :: ys => x.identical y && Ty.allIdentical xs ys
  | _, _ => false

/-- Whether two lists of methods are the same. -/
def Ty.sameMethods :
    List (String × List Ty × List Ty) → List (String × List Ty × List Ty) → Bool
  | [], [] => true
  | (m, ps, rs) :: ms, (n, qs, ss) :: ns =>
    m == n && Ty.allIdentical ps qs && Ty.allIdentical rs ss && Ty.sameMethods ms ns
  | _, _ => false

end

namespace Declarations

/-! ## Text -/

mutual

/-- A type as it is written in a program. -/
def text (d : Declarations) : Ty → String
  | .basic name => name
  | .untypedNil => "untyped nil"
  | .errorType => "error"
  | .anyType => "any"
  | .pointer t => "*" ++ text d t
  | .slice t => "[]" ++ text d t
  | .array n t => "[" ++ toString n ++ "]" ++ text d t
  | .map k t => "map[" ++ text d k ++ "]" ++ text d t
  | .channel .send t => "chan<- " ++ text d t
  | .channel .receive t => "<-chan " ++ text d t
  | .channel .both (.channel .receive t) => "chan (<-chan " ++ text d t ++ ")"
  | .channel .both t => "chan " ++ text d t
  | .named i => d.package ++ "." ++ ((d.named[i]?).map (·.name)).getD ""
  | .interface ms => "interface\x7b" ++ methodsText d ms ++ "\x7d"
  | .struct ts => "struct\x7b" ++ fieldsText d 0 ts ++ "\x7d"
  | .function ps rs => "func(" ++ listText d ps ++ ")" ++ resultsText d rs

/-- Types separated by commas. -/
def listText (d : Declarations) : List Ty → String
  | [] => ""
  | [t] => text d t
  | t :: ts => text d t ++ ", " ++ listText d ts

/-- The results of a function: one of them stands alone. -/
def resultsText (d : Declarations) : List Ty → String
  | [] => ""
  | [t] => " " ++ text d t
  | t :: ts => " (" ++ text d t ++ ", " ++ listText d ts ++ ")"

/-- The fields of a struct, from number `i` on. -/
def fieldsText (d : Declarations) (i : Nat) : List Ty → String
  | [] => ""
  | [t] => "f" ++ toString i ++ " " ++ text d t
  | t :: ts => "f" ++ toString i ++ " " ++ text d t ++ "; " ++ fieldsText d (i + 1) ts

/-- The methods of an interface. -/
def methodsText (d : Declarations) : List (String × List Ty × List Ty) → String
  | [] => ""
  | [(m, ps, rs)] => m ++ "(" ++ listText d ps ++ ")" ++ resultsText d rs
  | (m, ps, rs) :: ms =>
    m ++ "(" ++ listText d ps ++ ")" ++ resultsText d rs ++ "; " ++ methodsText d ms

end

/-! ## Underlying types -/

/-- The type behind a name that goes without declaration. -/
def predeclared : Ty → Ty
  | .errorType => .interface [("Error", [], [.basic "string"])]
  | .anyType => .interface []
  | t => t

/-- The type behind a name. -/
def under (d : Declarations) : Ty → Ty
  | .named i => predeclared (((d.named[i]?).map (·.under)).getD .untypedNil)
  | t => predeclared t

/-- Whether a type has a name of its own. -/
def hasName : Ty → Bool
  | .basic _ | .untypedNil | .named _ | .errorType => true
  | _ => false

/-- Whether a type is an interface. -/
def isInterface (d : Declarations) (t : Ty) : Bool :=
  match d.under t with
  | .interface _ => true
  | _ => false

/-- Whether values of a type can point to something. -/
def canPoint (d : Declarations) (t : Ty) : Bool :=
  match d.under t with
  | .pointer _ | .interface _ | .map .. | .channel .. | .function .. | .slice _ => true
  | _ => false

/-- Whether `nil` is a value of a type. -/
def hasNil (d : Declarations) (t : Ty) : Bool :=
  d.canPoint t ||
    match d.under t with
    | .basic name => name == "unsafe.Pointer"
    | _ => false

/-! ## Methods -/

/-- The methods of the named type at a position, by name; the first of a
name counts. -/
def method? (d : Declarations) (i : Nat) (name : String) : Option MethodDecl :=
  (d.named[i]?).bind fun n => n.methods.find? (·.name == name)

/-- The parameters and results of the method that values of a type have by
that name. A method of a pointer is not one of the value, and a pointer to
an interface has no methods. -/
def methodOf? (d : Declarations) (t : Ty) (name : String) : Option (List Ty × List Ty) :=
  let fromInterface (t : Ty) : Option (List Ty × List Ty) :=
    match d.under t with
    | .interface ms => ms.lookup name
    | _ => none
  match t with
  | .pointer (.named i) =>
    if d.isInterface (.named i) then none
    else (d.method? i name).map fun m => (m.params, m.results)
  | .pointer _ => none
  | .named i =>
    if d.isInterface t then fromInterface t
    else (d.method? i name).bind fun m => if m.byPointer then none else some (m.params, m.results)
  | t => fromInterface t

/-- Whether a type has all methods of an interface. -/
def implements (d : Declarations) (v t : Ty) : Bool :=
  match d.under t with
  | .interface ms =>
    ms.all fun (name, ps, rs) =>
      match d.methodOf? v name with
      | some (qs, ss) => Ty.allIdentical qs ps && Ty.allIdentical ss rs
      | none => false
  | _ => false

/-! ## Assignability -/

/-- Whether a channel that goes both ways can be used as another. -/
def channelFits (d : Declarations) (v t : Ty) : Bool :=
  match d.under v, d.under t with
  | .channel .both a, .channel _ b => a.identical b && (!hasName v || !hasName t)
  | _, _ => false

/-- Whether a value of type `v` can be stored in a variable of type `t`:
the types are the same, the value is nil, one of them has no name and they
are the same behind the name, the value implements the interface, or it is
a channel that goes both ways. -/
def assignable (d : Declarations) (v t : Ty) : Bool :=
  if v.identical t then true
  else
    match v with
    | .untypedNil => d.hasNil t
    | _ =>
      ((d.under v).identical (d.under t) && (!hasName v || !hasName t)) ||
        (if d.isInterface t then d.implements v t else d.channelFits v t)

end Declarations

end Source

end PointsTo
