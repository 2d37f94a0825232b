import PointsTo.Source.Access
/-!
# Inclusion analysis

What the values of a source program can point to, whatever the order its
statements run in. Every instruction says that some set of objects is
included in another; the analysis is the least solution, found by looking
at all instructions again and again until nothing is added.

A small function without calls is looked at once more for each of its
static calls, so that its callers do not get each other's objects.
-/

namespace PointsTo

namespace Source

/-! ## Copies, objects and cells -/

/-- A copy of a function: the one its callers share, or the one that
belongs to a single call. A call is known by its caller and the register
of its result. -/
structure Contour where
  function : Nat
  site : Option (Nat × Nat) := none
  deriving DecidableEq, Repr, Inhabited

/-- What a value can point to. -/
inductive Object where
  /-- What a copy of a function makes for a register. -/
  | made (copy : Contour) (register : Nat)
  /-- A field of an object that was made. -/
  | field (copy : Contour) (register field : Nat)
  /-- The interface value of a register, with the struct it points to. -/
  | box (copy : Contour) (register struct : Nat)
  /-- A global variable. -/
  | global (name : String)
  deriving DecidableEq, Repr, Inhabited

/-- Where an object comes from: all copies of it have the same origin. -/
inductive Origin where
  | register (function n : Nat)
  | global (name : String)
  deriving DecidableEq, Repr, Inhabited

/-- The origin of an object. A field comes from where its object does. -/
def Object.origin : Object → Origin
  | made c n | field c n _ | box c n _ => .register c.function n
  | global name => .global name

/-- What holds pointers. -/
inductive Cell where
  | value (copy : Contour) (v : Value)
  | result (copy : Contour)
  | content (o : Object)
  deriving DecidableEq, Repr, Inhabited

/-- A call of a function. -/
structure Call where
  caller : Nat
  /-- The register of the result, which tells the calls of a function
  apart. -/
  register : Nat
  callee : Nat
  deriving DecidableEq, Repr, Inhabited

/-! ## Solutions -/

/-- A partial solution: the copies to look at, what is known to be included
in the cells, and the calls found. -/
structure Solution where
  contours : List Contour := []
  cells : Assoc Cell (List Object) := []
  calls : List Call := []
  deriving Repr, Inhabited

namespace Solution

/-- How much a solution holds. Every addition makes it larger. -/
def size (s : Solution) : Nat :=
  s.contours.length + (s.cells.flatMap (·.2)).length + s.calls.length

/-- What a cell holds. -/
def holds (s : Solution) (c : Cell) : List Object := s.cells.getD c []

/-- What a value of a copy points to. A global variable is its own
object. -/
def points (s : Solution) (k : Contour) : Value → List Object
  | .global name => [.global name]
  | v => s.holds (.value k v)

/-- Includes objects in a cell. -/
def put (s : Solution) (c : Cell) (os : List Object) : Solution :=
  let old := s.holds c
  match os.filter (!old.contains ·) with
  | [] => s
  | new => { s with cells := s.cells.set c (old ++ new.eraseDups) }

/-- Looks at a copy from now on. -/
def visit (s : Solution) (k : Contour) : Solution :=
  if k ∈ s.contours then s else { s with contours := s.contours ++ [k] }

/-- Notes a call. -/
def note (s : Solution) (c : Call) : Solution :=
  if c ∈ s.calls then s else { s with calls := s.calls ++ [c] }

/-- A copy of a function is called: its parameters include the arguments,
and the register of the call its results. -/
def enter (s : Solution) (caller callee : Contour) (register : Nat) (params : List String)
    (args : List (List Object)) : Solution :=
  let s := s.note ⟨caller.function, register, callee.function⟩
  let s := (params.zip args).foldl (fun s (x, os) => s.put (.value callee (.param x)) os) s
  s.put (.value caller (.register register)) (s.holds (.result callee))

end Solution

/-- Whether a function is looked at for each static call of it: it is short
and calls nothing. -/
def Function.isSmall (f : Function) : Bool :=
  f.instructions.length ≤ 10 && !f.instructions.any (·.isCall)

namespace Code

/-- The copy of a function that a static call goes to. -/
def contourOf (c : Code) (caller callee register : Nat) : Contour :=
  ⟨callee, if (c.functionD callee).isSmall then some (caller, register) else none⟩

/-- What an instruction of a copy adds to a solution. -/
def apply (c : Code) (k : Contour) (s : Solution) : Instruction → Solution
  | .create dst => s.put (.value k (.register dst)) [.made k dst]
  | .fieldAddress dst base _ field =>
    s.put (.value k (.register dst)) ((s.points k base).filterMap fun o =>
      match o with
      | .made j n => some (.field j n field)
      | _ => none)
  | .load dst address =>
    (s.points k address).foldl (fun s o =>
      s.put (.value k (.register dst)) (s.holds (.content o))) s
  | .store address value =>
    (s.points k address).foldl (fun s o => s.put (.content o) (s.points k value)) s
  | .box dst operand struct =>
    let o := Object.box k dst struct
    (s.put (.value k (.register dst)) [o]).put (.content o) (s.points k operand)
  | .convert dst operand => s.put (.value k (.register dst)) (s.points k operand)
  | .assertType dst operand target =>
    (s.points k operand).foldl (fun s o =>
      match o with
      | .box _ _ t =>
        if t = target then s.put (.value k (.register dst)) (s.holds (.content o))
        else if c.declarations.implements (.pointer (.named t)) (.named target) then
          s.put (.value k (.register dst)) [o]
        else s
      | _ => s) s
  | .call dst (.static callee) args =>
    let target := c.contourOf k.function callee dst
    (s.visit target).enter k target dst ((c.functionD callee).params.map (·.1))
      (args.map (s.points k))
  | .call dst (.dynamic receiver _ method) args =>
    (s.points k receiver).foldl (fun s o =>
      match o with
      | .box _ _ t =>
        match c.methodOf? t method with
        | some callee =>
          (s.visit ⟨callee, none⟩).enter k ⟨callee, none⟩ dst
            ((c.functionD callee).params.map (·.1))
            (s.holds (.content o) :: args.map (s.points k))
        | none => s
      | _ => s) s
  | .ret (some value) => s.put (.result k) (s.points k value)
  | .ret none => s

/-- Looks at all instructions once. -/
def round (c : Code) (s : Solution) : Solution :=
  s.contours.foldl (fun s k => (c.functionD k.function).instructions.foldl (c.apply k) s) s

/-- Looks at all instructions until nothing is added, `fuel` times at
most. -/
def saturate (c : Code) : Nat → Solution → Solution
  | 0, s => s
  | fuel + 1, s =>
    let t := c.round s
    if t.size = s.size then s else saturate c fuel t

/-- The number of names, instructions and fields of a program. -/
def extent (c : Code) : Nat :=
  c.globals.length + (c.fieldNames.toList.flatMap id).length + c.functions.size +
    (c.functions.toList.flatMap (·.params)).length +
    (c.functions.toList.flatMap (·.instructions)).length

/-- More additions than a solution can take: the extent of a program bounds
its copies and what one of them has, objects are known by three such
numbers, and cells by no more. -/
def additions (c : Code) : Nat := 16 * Nat.pow (c.extent + 1) 6

/-- The least solution for the functions that a run can reach from the
roots; open methods count as reached. Without a main function there is
nothing to analyze. -/
def solution? (c : Code) : Option Solution :=
  match c.roots with
  | [] => none
  | roots =>
    some (c.saturate c.additions { contours := (roots ++ c.openMethods).map fun i => ⟨i, none⟩ })

end Code

namespace Solution

/-- The functions that were looked at. -/
def functions (s : Solution) : List Nat := (s.contours.map (·.function)).eraseDups

/-- What a value of a function points to in some copy of it. -/
def pointsTo (s : Solution) (function : Nat) (v : Value) : List Object :=
  ((s.contours.filter (·.function == function)).flatMap (s.points · v)).eraseDups

/-- What is stored where a value of a function points to. -/
def pointsToContent (s : Solution) (function : Nat) (v : Value) : List Object :=
  ((s.pointsTo function v).flatMap fun o => s.holds (.content o)).eraseDups

end Solution

end Source

end PointsTo
