/-!
# Workers

A list of tasks is shared out among workers. Every worker keeps a state of
its own, and all of them see a common one. The results stay in the order
of the tasks.
-/

namespace PointsTo

namespace Workers

/-- How many workers take part: at least one, and no more than there are
tasks. -/
def count (asked : Int) (tasks : Nat) : Nat := min (max asked 1).toNat tasks

variable {α β σ τ : Type}

/-- Deals the tasks to the workers in turn, starting with the worker at
`next`. -/
def deal (run : α → σ → τ → β × σ × τ) : List α → Nat → Array σ → τ → List β × τ
  | [], _, _, shared => ([], shared)
  | a :: rest, next, own, shared =>
    match own[next]? with
    | none => ([], shared)
    | some s =>
      let (b, s, shared) := run a s shared
      let (bs, shared) := deal run rest ((next + 1) % own.size) (own.modify next fun _ => s) shared
      (b :: bs, shared)

/-- Runs the tasks with up to `workers` workers, each starting from
`start`. -/
def map (run : α → σ → τ → β × σ × τ) (workers : Int) (start : σ) (tasks : List α) (shared : τ) :
    List β × τ :=
  deal run tasks 0 (Array.replicate (count workers tasks.length) start) shared

end Workers

/-- The members of a set, given with whether they belong to it, in
increasing order. -/
def membersInOrder {α : Type} (le : α → α → Bool) (set : List (α × Bool)) : List α :=
  ((set.filter (·.2)).map (·.1)).mergeSort le

end PointsTo
