import Mathlib.Data.List.Basic
import Mathlib.Logic.Relation
import PointsTo.Proofs.Tables
/-!
# Checked accesses, and loops without a bound

Elsewhere a table is read with a default and changed only where it has an
entry, and a loop has fuel. Here both can go wrong: an access to an entry
that is not there is a fault (`entryAt`, `changeAt`), and a loop is what its
rounds do (`Loops`), so that saying that it is left after some rounds is
saying that it ends. `exists_loops` is how to show this: count the rounds
in an invariant that bounds them.
-/

namespace PointsTo

/-! ## Accesses -/

section Accesses

variable {α : Type} {xs ys : Array α} {i : Int} {a : α}

/-- The entry of a table. That there is none is a fault. -/
def entryAt (xs : Array α) (i : Int) : Except Fault α :=
  match slot? xs i with
  | some a => .ok a
  | none => .error .outOfRange

/-- Changes an entry of a table. That there is none is a fault. -/
def changeAt (xs : Array α) (i : Int) (f : α → α) : Except Fault (Array α) :=
  match slot? xs i with
  | some _ => .ok (xs.modify i.toNat f)
  | none => .error .outOfRange

theorem entryAt_eq (h : slot? xs i = some a) : entryAt xs i = .ok a := by
  rw [entryAt, h]

theorem changeAt_eq (f : α → α) (h : slot? xs i = some a) :
    changeAt xs i f = .ok (xs.modify i.toNat f) := by
  rw [changeAt, h]

/-- What a table holds once an entry of it has been changed. -/
theorem slot?_changed (f : α → α) (h : slot? xs i = some a) (j : Int) :
    slot? (xs.modify i.toNat f) j = if j = i then some (f a) else slot? xs j := by
  rw [slot?_modify (slot?_eq_some.1 h).1]
  by_cases hj : j = i
  · rw [if_pos hj, if_pos hj, hj, h, Option.map_some]
  · rw [if_neg hj, if_neg hj]

/-- Tables with the same entries are one table. -/
theorem eq_of_slot? (h : ∀ j : Int, slot? xs j = slot? ys j) : xs = ys := by
  refine Array.ext_getElem? fun k => ?_
  simpa [slot?] using h k

end Accesses

/-! ## Loops over a list -/

/-- **A loop whose rounds do not fail does not fail**, and keeps what its
rounds keep. The invariant speaks of the elements that have been run
through, in order. -/
theorem foldlM_run {ε α β : Type} {f : β → α → Except ε β} {l : List α} {b : β}
    (P : List α → β → Prop) (hstart : P [] b)
    (hstep : ∀ done x s, (∃ rest, l = done ++ x :: rest) → P done s →
      ∃ s', f s x = .ok s' ∧ P (done ++ [x]) s') :
    ∃ t, l.foldlM f b = .ok t ∧ P l t := by
  have key : ∀ (todo done : List α) (s : β), l = done ++ todo → P done s →
      ∃ t, todo.foldlM f s = .ok t ∧ P l t := by
    intro todo
    induction todo with
    | nil =>
      intro done s hl hs
      rw [List.append_nil] at hl
      exact ⟨s, rfl, hl ▸ hs⟩
    | cons x todo ih =>
      intro done s hl hs
      obtain ⟨s', hs', hP⟩ := hstep done x s ⟨todo, hl⟩ hs
      obtain ⟨t, ht, hPt⟩ := ih (done ++ [x]) s' (by rw [hl]; simp) hP
      exact ⟨t, by rw [List.foldlM_cons, hs']; exact ht, hPt⟩
  exact key l [] b rfl hstart

/-! ## Loops without a bound -/

/-- **A run of a loop**: from `s` it makes `n` rounds, none of which fails, and
is left in `t`. A round that gives no state leaves the loop. -/
inductive Loops {σ : Type} (round : σ → Except Fault (Option σ)) : Nat → σ → σ → Prop
  | leave {s : σ} (h : round s = .ok none) : Loops round 0 s s
  | next {s s' t : σ} {n : Nat} (h : round s = .ok (some s')) (hrest : Loops round n s' t) :
      Loops round (n + 1) s t

section Loops

variable {σ : Type} {round : σ → Except Fault (Option σ)} {s s' t t' : σ} {n m : Nat}

/-- A loop is left in one state only, after one number of rounds. -/
theorem Loops.unique (h : Loops round n s t) (h' : Loops round m s t') : n = m ∧ t = t' := by
  induction h generalizing m with
  | leave h =>
    cases h' with
    | leave => exact ⟨rfl, rfl⟩
    | next h' =>
      rw [h] at h'
      cases h'
  | next h _ ih =>
    cases h' with
    | leave h' =>
      rw [h] at h'
      cases h'
    | next h' hrest' =>
      rw [h] at h'
      cases h'
      obtain ⟨rfl, rfl⟩ := ih hrest'
      exact ⟨rfl, rfl⟩

/-- Some rounds before a run. -/
theorem Loops.after (hrounds : Relation.ReflTransGen (fun s s' => round s = .ok (some s')) s s')
    (h : Loops round n s' t) : ∃ m, Loops round m s t := by
  induction hrounds using Relation.ReflTransGen.head_induction_on with
  | refl => exact ⟨n, h⟩
  | head hround _ ih =>
    obtain ⟨m, hm⟩ := ih
    exact ⟨m + 1, .next hround hm⟩

end Loops

/-- **A loop ends if its rounds can be counted**: the invariant holds of no more than
`bound` rounds, and each round either leaves the loop or adds one. -/
theorem exists_loops {σ : Type} (round : σ → Except Fault (Option σ)) (P : Nat → σ → Prop)
    (bound : Nat) (hbound : ∀ k s, P k s → k ≤ bound)
    (hround : ∀ k s, P k s → round s = .ok none ∨ ∃ s', round s = .ok (some s') ∧ P (k + 1) s')
    {k : Nat} {s : σ} (h : P k s) :
    ∃ n t, Loops round n s t ∧ round t = .ok none ∧ P (k + n) t := by
  induction hleft : bound - k generalizing k s with
  | zero =>
    -- there is no round left to make
    rcases hround k s h with hleave | ⟨s', -, h'⟩
    · exact ⟨0, s, .leave hleave, hleave, h⟩
    · have := hbound _ _ h'
      omega
  | succ left ih =>
    rcases hround k s h with hleave | ⟨s', hs', h'⟩
    · exact ⟨0, s, .leave hleave, hleave, h⟩
    · obtain ⟨n, t, hrun, hleave, ht⟩ := ih h' (by omega)
      exact ⟨n + 1, t, .next hs' hrun, hleave, by rwa [Nat.add_assoc, Nat.add_comm 1 n] at ht⟩

end PointsTo
