import Mathlib.Algebra.GroupWithZero.Nat
import Mathlib.Data.List.Basic
import Mathlib.Logic.Relation
import PointsTo.CallGraph.Basic
/-!
# Reachability

The closure of a successor function, and the traversal that computes it.
`mem_explore` says that exploring finds the closure of the starting points
and nothing else, as long as the bound on the arcs is one: the visits are
paid for by the arcs out of the points visited so far.
-/

namespace PointsTo

/-- `b` can be reached from `a` along a successor function. -/
abbrev Reaches {α : Type} (next : α → List α) : α → α → Prop :=
  Relation.ReflTransGen fun a b => b ∈ next a

namespace Reaches

variable {α : Type} {next : α → List α} {a b : α}

/-- A set closed under successors is closed under reachability. -/
theorem mem_of_closed {S : α → Prop} (hS : ∀ x y, S x → y ∈ next x → S y)
    (h : Reaches next a b) (ha : S a) : S b := by
  induction h with
  | refl => exact ha
  | tail _ hstep ih => exact hS _ _ ih hstep

/-- One step, then the rest of the way. -/
theorem iff_eq_or_head : Reaches next a b ↔ b = a ∨ ∃ x ∈ next a, Reaches next x b :=
  Relation.ReflTransGen.cases_head_iff.trans (by rw [eq_comm])

end Reaches

/-! ## Arcs -/

/-- Entries that are looked up under distinct keys are met once: they weigh no more
than all entries together. -/
theorem sum_filter_le {α κ : Type} [DecidableEq κ] (key : α → κ) (weight : α → Nat)
    {xs : List κ} (hxs : xs.Nodup) : ∀ l : List α,
      (xs.map fun x => ((l.filter (key · == x)).map weight).sum).sum ≤ (l.map weight).sum := by
  induction xs with
  | nil => simp
  | cons x xs ih =>
    intro l
    obtain ⟨hx, hxs⟩ := List.nodup_cons.1 hxs
    -- the entries of the other keys are among those that `x` leaves over
    have hrest : (xs.map fun y => ((l.filter (key · == y)).map weight).sum) =
        xs.map fun y => (((l.filter (key · != x)).filter (key · == y)).map weight).sum := by
      refine List.map_congr_left fun y hy => ?_
      rw [List.filter_filter]
      congr 2
      refine List.filter_congr fun a _ => ?_
      have hyx : y ≠ x := fun h => hx (h ▸ hy)
      by_cases hay : key a = y <;> simp [hay, hyx]
    have hle := ih hxs (l.filter (key · != x))
    have hsplit := ((List.filter_append_perm (key · == x) l).map weight).sum_nat
    rw [List.map_append, List.sum_append] at hsplit
    rw [List.map_cons, List.sum_cons, hrest]
    exact hsplit ▸ Nat.add_le_add_left hle _

/-! ## Exploring -/

section Explore

variable {α : Type} [DecidableEq α] {next : α → List α} {arcs : Nat}

omit [DecidableEq α] in
/-- A pending point that has been seen leads nowhere that the others do not lead to, if
what the seen points lead to is seen or pending. -/
theorem reached_cons_of_seen {x y : α} {pending seen : List α} (hx : x ∈ seen)
    (hclosed : ∀ a ∈ seen, ∀ z ∈ next a, z ∈ seen ∨ z ∈ pending) :
    (y ∈ seen ∨ ∃ a ∈ x :: pending, Reaches next a y) ↔
      y ∈ seen ∨ ∃ a ∈ pending, Reaches next a y := by
  have hfrom : Reaches next x y → y ∈ seen ∨ ∃ a ∈ pending, Reaches next a y := by
    intro h
    refine h.mem_of_closed (S := fun z => z ∈ seen ∨ ∃ b ∈ pending, Reaches next b z) ?_ (.inl hx)
    rintro u z (hu | ⟨b, hb, hbu⟩) hz
    · exact (hclosed u hu z hz).imp id fun h => ⟨z, h, .refl⟩
    · exact .inr ⟨b, hb, hbu.tail hz⟩
  rw [List.exists_mem_cons_iff]
  exact ⟨fun h => h.elim .inl fun h => h.elim hfrom .inr, fun h => h.imp id .inr⟩

/-- **What the traversal finds from any point of it on**: what it has seen,
and what the pending points reach. The fuel covers the pending points and
the arcs of the points it has not seen. -/
theorem mem_exploreFrom (hbound : ∀ xs : List α, xs.Nodup → (xs.flatMap next).length ≤ arcs)
    {y : α} : ∀ (fuel : Nat) (pending seen : List α),
    pending.length + arcs ≤ fuel + (seen.flatMap next).length → seen.Nodup →
    (∀ x ∈ seen, ∀ z ∈ next x, z ∈ seen ∨ z ∈ pending) →
    (y ∈ exploreFrom next fuel pending seen ↔
      y ∈ seen ∨ ∃ x ∈ pending, Reaches next x y) := by
  intro fuel
  induction fuel with
  | zero =>
    intro pending seen hfuel hnodup _
    -- all arcs have been followed, so nothing can be pending
    have hle := hbound seen hnodup
    have hnil : pending = [] := List.length_eq_zero_iff.1 (by omega)
    simp [exploreFrom, hnil]
  | succ fuel ih =>
    intro pending seen hfuel hnodup hclosed
    match pending with
    | [] => simp [exploreFrom]
    | x :: pending =>
      rw [List.length_cons] at hfuel
      by_cases hx : x ∈ seen
      · have hclosed' : ∀ a ∈ seen, ∀ z ∈ next a, z ∈ seen ∨ z ∈ pending := by
          intro a ha z hz
          obtain hz | hz := hclosed a ha z hz
          · exact .inl hz
          · exact (List.mem_cons.1 hz).imp (by rintro rfl; exact hx) id
        rw [exploreFrom, if_pos hx, ih pending seen (by omega) hnodup hclosed',
          reached_cons_of_seen hx hclosed']
      · have hseen : (seen ++ [x]).Nodup :=
          List.nodup_append.2 ⟨hnodup, by simp, by rintro a ha b hb rfl; simp_all⟩
        have hclosed' : ∀ a ∈ seen ++ [x], ∀ z ∈ next a,
            z ∈ seen ++ [x] ∨ z ∈ next x ++ pending := by
          intro a ha z hz
          rcases List.mem_append.1 ha with ha | ha
          · rcases hclosed a ha z hz with h | h
            · exact .inl (List.mem_append_left _ h)
            · rcases List.mem_cons.1 h with rfl | h
              · exact .inl (by simp)
              · exact .inr (List.mem_append_right _ h)
          · rw [List.mem_singleton.1 ha] at hz
            exact .inr (List.mem_append_left _ hz)
        have hfuel' : (next x ++ pending).length + arcs ≤
            fuel + ((seen ++ [x]).flatMap next).length := by
          simp only [List.flatMap_append, List.flatMap_singleton, List.length_append]
          omega
        rw [exploreFrom, if_neg hx, ih _ _ hfuel' hseen hclosed']
        simp only [List.mem_append, List.mem_cons, List.not_mem_nil, or_false, or_and_right,
          exists_or, exists_eq_left, Reaches.iff_eq_or_head (a := x), or_assoc]

/-- **Exploring finds exactly what the starting points reach**, if `arcs`
bounds the number of arcs out of any distinct points. -/
theorem mem_explore (hbound : ∀ xs : List α, xs.Nodup → (xs.flatMap next).length ≤ arcs)
    {start : List α} {y : α} :
    y ∈ explore next arcs start ↔ ∃ x ∈ start, Reaches next x y := by
  rw [explore, mem_exploreFrom hbound _ _ _ (by simp) List.nodup_nil (by simp)]
  simp

end Explore

/-! ## Call graphs -/

namespace CallGraph

variable {g : CallGraph} {a b : MethodId}

/-- A method calls another along an edge. -/
theorem mem_successors : b ∈ g.successors a ↔ ∃ e ∈ g.edges, e.caller = a ∧ e.callee = b := by
  simp [successors, out, and_assoc]

/-- Distinct callers share no edge. -/
theorem length_flatMap_successors_le {xs : List MethodId} (hxs : xs.Nodup) :
    (xs.flatMap g.successors).length ≤ g.edges.size := by
  have hweight := sum_filter_le (fun e : Edge => e.caller) (fun _ => 1) hxs g.edges.toList
  simpa [List.length_flatMap, successors, out] using hweight

/-- What the root reaches is what the traversal of the graph finds. -/
theorem mem_explore_successors :
    b ∈ explore g.successors g.edges.size [a] ↔ Reaches g.successors a b := by
  rw [mem_explore fun _ => length_flatMap_successors_le]
  simp

end CallGraph

end PointsTo
