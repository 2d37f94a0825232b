import PointsTo.CallGraph.Search
import PointsTo.Proofs.Condensation
/-!
# Paths between components

The paths of edges between components from a method to the component of a
target, once as a relation, `Leads`, and once as a list in depth-first
order, `allPaths`. No path is longer than the order of the condensation,
because every edge leads further along it: this is what makes the list
complete, and free of a bound on its depth.
-/

namespace PointsTo

namespace Condensation

/-- The edges leaving the component of a representative, in order. -/
def edgesFrom (c : Condensation) (g : CallGraph) (r : MethodId) : List Edge :=
  (c.outOf r).filterMap (g.edges[·]?)

/-- The path of edges between components leads from the method to the first
method that lies in the component of the target. -/
inductive Leads (c : Condensation) (g : CallGraph) (target : MethodId) :
    MethodId → List Edge → Prop
  | here {m : MethodId} (h : c.repD m = c.repD target) : Leads c g target m []
  | step {m : MethodId} {e : Edge} {p : List Edge} (h : c.repD m ≠ c.repD target)
      (he : e ∈ c.edgesFrom g (c.repD m)) (hp : Leads c g target e.callee p) :
      Leads c g target m (e :: p)

/-- The paths to the component of the target along at most `fuel` edges, in
depth-first order. -/
def pathsWithin (c : Condensation) (g : CallGraph) (target : MethodId) :
    Nat → MethodId → List (List Edge)
  | 0, m => if c.repD m = c.repD target then [[]] else []
  | fuel + 1, m =>
    if c.repD m = c.repD target then [[]]
    else (c.edgesFrom g (c.repD m)).flatMap fun e =>
      (pathsWithin c g target fuel e.callee).map (e :: ·)

/-- All paths to the component of the target, in depth-first order. -/
def allPaths (c : Condensation) (g : CallGraph) (target m : MethodId) : List (List Edge) :=
  c.pathsWithin g target c.size m

/-- How many components come after that of the method, itself included. -/
def height (c : Condensation) (m : MethodId) : Nat := c.order.length - c.order.idxOf (c.repD m)

/-- Only the component of the starting method matters. -/
theorem Leads.congr {c : Condensation} {g : CallGraph} {target a b : MethodId} {p : List Edge}
    (hab : c.repD a = c.repD b) (h : c.Leads g target a p) : c.Leads g target b p := by
  cases h with
  | here h => exact .here (hab ▸ h)
  | step h he hp => exact .step (hab ▸ h) (hab ▸ he) hp

end Condensation

namespace Condensed

variable {g : CallGraph} {c : Condensation} (h : Condensed g c) {target : MethodId}

include h

theorem mem_edgesFrom {r : MethodId} {e : Edge} :
    e ∈ c.edgesFrom g r ↔ e ∈ g.edges ∧ c.isReachable e.caller ∧ c.repD e.caller = r ∧
      c.repD e.callee ≠ r := by
  simp only [Condensation.edgesFrom, List.mem_filterMap, h.mem_out]
  constructor
  · rintro ⟨i, ⟨e', he', hrest⟩, he⟩
    obtain rfl : e' = e := Option.some.inj (he'.symm.trans he)
    exact ⟨Array.mem_of_getElem? he, hrest⟩
  · rintro ⟨he, hrest⟩
    obtain ⟨i, hi⟩ := Array.mem_iff_getElem?.1 he
    exact ⟨i, ⟨e, hi, hrest⟩, hi⟩

/-- An edge between components leads on from a method that is reachable, to
one that is. -/
theorem edgesFrom_spec {m : MethodId} {e : Edge} (he : e ∈ c.edgesFrom g (c.repD m)) :
    e ∈ g.edges ∧ c.isReachable e.caller ∧ c.isReachable e.callee ∧
      c.repD e.caller = c.repD m ∧ c.repD e.callee ≠ c.repD m := by
  obtain ⟨hmem, hreach, hfrom, hto⟩ := h.mem_edgesFrom.1 he
  exact ⟨hmem, hreach, h.isReachable_callee hmem hreach, hfrom, hto⟩

theorem edgesFrom_nodup (r : MethodId) : (c.edgesFrom g r).Nodup := by
  refine (h.out_nodup r).filterMap fun i j e hi hj => ?_
  -- two positions of one edge would be two edges of one call site
  have hi' := Array.getElem?_eq_some_iff.1 hi
  have hj' := Array.getElem?_eq_some_iff.1 hj
  obtain ⟨hilt, hie⟩ := hi'
  obtain ⟨hjlt, hje⟩ := hj'
  have hinj := List.nodup_iff_injective_getElem.1 h.wellFormed.distinct
  have := @hinj ⟨i, by simpa using hilt⟩ ⟨j, by simpa using hjlt⟩ (by simp [hie, hje])
  simpa using this

theorem order_length_le : c.order.length ≤ c.size := by
  rw [h.size, ← CallGraph.length_methods]
  refine (h.order_nodup.subperm fun r hr => ?_).length_le
  exact CallGraph.mem_methods.2 (h.hasMethod r ((h.mem_order r).1 hr).1)

theorem height_le (m : MethodId) : c.height m ≤ c.size :=
  Nat.le_trans (Nat.sub_le ..) h.order_length_le

/-- **An edge between components leads further along the order.** -/
theorem height_lt {m : MethodId} {e : Edge} (he : e ∈ c.edgesFrom g (c.repD m)) :
    c.height e.callee < c.height m := by
  obtain ⟨hmem, hreach, hreach', hfrom, hto⟩ := h.edgesFrom_spec he
  have hsorted := h.sorted e hmem hreach (by rw [hfrom]; exact Ne.symm hto)
  rw [hfrom] at hsorted
  have hm := h.hasMethod _ hreach'
  have hin : c.repD e.callee ∈ c.order :=
    (h.mem_order _).2 ⟨(h.isReachable_repD hm).2 hreach', h.repD_repD hm⟩
  have := List.idxOf_lt_length_iff.2 hin
  rw [Condensation.height, Condensation.height]
  omega

theorem rank_lt_callee {m : MethodId} {e : Edge} (he : e ∈ c.edgesFrom g (c.repD m)) :
    c.rankOf m < c.rankOf e.callee := by
  obtain ⟨hmem, hreach, -, hfrom, hto⟩ := h.edgesFrom_spec he
  have hlt := h.rank_lt e hmem hreach (by rw [hfrom]; exact Ne.symm hto)
  rwa [Condensation.rankOf, hfrom] at hlt

/-- **Ranks do not go down along a path.** -/
theorem rank_le_of_leads {m : MethodId} {p : List Edge} (hp : c.Leads g target m p) :
    c.rankOf m ≤ c.rankOf target := by
  induction hp with
  | here hm => exact Nat.le_of_eq (by rw [Condensation.rankOf, hm, Condensation.rankOf])
  | step _ he _ ih => exact Nat.le_trans (Nat.le_of_lt (h.rank_lt_callee he)) ih

/-! ## The list of all paths -/

/-- A depth that covers the components further along covers all paths. -/
theorem pathsWithin_eq {m : MethodId} : ∀ {n k : Nat}, c.height m ≤ n → c.height m ≤ k →
    c.pathsWithin g target n m = c.pathsWithin g target k m := by
  intro n
  induction n generalizing m with
  | zero =>
    intro k hn _
    have hnil : c.edgesFrom g (c.repD m) = [] :=
      List.eq_nil_iff_forall_not_mem.2 fun e he => by have := h.height_lt he; omega
    cases k with
    | zero => rfl
    | succ k => simp [Condensation.pathsWithin, hnil]
  | succ n ih =>
    intro k hn hk
    cases k with
    | zero =>
      have hnil : c.edgesFrom g (c.repD m) = [] :=
        List.eq_nil_iff_forall_not_mem.2 fun e he => by have := h.height_lt he; omega
      simp [Condensation.pathsWithin, hnil]
    | succ k =>
      rw [Condensation.pathsWithin, Condensation.pathsWithin]
      refine if_congr Iff.rfl rfl (List.flatMap_congr fun e he => ?_)
      -- each edge uses up one unit of depth, and one component of the order
      have := h.height_lt he
      rw [ih (k := k) (by omega) (by omega)]

/-- **The list of all paths follows the edges**, without a bound. -/
theorem allPaths_eq (m : MethodId) : c.allPaths g target m =
    if c.repD m = c.repD target then [[]]
    else (c.edgesFrom g (c.repD m)).flatMap fun e =>
      (c.allPaths g target e.callee).map (e :: ·) := by
  have hle := h.height_le m
  rw [Condensation.allPaths, h.pathsWithin_eq hle (Nat.le_succ_of_le hle), Condensation.pathsWithin]
  rfl

/-- **The list holds the paths that lead to the target, and no other.** -/
theorem mem_allPaths {m : MethodId} {p : List Edge} :
    p ∈ c.allPaths g target m ↔ c.Leads g target m p := by
  induction hn : c.height m using Nat.strongRecOn generalizing m p with
  | ind n ih =>
    rw [h.allPaths_eq m]
    by_cases hm : c.repD m = c.repD target
    · rw [if_pos hm, List.mem_singleton]
      constructor
      · rintro rfl
        exact .here hm
      · intro hp
        cases hp with
        | here => rfl
        | step hne => exact absurd hm hne
    · rw [if_neg hm]
      simp only [List.mem_flatMap, List.mem_map]
      constructor
      · rintro ⟨e, he, q, hq, rfl⟩
        exact .step hm he ((ih _ (hn ▸ h.height_lt he) rfl).1 hq)
      · intro hp
        cases hp with
        | here hm' => exact absurd hm' hm
        | step _ he hq => exact ⟨_, he, _, (ih _ (hn ▸ h.height_lt he) rfl).2 hq, rfl⟩

/-- Every path is listed once. -/
theorem allPaths_nodup (m : MethodId) : (c.allPaths g target m).Nodup := by
  induction hn : c.height m using Nat.strongRecOn generalizing m with
  | ind n ih =>
    rw [h.allPaths_eq m]
    split
    · exact List.nodup_singleton _
    · refine List.nodup_flatMap.2 ⟨fun e he => ?_, ?_⟩
      · exact (ih _ (hn ▸ h.height_lt he) _ rfl).map fun a b hab => (List.cons.inj hab).2
      · refine (h.edgesFrom_nodup _).imp fun {e e'} hne => ?_
        refine List.disjoint_left.2 fun p hp hp' => hne ?_
        obtain ⟨q, -, rfl⟩ := List.mem_map.1 hp
        obtain ⟨q', -, heq⟩ := List.mem_map.1 hp'
        exact (List.cons.inj heq).1.symm

end Condensed

end PointsTo
