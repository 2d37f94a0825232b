import Mathlib.Data.List.Sort
import PointsTo.Digraph.Cycles
import PointsTo.Proofs.Components
/-!
# Graphs over distinct keys

What the theory of cycles reads of a graph. `Plain` is what a graph over
distinct keys and its sub-graphs have in common: the keys are listed in
increasing order, each once, and so are the ends of the arcs out of a key,
which are keys. `mem_succs_ofSuccessors` and `mem_succs_restrict` say which
arcs there are, and `lt_orderOf_iff` which keys count towards the order.
-/

namespace PointsTo

namespace Digraph

variable {g : Digraph} {ks : List Int} {a b k : Int}

/-! ## Keys in increasing order -/

@[simp] theorem mem_increasing : k ∈ increasing ks ↔ k ∈ ks := List.mem_mergeSort

theorem nodup_increasing (h : ks.Nodup) : (increasing ks).Nodup :=
  (List.mergeSort_perm ks _).nodup_iff.2 h

/-- Sorted keys without repetition grow. -/
theorem pairwise_increasing (h : ks.Nodup) : (increasing ks).Pairwise (· < ·) := by
  have hle : (increasing ks).Pairwise (· ≤ ·) := List.pairwise_mergeSort' (· ≤ ·) ks
  exact hle.imp₂ (fun _ _ hab hne => lt_of_le_of_ne hab hne) (nodup_increasing h)

/-- Growing keys are sorted. -/
theorem increasing_eq_self (h : ks.Pairwise (· < ·)) : increasing ks = ks :=
  List.mergeSort_eq_self (· ≤ ·) (h.imp le_of_lt)

/-- Nothing that was repeated is left. -/
theorem nodup_eraseDups : ∀ xs : List Int, xs.eraseDups.Nodup
  | [] => by simp
  | x :: xs => by
    rw [List.eraseDups_cons, List.nodup_cons]
    exact ⟨by simp, nodup_eraseDups _⟩
termination_by xs => xs.length
decreasing_by exact Nat.lt_succ_of_le (List.length_filter_le ..)

/-- What follows a key in increasing order is what is larger. -/
theorem drop_takeWhile_lt (hs : ks.Pairwise (· < ·)) (hk : k ∈ ks) :
    ks.drop ((ks.takeWhile (· < k)).length + 1) = ks.filter (k < ·) := by
  obtain ⟨l, r, rfl⟩ := List.append_of_mem hk
  obtain ⟨-, hr, hlr⟩ := List.pairwise_append.1 hs
  have hl : ∀ x ∈ l, x < k := fun x hx => hlr x hx k List.mem_cons_self
  have hr : ∀ x ∈ r, k < x := (List.pairwise_cons.1 hr).1
  have htake : (l ++ k :: r).takeWhile (· < k) = l := by
    rw [List.takeWhile_append_of_pos (by simpa using hl)]
    simp
  have hfilter : l.filter (k < ·) = [] :=
    List.filter_eq_nil_iff.2 fun x hx => by simpa using le_of_lt (hl x hx)
  rw [htake, List.filter_append, hfilter, List.filter_cons_of_neg (by simp),
    List.filter_eq_self.2 (by simpa using hr)]
  simp

/-- Every key in the range of 64-bit numbers counts towards the order but the largest
of these. -/
theorem lt_orderOf_iff (hks : ∀ k ∈ ks, k ≤ keyLimit) (hk : k ∈ ks) :
    k < orderOf ks ↔ k ≠ keyLimit := by
  have hrun : (orderOf ks : Int) ≤ keyLimit ∧ ∀ k ∈ ks, k ≠ keyLimit → k < orderOf ks := by
    refine foldl_run (fun done (order : Nat) => (order : Int) ≤ keyLimit ∧
      ∀ k ∈ done, k ≠ keyLimit → k < order) ⟨by decide, by simp⟩ ?_
    rintro done x order ⟨rest, hrest⟩ ⟨hle, hdone⟩
    have hx : x ≤ keyLimit := hks x (by rw [hrest]; simp)
    split
    · refine ⟨by omega, fun k hk hne => ?_⟩
      rcases List.mem_append.1 hk with hk | hk
      · have := hdone k hk hne
        omega
      · have := List.mem_singleton.1 hk
        omega
    · refine ⟨hle, fun k hk hne => ?_⟩
      rcases List.mem_append.1 hk with hk | hk
      · exact hdone k hk hne
      · have := List.mem_singleton.1 hk
        omega
  exact ⟨fun hlt heq => by omega, hrun.2 k hk⟩

/-! ## Plain graphs -/

/-- The keys are listed once and in increasing order, the ends of the arcs
out of a key are listed once, and arcs join keys. -/
structure Plain (g : Digraph) : Prop where
  sorted : g.keys.Pairwise (· < ·)
  nodup_targets : ∀ a, (g.targets a).Nodup
  mem_of_target : ∀ a, ∀ b ∈ g.targets a, a ∈ g.keys ∧ b ∈ g.keys

theorem Plain.nodup_keys (hg : g.Plain) : g.keys.Nodup := hg.sorted.imp fun h => ne_of_lt h

/-- Successors are the targets, in order. -/
theorem Plain.mem_succs (hg : g.Plain) : b ∈ g.succs a ↔ b ∈ g.targets a := by
  simp only [succs, mem_increasing, List.mem_flatMap, List.mem_filter, beq_iff_eq]
  constructor
  · rintro ⟨_, -, hb⟩
    exact hb
  · intro hb
    exact ⟨a, ⟨(hg.mem_of_target a b hb).1, rfl⟩, hb⟩

theorem Plain.hasArc_iff (hg : g.Plain) : g.hasArc a b ↔ b ∈ g.succs a := by
  rw [hg.mem_succs, hasArc, List.contains_iff_mem]

/-- An arc has both of its ends in the graph. -/
theorem Plain.mem_keys_of_succ (hg : g.Plain) (h : b ∈ g.succs a) : a ∈ g.keys ∧ b ∈ g.keys :=
  hg.mem_of_target a b (hg.mem_succs.1 h)

/-- The successors of a key are listed once. -/
theorem Plain.nodup_succs (hg : g.Plain) (a : Int) : (g.succs a).Nodup := by
  refine nodup_increasing ?_
  rw [List.filter_beq]
  have hcount := List.nodup_iff_count_le_one.1 hg.nodup_keys a
  rcases Nat.le_one_iff_eq_zero_or_eq_one.1 hcount with h | h
  · simp [h]
  · simpa [h] using hg.nodup_targets a

/-- What has been put into a table key by key. -/
theorem getD_foldl_set (f : Int → List Int) :
    Assoc.getD (ks.foldl (fun arcs k => arcs.set k (f k)) []) a [] =
      if a ∈ ks then f a else [] := by
  rw [Assoc.getD, get?_foldl_set]
  split <;> rfl

/-- **Successors outside of the keys are left out**, and repeated ones. -/
theorem targets_ofSuccessors (next : Int → List Int) (label : Int → String) :
    (ofSuccessors ks next label).targets a =
      if a ∈ ks then (next a).eraseDups.filter (· ∈ ks) else [] := by
  rw [targets, ofSuccessors]
  dsimp only
  rw [getD_foldl_set]
  simp

/-- So are they in a part of a graph. -/
theorem targets_restrict : (g.restrict ks).targets a =
    if a ∈ ks then (g.targets a).filter (· ∈ ks) else [] := by
  rw [targets, restrict]
  dsimp only
  rw [getD_foldl_set]
  simp

/-- A graph over distinct keys whose targets are taken from among them. -/
theorem plain_of_targets {T : Int → List Int} (hks : ks.Nodup) (hkeys : g.keys = increasing ks)
    (hT : ∀ a, (T a).Nodup)
    (htargets : ∀ a, g.targets a = if a ∈ ks then (T a).filter (· ∈ ks) else []) : g.Plain where
  sorted := hkeys ▸ pairwise_increasing hks
  nodup_targets a := by
    rw [htargets]
    split
    · exact (hT a).filter _
    · exact List.nodup_nil
  mem_of_target a b hb := by
    rw [htargets] at hb
    rw [hkeys]
    split at hb
    · next ha =>
      rw [List.mem_filter] at hb
      exact ⟨mem_increasing.2 ha, mem_increasing.2 (by simpa using hb.2)⟩
    · cases hb

/-- A graph over distinct keys. -/
theorem plain_ofSuccessors (hks : ks.Nodup) (next : Int → List Int) (label : Int → String) :
    (ofSuccessors ks next label).Plain :=
  plain_of_targets hks rfl (fun _ => nodup_eraseDups _) fun _ =>
    targets_ofSuccessors next label

/-- The arcs are those between keys. -/
theorem mem_succs_ofSuccessors (hks : ks.Nodup) {next : Int → List Int} {label : Int → String} :
    b ∈ (ofSuccessors ks next label).succs a ↔ a ∈ ks ∧ b ∈ ks ∧ b ∈ next a := by
  rw [(plain_ofSuccessors hks next label).mem_succs, targets_ofSuccessors]
  by_cases ha : a ∈ ks <;> simp [ha, and_comm]

/-- Leaving keys out of a graph keeps it plain. -/
theorem Plain.restrict (hg : g.Plain) (hks : ks.Nodup) : (g.restrict ks).Plain :=
  plain_of_targets hks rfl hg.nodup_targets fun _ => targets_restrict

/-- The arcs that are left are those between the keys that are. -/
theorem Plain.mem_succs_restrict (hg : g.Plain) (hks : ks.Nodup) :
    b ∈ (g.restrict ks).succs a ↔ b ∈ g.succs a ∧ a ∈ ks ∧ b ∈ ks := by
  rw [(hg.restrict hks).mem_succs, targets_restrict, hg.mem_succs]
  by_cases ha : a ∈ ks <;> simp [ha]

end Digraph

end PointsTo
