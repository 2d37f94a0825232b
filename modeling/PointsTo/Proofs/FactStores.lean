import Mathlib.Data.Finset.Dedup
import Mathlib.Data.Finset.Filter
import Mathlib.Data.List.Induction
import Mathlib.Data.List.Nodup
import Mathlib.Logic.Relation
import PointsTo.Facts
/-!
# Fact stores as sets of facts

A store keeps facts on the nodes that merges end in, and moves them when
these are merged in turn. What it stands for is simpler: the pairs that
were merged, and the facts that were added. `Describes` relates the two.
Every request keeps them related (`Describes.add`, `Describes.merge`,
`Describes.kill`), and from this the answers of a store after any requests
are read off (`run_describes`).
-/

namespace PointsTo

/-! ## Facts under an interval of contexts -/

namespace Fact

/-- The fact holds under some context of `[l, r)`. -/
def Meets (l r : Int64) (f : Fact) : Prop := ∃ x, f.lo ≤ x ∧ x < f.hi ∧ l ≤ x ∧ x < r

/-- The fact under the contexts it shares with `[l, r)`. -/
def within (l r : Int64) (f : Fact) : Fact := ⟨f.obj, max f.lo l, min f.hi r⟩

theorem toInt_max (a b : Int64) : (max a b).toInt = max a.toInt b.toInt := by
  change (if a ≤ b then b else a).toInt = _
  split <;> rw [Int64.le_iff_toInt_le] at * <;> omega

theorem toInt_min (a b : Int64) : (min a b).toInt = min a.toInt b.toInt := by
  change (if a ≤ b then a else b).toInt = _
  split <;> rw [Int64.le_iff_toInt_le] at * <;> omega

/-- **An interval meets another one** if the clipped one is not empty. -/
theorem meets_iff {l r : Int64} {f : Fact} : f.Meets l r ↔ max f.lo l < min f.hi r := by
  simp only [Meets, Int64.lt_iff_toInt_lt, Int64.le_iff_toInt_le, toInt_max, toInt_min]
  constructor
  · rintro ⟨x, hlo, hhi, hl, hr⟩
    omega
  · intro hlt
    refine ⟨max f.lo l, ?_⟩
    rw [toInt_max]
    omega

instance (l r : Int64) (f : Fact) : Decidable (f.Meets l r) := decidable_of_iff _ meets_iff.symm

/-- **A fact is clipped to the contexts it shares with an interval**, and dropped
if there are none. -/
theorem clip_eq (l r : Int64) (f : Fact) :
    f.clip l r = if f.Meets l r then some (f.within l r) else none := by
  have hlo : (if f.lo < l then l else f.lo) = max f.lo l := by
    rw [← Int64.toInt_inj, toInt_max]
    split <;> rw [Int64.lt_iff_toInt_lt] at * <;> omega
  have hhi : (if r < f.hi then r else f.hi) = min f.hi r := by
    rw [← Int64.toInt_inj, toInt_min]
    split <;> rw [Int64.lt_iff_toInt_lt] at * <;> omega
  rw [clip, hlo, hhi, within]
  exact if_congr meets_iff.symm rfl rfl

end Fact

/-! ## Where merges end -/

namespace FactStore

section Chains

variable {parent : Assoc NodeId NodeId} {n m p q r : NodeId} {j k : Nat}

/-- The merges of a node end in `r` after `k` steps. -/
inductive EndsIn (parent : Assoc NodeId NodeId) : NodeId → NodeId → Nat → Prop
  /-- A node that was not merged into any other. -/
  | root {r : NodeId} (h : parent.get? r = none) : EndsIn parent r r 0
  | step {n p r : NodeId} {k : Nat} (h : parent.get? n = some p) (hp : EndsIn parent p r k) :
      EndsIn parent n r (k + 1)

/-- **The merges of every node end.** -/
def Founded (parent : Assoc NodeId NodeId) : Prop := ∀ n, ∃ r k, EndsIn parent n r k

namespace EndsIn

/-- Where merges end nothing was merged any further. -/
theorem get?_root (h : EndsIn parent n r k) : parent.get? r = none := by
  induction h with
  | root h => exact h
  | step _ _ ih => exact ih

/-- **Merges end in one node**, after one number of steps. -/
theorem unique (h : EndsIn parent n r k) (h' : EndsIn parent n q j) : r = q ∧ k = j := by
  induction h generalizing j with
  | root h =>
    cases h' with
    | root => exact ⟨rfl, rfl⟩
    | step h' => rw [h] at h'; cases h'
  | step h _ ih =>
    cases h' with
    | root h' => rw [h'] at h; cases h
    | step h' hp' =>
      obtain rfl := Option.some.inj (h.symm.trans h')
      obtain ⟨rfl, rfl⟩ := ih hp'
      exact ⟨rfl, rfl⟩

theorem eq_of_get? (h : EndsIn parent n r k) (hn : parent.get? n = none) : n = r :=
  (unique (.root hn) h).1

/-- The nodes met on the way are different, and each has been merged. -/
theorem exists_path (h : EndsIn parent n r k) : ∃ path : List NodeId, path.length = k ∧
    path.Nodup ∧ path ⊆ parent.keys ∧ ∀ m ∈ path, ∃ j, j ≤ k ∧ EndsIn parent m r j := by
  induction h with
  | root h => exact ⟨[], rfl, List.nodup_nil, List.nil_subset _, by simp⟩
  | @step n p r k h hp ih =>
    obtain ⟨path, hlen, hnodup, hkeys, hends⟩ := ih
    have hnew : n ∉ path := by
      intro hmem
      obtain ⟨j, hj, hn⟩ := hends n hmem
      have := (unique hn (.step h hp)).2
      omega
    have hkey : n ∈ parent.keys := by
      obtain ⟨before, after, rfl, -⟩ := List.lookup_eq_some_iff.1 h
      simp [Assoc.keys]
    refine ⟨n :: path, by rw [List.length_cons, hlen], List.nodup_cons.2 ⟨hnew, hnodup⟩,
      List.cons_subset.2 ⟨hkey, hkeys⟩, ?_⟩
    intro m hm
    rcases List.mem_cons.1 hm with rfl | hm
    · exact ⟨k + 1, Nat.le_refl _, .step h hp⟩
    · obtain ⟨j, hj, hm⟩ := hends m hm
      exact ⟨j, by omega, hm⟩

/-- **There are no more steps than merges.** -/
theorem le_length (h : EndsIn parent n r k) : k ≤ parent.length := by
  obtain ⟨path, rfl, hnodup, hkeys, -⟩ := h.exists_path
  have hle := (List.subperm_of_subset hnodup hkeys).length_le
  rwa [Assoc.keys, List.length_map] at hle

/-- **Enough fuel leads to the end.** -/
theorem climb_eq (h : EndsIn parent n r k) {fuel : Nat} (hfuel : k ≤ fuel) :
    climb parent fuel n = r := by
  induction h generalizing fuel with
  | root h => cases fuel <;> simp [climb, h]
  | step h _ ih =>
    obtain ⟨fuel, rfl⟩ : ∃ f, fuel = f + 1 := ⟨fuel - 1, by omega⟩
    rw [climb, h]
    exact ih (by omega)

/-- The merges of a store are no longer than there are entries. -/
theorem root_eq {s : FactStore} (h : EndsIn s.parent n r k) : s.root n = r :=
  h.climb_eq h.le_length

/-- **A node is linked to one at the end of chains**, which is that of its own if it was
merged: the chains that ended in the node end there now, and the others where they
did. -/
theorem relink (hr : parent.get? r = none) (hne : n ≠ r)
    (hown : ∀ q j, EndsIn parent n q j → q = n ∨ q = r) (hm : EndsIn parent m q j) :
    ∃ j', EndsIn (parent.set n r) m (if q = n then r else q) j' := by
  have hrn : (parent.set n r).get? r = none := by rwa [Assoc.get?_set_ne _ _ hne.symm]
  have hlinked : EndsIn (parent.set n r) n r 1 := .step (Assoc.get?_set_self ..) (.root hrn)
  induction hm with
  | @root q h =>
    by_cases hq : q = n
    · rw [if_pos hq, hq]
      exact ⟨1, hlinked⟩
    · rw [if_neg hq]
      exact ⟨0, .root (by rwa [Assoc.get?_set_ne _ _ hq])⟩
  | @step m p q j h hp ih =>
    by_cases hmn : m = n
    · subst hmn
      have hend : (if q = m then r else q) = r := by
        obtain rfl | rfl := hown q _ (.step h hp)
        · exact if_pos rfl
        · exact if_neg hne.symm
      rw [hend]
      exact ⟨1, hlinked⟩
    · obtain ⟨j', hj'⟩ := ih
      exact ⟨j' + 1, .step (by rwa [Assoc.get?_set_ne _ _ hmn]) hj'⟩

/-- A node that was merged is linked to the end of its chain: all chains end where they
did. -/
theorem shortcut (hn : EndsIn parent n r k) (hne : n ≠ r) (hm : EndsIn parent m q j) :
    ∃ j', EndsIn (parent.set n r) m q j' := by
  have hqn : q ≠ n := fun heq => hne (hn.eq_of_get? (heq ▸ hm.get?_root))
  obtain ⟨j', hj'⟩ := relink hn.get?_root hne (fun q j hq => .inr (unique hq hn).1) hm
  exact ⟨j', by rwa [if_neg hqn] at hj'⟩

/-- A node at the end of chains is linked to another one: the chains that ended in it
end there now. -/
theorem link (hn : parent.get? n = none) (hr : parent.get? r = none) (hne : n ≠ r)
    (hm : EndsIn parent m q j) :
    ∃ j', EndsIn (parent.set n r) m (if q = n then r else q) j' :=
  relink hr hne (fun _ _ hq => .inl (hq.eq_of_get? hn).symm) hm

/-- **Compressing a path moves the end of no chain.** -/
theorem compress (hn : EndsIn parent n r k) (fuel : Nat) (hm : EndsIn parent m q j) :
    ∃ j', EndsIn (FactStore.compress r fuel n parent) m q j' := by
  induction fuel generalizing parent n k j with
  | zero => exact ⟨j, hm⟩
  | succ fuel ih =>
    unfold FactStore.compress
    split
    · exact ⟨j, hm⟩
    · next hne =>
      split
      · next p hp =>
        obtain ⟨j', hj'⟩ := hn.shortcut hne hm
        cases hn with
        | root h => exact absurd rfl hne
        | step h hrest =>
          obtain rfl := Option.some.inj (h.symm.trans hp)
          obtain ⟨k', hk'⟩ := (EndsIn.step h hrest).shortcut hne hrest
          exact ih hk' hj'
      · exact ⟨j, hm⟩

end EndsIn

/-- Every node is led to its root. -/
theorem Founded.endsIn {s : FactStore} (h : Founded s.parent) (n : NodeId) :
    ∃ k, EndsIn s.parent n (s.root n) k := by
  obtain ⟨r, k, hk⟩ := h n
  exact ⟨k, hk.root_eq ▸ hk⟩

/-- A root was not merged into any other node. -/
theorem Founded.get?_root {s : FactStore} (h : Founded s.parent) (n : NodeId) :
    s.parent.get? (s.root n) = none :=
  (h.endsIn n).elim fun _ hk => hk.get?_root

theorem Founded.root_root {s : FactStore} (h : Founded s.parent) (n : NodeId) :
    s.root (s.root n) = s.root n :=
  (EndsIn.root (h.get?_root n)).root_eq

theorem root_of_get? {s : FactStore} (h : s.parent.get? n = none) : s.root n = n :=
  (EndsIn.root h).root_eq

end Chains

/-! ## What the requests do -/

section Requests

variable {s : FactStore} {n m into : NodeId} {f : Fact}

/-- Finding a root leaves all of them, and all that is kept on them, as they are. -/
theorem find_spec (hs : Founded s.parent) (n : NodeId) :
    (s.find n).1 = s.root n ∧ Founded (s.find n).2.parent ∧
      (∀ m, (s.find n).2.root m = s.root m) ∧
      (s.find n).2.facts = s.facts ∧ (s.find n).2.dead = s.dead := by
  obtain ⟨k, hk⟩ := hs.endsIn n
  have hends : ∀ m, ∃ j, EndsIn (s.find n).2.parent m (s.root m) j := fun m =>
    (hs.endsIn m).elim fun _ hm => hk.compress _ hm
  exact ⟨rfl, fun m => ⟨_, hends m⟩, fun m => (hends m).elim fun _ hj => hj.root_eq, rfl, rfl⟩

theorem factsOf_congr {s' : FactStore} (h : s'.facts = s.facts) (n : NodeId) :
    s'.factsOf n = s.factsOf n := by
  rw [factsOf, factsOf, h]

/-- **A fact is put once**, at the end of those of its node. -/
theorem factsOf_put : (s.put n f).factsOf m =
    if m = n ∧ f ∉ s.factsOf n then s.factsOf n ++ [f] else s.factsOf m := by
  unfold put
  by_cases hf : f ∈ s.factsOf n
  · rw [if_pos hf, if_neg fun h => h.2 hf]
  · rw [if_neg hf]
    by_cases hm : m = n
    · rw [if_pos ⟨hm, hf⟩, hm]
      simp [factsOf, Assoc.getD]
    · rw [if_neg fun h => hm h.1, factsOf, Assoc.getD, Assoc.get?_set_ne _ _ hm]
      rfl

theorem parent_put : (s.put n f).parent = s.parent := by
  unfold put
  split <;> rfl

theorem dead_put : (s.put n f).dead = s.dead := by
  unfold put
  split <;> rfl

/-- It is there then, and nothing else is new. -/
theorem mem_factsOf_put {g : Fact} :
    g ∈ (s.put n f).factsOf m ↔ g ∈ s.factsOf m ∨ m = n ∧ g = f := by
  rw [factsOf_put]
  by_cases h : m = n ∧ f ∉ s.factsOf n
  · rw [if_pos h, h.1]
    simp
  · rw [if_neg h]
    refine ⟨.inl, ?_⟩
    rintro (hg | ⟨rfl, rfl⟩)
    · exact hg
    · exact Classical.not_not.1 fun hmem => h ⟨rfl, hmem⟩

theorem nodup_factsOf_put (h : ∀ m, (s.factsOf m).Nodup) (m : NodeId) :
    ((s.put n f).factsOf m).Nodup := by
  rw [factsOf_put]
  split
  · next hnew => exact List.nodup_append.2 ⟨h n, by simp, by grind⟩
  · exact h m

/-- Facts are handed over one by one to a node that merges end in. -/
theorem foldl_add (hn : s.parent.get? n = none) {fs : List Fact} (hfs : ∀ f ∈ fs, f.lo < f.hi) :
    fs.foldl (fun s f => s.add n f.obj f.lo f.hi) s = fs.foldl (fun s f => s.put n f) s := by
  induction fs generalizing s with
  | nil => rfl
  | cons f fs ih =>
    have hlt : ¬ f.hi ≤ f.lo := Int64.not_le.2 (hfs f (List.mem_cons_self ..))
    have hadd : s.add n f.obj f.lo f.hi = s.put n f := by
      have hfind : s.find n = (n, s) := by
        rw [find, root_of_get? hn]
        cases s.parent.length <;> simp [compress]
      rw [add, if_neg hlt, hfind]
    rw [List.foldl_cons, List.foldl_cons, hadd]
    exact ih (by rwa [parent_put]) fun g hg => hfs g (List.mem_cons_of_mem _ hg)

/-- What handing facts over does. -/
theorem foldl_put (n : NodeId) (fs : List Fact) (s : FactStore) :
    let s' := fs.foldl (fun s f => s.put n f) s
    s'.parent = s.parent ∧ s'.dead = s.dead ∧
      (∀ m g, g ∈ s'.factsOf m ↔ g ∈ s.factsOf m ∨ m = n ∧ g ∈ fs) ∧
      ((∀ m, (s.factsOf m).Nodup) → ∀ m, (s'.factsOf m).Nodup) := by
  induction fs generalizing s with
  | nil => exact ⟨rfl, rfl, by simp, fun h => h⟩
  | cons f fs ih =>
    obtain ⟨hparent, hdead, hmem, hnodup⟩ := ih (s.put n f)
    refine ⟨hparent.trans parent_put, hdead.trans dead_put, fun m g => ?_,
      fun h => hnodup (nodup_factsOf_put h)⟩
    rw [List.foldl_cons, hmem, mem_factsOf_put, List.mem_cons]
    tauto

/-- The facts of one node are taken away. -/
theorem factsOf_erase (s : FactStore) (n m : NodeId) :
    FactStore.factsOf { s with facts := s.facts.erase n } m =
      if m = n then [] else s.factsOf m := by
  rw [factsOf, factsOf, Assoc.getD, Assoc.getD]
  split
  · next h =>
    rw [h, Assoc.get?_erase_self]
    rfl
  · next h => rw [Assoc.get?_erase_ne _ h]

/-- **What a merge does**: the chains of `n` end where those of `into` do, and the facts
of `n` are there. -/
theorem merge_spec (hs : Founded s.parent) (hvalid : ∀ f ∈ s.factsOf (s.root n), f.lo < f.hi)
    (into : NodeId) :
    let s' := s.merge n into
    Founded s'.parent ∧ s'.dead = s.dead ∧
      (∀ m, s'.root m = if s.root m = s.root n then s.root into else s.root m) ∧
      (∀ m f, f ∈ s'.factsOf (s'.root m) ↔
        f ∈ s.factsOf (s'.root m) ∨ s'.root m = s.root into ∧ f ∈ s.factsOf (s.root n)) ∧
      ((∀ m, (s.factsOf m).Nodup) → ∀ m, (s'.factsOf m).Nodup) := by
  obtain ⟨hn, hfounded₁, hroot₁, hfacts₁, hdead₁⟩ := find_spec hs n
  obtain ⟨hinto, hfounded₂, hroot₂, hfacts₂, hdead₂⟩ := find_spec hfounded₁ into
  rw [hroot₁] at hinto
  have hroot : ∀ m, ((s.find n).2.find into).2.root m = s.root m :=
    fun m => (hroot₂ m).trans (hroot₁ m)
  have hkept := factsOf_congr (hfacts₂.trans hfacts₁)
  have hdead := hdead₂.trans hdead₁
  unfold merge
  simp only [hn, hinto]
  -- what is left of finding the two ends does not matter any more
  generalize ((s.find n).2.find into).2 = s₂ at hfounded₂ hroot hkept hdead
  by_cases hsame : s.root n = s.root into
  · rw [if_pos hsame]
    refine ⟨hfounded₂, hdead, fun m => ?_, fun m f => ?_, fun h m => hkept m ▸ h m⟩
    · rw [hroot]
      split
      · next h => exact h.trans hsame
      · rfl
    · rw [hkept, or_iff_left_of_imp]
      rintro ⟨h, hf⟩
      rwa [h, ← hsame]
  · rw [if_neg hsame]
    obtain ⟨hrn, hri⟩ : s₂.parent.get? (s.root n) = none ∧ s₂.parent.get? (s.root into) = none :=
      ⟨hroot n ▸ hfounded₂.get?_root n, hroot into ▸ hfounded₂.get?_root into⟩
    have hends : ∀ m, ∃ k, EndsIn (s₂.parent.set (s.root n) (s.root into)) m
        (if s.root m = s.root n then s.root into else s.root m) k := fun m => by
      obtain ⟨k, hk⟩ := hfounded₂.endsIn m
      exact hroot m ▸ hk.link hrn hri hsame
    rw [hkept, foldl_add (by rwa [Assoc.get?_set_ne _ _ (Ne.symm hsame)]) hvalid]
    obtain ⟨hparent, hdead', hmem, hnodup⟩ := foldl_put (s.root into) (s.factsOf (s.root n))
      { s₂ with parent := s₂.parent.set (s.root n) (s.root into) }
    dsimp only at hparent hdead' hmem hnodup ⊢
    generalize (s.factsOf (s.root n)).foldl _ _ = s₃ at hparent hdead' hmem hnodup
    have hroot' : ∀ m, FactStore.root { s₃ with facts := s₃.facts.erase (s.root n) } m =
        if s.root m = s.root n then s.root into else s.root m := fun m => by
      obtain ⟨k, hk⟩ := hends m
      exact (hparent ▸ hk : EndsIn s₃.parent m _ k).root_eq
    refine ⟨fun m => ⟨_, hparent ▸ hends m⟩, hdead'.trans hdead, hroot', fun m f => ?_,
      fun h m => ?_⟩
    · have hne : (if s.root m = s.root n then s.root into else s.root m) ≠ s.root n := by
        split
        · exact Ne.symm hsame
        · assumption
      rw [hroot', factsOf_erase, if_neg hne, hmem]
      exact or_congr_left (by rw [← hkept]; rfl)
    · rw [factsOf_erase]
      split
      · exact List.nodup_nil
      · exact hnodup (fun m => by have := h m; rwa [← hkept] at this) m

end Requests

/-! ## Stores and what was requested of them -/

/-- A request to a store. -/
inductive Request where
  | add (n obj : NodeId) (lo hi : Int64)
  | merge (n into : NodeId)
  | kill (n : NodeId)
  deriving DecidableEq, Repr

/-- The store after a request. -/
def Request.apply (s : FactStore) : Request → FactStore
  | add n obj lo hi => s.add n obj lo hi
  | merge n into => s.merge n into
  | kill n => s.kill n

/-- The store after some requests, the first of them made to the empty one. -/
def after (rs : List Request) : FactStore := rs.foldl Request.apply empty

/-- The last request is made on what the others have left. -/
theorem after_append (rs : List Request) (r : Request) : after (rs ++ [r]) = r.apply (after rs) :=
  List.foldl_append

/-- The nodes are connected by merged pairs. -/
def Connected (rs : List Request) : NodeId → NodeId → Prop :=
  Relation.EqvGen fun n into => .merge n into ∈ rs

/-- The fact was added to the node. An empty interval says nothing. -/
def Added (rs : List Request) (n : NodeId) (f : Fact) : Prop :=
  f.lo < f.hi ∧ .add n f.obj f.lo f.hi ∈ rs

/-- A node was killed while its merges ended in `r`. -/
def KilledAt (rs : List Request) (r : NodeId) : Prop :=
  ∃ before k later, rs = before ++ .kill k :: later ∧ (after before).root k = r

/-- **What holds of a store and the requests that were made to it.** -/
structure Describes (rs : List Request) (s : FactStore) : Prop where
  founded : Founded s.parent
  connected : ∀ a b, s.root a = s.root b ↔ Connected rs a b
  nodup : ∀ n, (s.factsOf n).Nodup
  facts : ∀ n f, f ∈ s.factsOf (s.root n) ↔ ∃ m, s.root m = s.root n ∧ Added rs m f
  dead : ∀ r, r ∈ s.dead ↔ KilledAt rs r

section Describes

variable {rs rs' : List Request} {s : FactStore} {a b n m obj into : NodeId} {lo hi : Int64}
  {f : Fact}

/-- Only merges connect nodes. -/
theorem connected_congr (h : ∀ a b, .merge a b ∈ rs' ↔ .merge a b ∈ rs) :
    Connected rs' a b ↔ Connected rs a b := by
  simp only [Connected, h]

theorem Connected.append (h : Connected rs a b) (rs' : List Request) :
    Connected (rs ++ rs') a b :=
  Relation.EqvGen.mono (fun _ _ hmem => List.mem_append_left _ hmem) _ _ h

/-- What merged nodes share, connected nodes do. -/
theorem Connected.eq {g : NodeId → NodeId} (h : Connected rs a b)
    (hg : ∀ a b, .merge a b ∈ rs → g a = g b) : g a = g b := by
  induction h with
  | rel a b hmem => exact hg a b hmem
  | refl => rfl
  | symm _ _ _ ih => exact ih.symm
  | trans _ _ _ _ _ ih ih' => exact ih.trans ih'

theorem connected_merge (n into : NodeId) : Connected (rs ++ [.merge n into]) n into :=
  .rel _ _ (List.mem_append_right _ (List.mem_singleton_self _))

/-- **An empty interval adds no fact.** -/
theorem added_append_add : Added (rs ++ [.add n obj lo hi]) m f ↔
    Added rs m f ∨ m = n ∧ f = ⟨obj, lo, hi⟩ ∧ lo < hi := by
  obtain ⟨o, l, h⟩ := f
  simp only [Added, List.mem_append, List.mem_singleton, Request.add.injEq, Fact.mk.injEq]
  grind

theorem added_congr (h : ∀ n o l r, .add n o l r ∈ rs' ↔ .add n o l r ∈ rs) :
    Added rs' m f ↔ Added rs m f := by
  simp only [Added, h]

/-- **A node dies where its root is at that time.** -/
theorem killedAt_append {x : Request} {r : NodeId} :
    KilledAt (rs ++ [x]) r ↔ KilledAt rs r ∨ ∃ k, x = .kill k ∧ (after rs).root k = r := by
  constructor
  · rintro ⟨before, k, later, heq, hroot⟩
    rcases List.eq_nil_or_concat later with rfl | ⟨later, y, rfl⟩
    · obtain ⟨rfl, hx⟩ := List.append_inj' heq rfl
      exact .inr ⟨k, List.singleton_inj.1 hx, hroot⟩
    · rw [List.concat_eq_append, ← List.cons_append, ← List.append_assoc] at heq
      exact .inl ⟨before, k, later, (List.append_inj' heq rfl).1, hroot⟩
  · rintro (⟨before, k, later, rfl, hroot⟩ | ⟨k, rfl, hroot⟩)
    · exact ⟨before, k, later ++ [x], by simp, hroot⟩
    · exact ⟨rs, k, [], rfl, hroot⟩

/-- Other requests leave dead what is dead. -/
theorem killedAt_append_of_ne {x : Request} (hx : ∀ k, x ≠ .kill k) {r : NodeId} :
    KilledAt (rs ++ [x]) r ↔ KilledAt rs r := by
  rw [killedAt_append, or_iff_left]
  rintro ⟨k, rfl, -⟩
  exact hx k rfl

/-- **A new store says nothing**, and every node is its own root. -/
theorem describes_empty : Describes [] empty := by
  have hends : ∀ n, EndsIn empty.parent n n 0 := fun n => .root rfl
  have hroot : ∀ n, empty.root n = n := fun n => (hends n).root_eq
  refine ⟨fun n => ⟨n, 0, hends n⟩, fun a b => ?_, fun n => List.nodup_nil, fun n f => ?_,
    fun r => ?_⟩
  · rw [hroot, hroot]
    exact ⟨fun h => h ▸ .refl _, fun h => h.eq (g := id) fun _ _ hmem => by cases hmem⟩
  · constructor
    · exact fun h => by cases h
    · exact fun ⟨_, _, _, hmem⟩ => by cases hmem
  · constructor
    · exact fun h => by cases h
    · exact fun ⟨before, k, later, heq, _⟩ => by simp at heq

namespace Describes

/-- Facts go to the node that the merges of theirs end in. -/
theorem add (h : Describes rs s) (n obj : NodeId) (lo hi : Int64) :
    Describes (rs ++ [.add n obj lo hi]) (s.add n obj lo hi) := by
  have hmerges : ∀ a b, Connected (rs ++ [.add n obj lo hi]) a b ↔ Connected rs a b :=
    fun a b => connected_congr (by simp)
  have hkills : ∀ r, KilledAt (rs ++ [.add n obj lo hi]) r ↔ KilledAt rs r :=
    fun r => killedAt_append_of_ne (by simp)
  obtain ⟨hfound, hfounded, hroots, hfacts, hdead⟩ := find_spec h.founded n
  unfold FactStore.add
  by_cases hle : hi ≤ lo
  · rw [if_pos hle]
    refine ⟨h.founded, fun a b => (h.connected a b).trans (hmerges a b).symm, h.nodup,
      fun m f => ?_, fun r => (h.dead r).trans (hkills r).symm⟩
    have hempty : ¬ lo < hi := Int64.not_lt.2 hle
    simp only [h.facts, added_append_add, hempty, and_false, or_false]
  · rw [if_neg hle]
    have hlt : lo < hi := Int64.not_le.1 hle
    dsimp only
    generalize s.find n = found at *
    obtain ⟨r, s'⟩ := found
    dsimp only at *
    subst hfound
    have hsame := factsOf_congr hfacts
    have hroot : ∀ m, (s'.put (s.root n) ⟨obj, lo, hi⟩).root m = s.root m := fun m => by
      rw [root, parent_put]
      exact hroots m
    refine ⟨by rwa [parent_put], fun a b => ?_, nodup_factsOf_put fun m => hsame m ▸ h.nodup m,
      fun m f => ?_, fun r => ?_⟩
    · rw [hroot, hroot, hmerges]
      exact h.connected a b
    · simp only [hroot, mem_factsOf_put, hsame, h.facts, added_append_add, hlt, and_true]
      grind
    · rw [dead_put, hdead, hkills]
      exact h.dead r

/-- No interval in a store is empty. -/
theorem lo_lt_hi (h : Describes rs s) (n : NodeId) : ∀ f ∈ s.factsOf (s.root n), f.lo < f.hi :=
  fun f hf => ((h.facts n f).1 hf).elim fun _ hm => hm.2.1

/-- The facts of a merged node go to the node that it is merged into. -/
theorem merge (h : Describes rs s) (n into : NodeId) :
    Describes (rs ++ [.merge n into]) (s.merge n into) := by
  have hadds : ∀ m f, Added (rs ++ [.merge n into]) m f ↔ Added rs m f :=
    fun m f => added_congr (by simp)
  have hkills : ∀ r, KilledAt (rs ++ [.merge n into]) r ↔ KilledAt rs r :=
    fun r => killedAt_append_of_ne (by simp)
  obtain ⟨hfounded, hdead, hroot, hfacts, hnodup⟩ := merge_spec h.founded (h.lo_lt_hi n) into
  refine ⟨hfounded, fun a b => ⟨fun hab => ?_, fun hab => ?_⟩, hnodup h.nodup, fun m f => ?_,
    fun r => by rw [hdead, hkills, h.dead]⟩
  · -- nodes that are taken over are connected through `n` and `into`
    have hold : ∀ {x y}, s.root x = s.root y → Connected (rs ++ [.merge n into]) x y :=
      fun hxy => ((h.connected _ _).1 hxy).append _
    have hnew : Connected (rs ++ [.merge n into]) n into := connected_merge n into
    rw [hroot, hroot] at hab
    split at hab <;> split at hab
    · next ha hb => exact hold (ha.trans hb.symm)
    · next ha hb => exact .trans _ _ _ (hold ha) (.trans _ _ _ hnew (hold hab))
    · next ha hb => exact .trans _ _ _ (hold hab) (.trans _ _ _ (.symm _ _ hnew) (hold hb.symm))
    · exact hold hab
  · refine hab.eq fun x y hxy => ?_
    rw [hroot, hroot]
    rcases List.mem_append.1 hxy with hxy | hxy
    · rw [(h.connected x y).2 (.rel _ _ hxy)]
    · obtain ⟨rfl, rfl⟩ := Request.merge.inj (List.mem_singleton.1 hxy)
      rw [if_pos rfl]
      split
      · rfl
      · rfl
  · -- the merge leaves some node `q` of the class of `m` at its end
    obtain ⟨q, hq, hkept⟩ : ∃ q, (s.merge n into).root m = s.root q ∧
        (s.root q = s.root n → s.root into = s.root q) := by
      rw [hroot]
      split
      · exact ⟨into, rfl, fun _ => rfl⟩
      · next hne => exact ⟨m, rfl, fun heq => absurd heq hne⟩
    rw [hfacts, hq]
    simp only [h.facts, hadds, hroot]
    constructor
    · rintro (⟨x, hx, hadded⟩ | ⟨hinto, x, hx, hadded⟩)
      · refine ⟨x, ?_, hadded⟩
        split
        · next hxn => exact hkept (hx.symm.trans hxn)
        · exact hx
      · exact ⟨x, by rw [if_pos hx, hinto], hadded⟩
    · rintro ⟨x, hx, hadded⟩
      split at hx
      · next hxn => exact .inr ⟨hx.symm, x, hxn, hadded⟩
      · exact .inl ⟨x, hx, hadded⟩

/-- A kill is noted at the node that merges end in. -/
theorem kill (h : Describes rs (after rs)) (n : NodeId) :
    Describes (rs ++ [.kill n]) ((after rs).kill n) := by
  have hmerges : ∀ a b, Connected (rs ++ [.kill n]) a b ↔ Connected rs a b :=
    fun a b => connected_congr (by simp)
  have hadds : ∀ m f, Added (rs ++ [.kill n]) m f ↔ Added rs m f :=
    fun m f => added_congr (by simp)
  obtain ⟨hfound, hfounded, hroots, hfacts, hdead⟩ := find_spec h.founded n
  have hsame := factsOf_congr hfacts
  refine ⟨hfounded, fun a b => ?_, fun m => hsame m ▸ h.nodup m, fun m f => ?_, fun r => ?_⟩
  · change ((after rs).find n).2.root a = ((after rs).find n).2.root b ↔ _
    rw [hroots, hroots, hmerges, h.connected]
  · change f ∈ ((after rs).find n).2.factsOf (((after rs).find n).2.root m) ↔
      ∃ x, ((after rs).find n).2.root x = ((after rs).find n).2.root m ∧ _
    simp only [hroots, hsame, h.facts, hadds]
  · change r ∈ ((after rs).find n).2.dead.insert ((after rs).find n).1 ↔ _
    rw [List.mem_insert_iff, hdead, hfound, killedAt_append, ← h.dead]
    constructor
    · rintro (rfl | hr)
      · exact .inr ⟨n, rfl, rfl⟩
      · exact .inl hr
    · rintro (hr | ⟨k, hk, rfl⟩)
      · exact .inr hr
      · exact .inl (by rw [Request.kill.inj hk])

end Describes

/-- **A store stands for the requests that were made to it.** -/
theorem describes_after (rs : List Request) : Describes rs (after rs) := by
  induction rs using List.reverseRecOn with
  | nil => exact describes_empty
  | append_singleton rs r ih =>
    rw [after_append]
    cases r with
    | add n obj lo hi => exact ih.add n obj lo hi
    | merge n into => exact ih.merge n into
    | kill n => exact ih.kill n

end Describes

/-! ## What a store answers -/

/-- **A store is what was merged and what was added**, whatever the order of the
requests. The merges of every node end. Two nodes end in the same one iff they are
connected by merged pairs; a merge moves the end of one class to that of the other. Each
fact that was added to a node of a class, and that holds under some context of
an interval, is found at the end of the class once, clipped to the
interval, and nothing else is. -/
theorem after_refines (rs : List Request) :
    let s := after rs
    (∀ n, ∃ k, EndsIn s.parent n (s.root n) k) ∧
      (∀ a b, s.root a = s.root b ↔ Connected rs a b) ∧
      (∀ n into m, Connected (rs ++ [.merge n into]) m n →
        (after (rs ++ [.merge n into])).root m = s.root into) ∧
      ∀ n l r, ∃ found : Finset Fact,
        (∀ f, f ∈ found ↔ f.Meets l r ∧ ∃ m, Connected rs m n ∧ Added rs m f) ∧
          (s.contextObjects (s.root n) l r : Multiset Fact) = found.val.map (Fact.within l r) := by
  intro s
  have h : Describes rs s := describes_after rs
  refine ⟨h.founded.endsIn, h.connected, fun n into m hm => ?_, fun n l r => ?_⟩
  · rw [after_append]
    calc (s.merge n into).root m
        = (s.merge n into).root n := ((h.merge n into).connected m n).2 hm
      _ = s.root into := by
        rw [(merge_spec h.founded (h.lo_lt_hi n) into).2.2.1, if_pos rfl]
  · refine ⟨(s.factsOf (s.root n)).toFinset.filter (·.Meets l r), fun f => ?_, ?_⟩
    · simp only [Finset.mem_filter, List.mem_toFinset, h.facts, h.connected]
      exact and_comm
    · have hdistinct : (s.factsOf (s.root n)).toFinset.val = s.factsOf (s.root n) := by
        rw [List.toFinset_val, (h.nodup _).dedup]
      have hclip : Fact.clip l r = fun f => if f.Meets l r then some (f.within l r) else none :=
        funext (Fact.clip_eq l r)
      rw [Finset.filter_val, hdistinct, Multiset.filter_coe, Multiset.map_coe, contextObjects,
        hclip, ← List.filterMap_eq_map, List.filterMap_filter]
      simp

/-! ## Nodes that are removed -/

/-- **A node is removed iff it is connected to one that was killed and whose merges still
end where they ended then.** A kill removes all the nodes that are connected to
the killed one, and it is forgotten as soon as their class is merged into
another one. -/
theorem representative_eq_none_iff (rs : List Request) (m : NodeId) :
    (after rs).representative m = none ↔ m = noNode ∨
      ∃ before k later, rs = before ++ .kill k :: later ∧ Connected rs k m ∧
        (after rs).root k = (after before).root k := by
  have h := describes_after rs
  rw [representative, ite_eq_left_iff]
  refine or_iff_not_imp_left.symm.trans (or_congr_right ?_)
  dsimp only
  rw [ite_eq_left_iff]
  simp only [reduceCtorEq, imp_false, Classical.not_not, h.dead]
  constructor
  · rintro ⟨before, k, later, rfl, hroot⟩
    -- the end of the chain of `k` was connected to `k` when `k` was killed
    have hbefore := describes_after before
    have hk := ((hbefore.connected k _).1 (hbefore.founded.root_root k).symm).append
      (.kill k :: later)
    have hsame := (h.connected _ _).2 hk
    rw [hroot, h.founded.root_root] at hsame
    exact ⟨before, k, later, rfl, (h.connected k m).1 hsame, hsame.trans hroot.symm⟩
  · rintro ⟨before, k, later, heq, hk, hroot⟩
    exact ⟨before, k, later, heq, hroot.symm.trans ((h.connected k m).2 hk)⟩

/-- The node was merged into another one, or into one that was, and so on. -/
def MergedInto (rs : List Request) : NodeId → NodeId → Prop :=
  Relation.ReflTransGen fun n into => .merge n into ∈ rs

/-- Killing a node removes the node it was merged into, and a node that was killed is
back after it is merged into another one. -/
theorem kill_not_exact :
    ((after [.merge 2 1, .kill 2]).representative 1 = none ∧
      ¬ ∃ k, .kill k ∈ [Request.merge 2 1, .kill 2] ∧ MergedInto [.merge 2 1, .kill 2] 1 k) ∧
    (after [.kill 2, .merge 2 1]).representative 2 = some 1 ∧
      ∃ k, .kill k ∈ [Request.kill 2, .merge 2 1] ∧ MergedInto [.kill 2, .merge 2 1] 2 k := by
  refine ⟨⟨by decide, ?_⟩, by decide, 2, by decide, .refl⟩
  rintro ⟨k, hk, hmerged⟩
  obtain rfl : k = 2 := by simpa using hk
  -- nothing was merged into the killed node
  rcases hmerged.cases_tail with heq | ⟨n, -, hmem⟩
  · exact absurd heq (by decide)
  · simp at hmem

end FactStore

end PointsTo
