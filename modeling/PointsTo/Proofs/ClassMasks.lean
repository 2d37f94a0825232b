import Mathlib
import PointsTo.Casting.ClassMasks
import PointsTo.Proofs.Hierarchies
/-!
# Masks of a whole hierarchy

Walking a hierarchy down from its root gives the masks that deciding every
cast gives (`walked_masks`). The walk is an induction over the tree of
classes: what has been entered into the result is complete, but for the
classes on the way from the root (`complete_classMask`). Upwards, a class
is below an interface if one of the top-most implementers is above it
(`isSubtype_interface`). Masks that are right stay right, so both ways
agree from then on (`walked_agrees`).
-/

namespace PointsTo

namespace ClassHierarchy

variable {h : ClassHierarchy} {u : Universe} {s t c : TypeId}

/-! ## Trees of classes -/

/-- The type is declared as a class or as an interface. -/
def Declared (h : ClassHierarchy) (t : TypeId) : Prop := t ∈ h.interfaceLists.map (·.1)

/-- The type is declared as a class. -/
structure IsClass (h : ClassHierarchy) (t : TypeId) : Prop where
  declared : h.Declared t
  not_interface : ¬ h.isInterface t

instance (t : TypeId) : Decidable (h.Declared t) :=
  inferInstanceAs (Decidable (t ∈ h.interfaceLists.map (·.1)))

instance (t : TypeId) : Decidable (h.IsClass t) :=
  decidable_of_iff (h.Declared t ∧ ¬ h.isInterface t)
    ⟨fun ht => ⟨ht.1, ht.2⟩, fun ht => ⟨ht.declared, ht.not_interface⟩⟩

/-- `t` is the class `s` or one of those below it. -/
abbrev Under (h : ClassHierarchy) (s t : TypeId) : Prop := Reaches h.directSubclasses s t

/-- **A tree of classes with interfaces.** What is declared are reference types,
every class but the root extends one class and is below the root, and lists
of interfaces hold interfaces. -/
structure Tree (h : ClassHierarchy) (u : Universe) : Prop where
  refs : ∀ t, h.Declared t → ∃ r, u.type? t = some r ∧ r.kind = .ref
  interfaces : ∀ t, h.isInterface t → h.Declared t
  lists : ∀ t l, (t, l) ∈ h.interfaceLists → ∀ i ∈ l, h.isInterface i
  classes : ∀ t s, (t, s) ∈ h.extensions → h.IsClass t ∧ h.IsClass s
  once : (h.extensions.map (·.1)).Nodup
  root : h.IsClass h.root
  root_top : ∀ s, (h.root, s) ∉ h.extensions
  root_lists : ∀ l, (h.root, l) ∈ h.interfaceLists → l = []
  under : ∀ t, h.IsClass t → h.Under h.root t

/-- Direct subclasses are those that were declared to extend the class. -/
theorem mem_directSubclasses : c ∈ h.directSubclasses t ↔ (c, t) ∈ h.extensions := by
  simp only [directSubclasses, List.mem_map, List.mem_filter, beq_iff_eq, Prod.exists]
  constructor
  · rintro ⟨a, b, ⟨hmem, rfl⟩, rfl⟩
    exact hmem
  · intro hmem
    exact ⟨c, t, ⟨hmem, rfl⟩, rfl⟩

namespace Tree

/-- A class extends one class. -/
theorem unique (hh : h.Tree u) (ht : c ∈ h.directSubclasses t) (hs : c ∈ h.directSubclasses s) :
    t = s := by
  have hinj := List.inj_on_of_nodup_map hh.once
  exact congrArg Prod.snd (hinj (mem_directSubclasses.1 ht) (mem_directSubclasses.1 hs) rfl)

/-- In a tree no class extends two. -/
theorem superclass?_eq (hh : h.Tree u) (ht : c ∈ h.directSubclasses t) :
    h.superclass? c = some t := by
  match hs : h.superclass? c with
  | none => exact absurd (mem_directSubclasses.1 ht) (superclass?_eq_none.1 hs t)
  | some s =>
    rw [hh.unique ht (mem_directSubclasses.2 (superclass?_eq_some hs))]

/-- All that is below a class are classes. -/
theorem isClass_under (hh : h.Tree u) (ht : h.IsClass t) (hs : h.Under t s) : h.IsClass s :=
  hs.mem_of_closed (fun _ _ _ hmem => (hh.classes _ _ (mem_directSubclasses.1 hmem)).1) ht

/-- **Nothing below a class is above it.** -/
theorem not_under (hh : h.Tree u) (ht : h.IsClass t) (hc : c ∈ h.directSubclasses t) :
    ¬ h.Under c t := by
  have hroot := hh.under t ht
  clear ht
  -- a cycle through a class would go through its superclass as well
  induction hroot generalizing c with
  | refl =>
    intro hcycle
    rcases Relation.ReflTransGen.cases_tail_iff .. |>.1 hcycle with heq | ⟨p, -, hp⟩
    · rw [← heq] at hc
      exact hh.root_top _ (mem_directSubclasses.1 hc)
    · exact hh.root_top _ (mem_directSubclasses.1 hp)
  | tail _ hstep ih =>
    intro hcycle
    rcases Relation.ReflTransGen.cases_tail_iff .. |>.1 hcycle with heq | ⟨p, hp, hlast⟩
    · rw [← heq] at hc
      rw [hh.unique hstep hc] at ih
      exact ih hc .refl
    · obtain rfl := hh.unique hstep hlast
      exact ih hstep (.head hc hp)

/-- Nothing is both above and below another class. -/
theorem under_antisymm (hh : h.Tree u) (ht : h.IsClass t) (hs : h.Under t s) (hne : s ≠ t) :
    ¬ h.Under s t := by
  obtain ⟨c, hc, hcs⟩ := (Reaches.iff_eq_or_head.1 hs).resolve_left hne
  exact fun hback => hh.not_under ht hc (hcs.trans hback)

end Tree

/-! ## Depth -/

section Depth

open scoped Classical

/-- How many classes are below a class. -/
noncomputable def size (h : ClassHierarchy) (t : TypeId) : Nat :=
  ((h.extensions.map (·.1)).toFinset.filter fun s => s ≠ t ∧ h.Under t s).card

/-- A part of the hierarchy has no more classes than were declared. -/
theorem size_le (h : ClassHierarchy) (t : TypeId) : h.size t ≤ h.extensions.length := by
  calc h.size t ≤ (h.extensions.map (·.1)).toFinset.card := Finset.card_filter_le ..
    _ ≤ (h.extensions.map (·.1)).length := List.toFinset_card_le _
    _ = h.extensions.length := List.length_map _

/-- There is less below a subclass. -/
theorem Tree.size_lt (hh : h.Tree u) (ht : h.IsClass t) (hc : c ∈ h.directSubclasses t) :
    h.size c < h.size t := by
  have hne : c ≠ t := fun heq => hh.not_under ht hc (heq ▸ .refl)
  refine Finset.card_lt_card ((Finset.ssubset_iff_of_subset fun s hs => ?_).2 ⟨c, ?_, ?_⟩)
  · obtain ⟨hmem, -, hs⟩ := Finset.mem_filter.1 hs
    refine Finset.mem_filter.2 ⟨hmem, ?_, .head hc hs⟩
    rintro rfl
    exact hh.not_under ht hc hs
  · have hmem : c ∈ h.extensions.map (·.1) := List.mem_map.2 ⟨_, mem_directSubclasses.1 hc, rfl⟩
    exact Finset.mem_filter.2 ⟨List.mem_toFinset.2 hmem, hne, .single hc⟩
  · simp

end Depth

/-! ## What is below an interface -/

/-- Above an interface there are only interfaces. -/
theorem Tree.interface_of_below (hh : h.Tree u) (hs : h.isInterface s) (ht : h.Below s t) :
    h.isInterface t := by
  refine ht.mem_of_closed (S := fun x => h.isInterface x) (fun x y hx hy => ?_) hs
  rcases mem_supertypes.1 hy with hsuper | ⟨l, hl, hy⟩
  · exact absurd hx (hh.classes _ _ (superclass?_eq_some hsuper)).1.not_interface
  · exact hh.lists x l hl y hy

/-- **Between classes, being below is to extend**, in one or more steps or none. -/
theorem Tree.below_class (hh : h.Tree u) (ht : h.IsClass t) : h.Below s t ↔ h.Under t s := by
  constructor
  · intro hbelow
    induction hbelow using Relation.ReflTransGen.head_induction_on with
    | refl => exact .refl
    | head hstep hrest ih =>
      rcases mem_supertypes.1 hstep with hsuper | ⟨l, hl, hmem⟩
      · exact ih.tail (mem_directSubclasses.2 (superclass?_eq_some hsuper))
      · exact absurd (hh.interface_of_below (hh.lists _ l hl _ hmem) hrest) ht.not_interface
  · intro hunder
    induction hunder with
    | refl => exact .refl
    | tail _ hstep ih => exact .head (mem_supertypes.2 (.inl (hh.superclass?_eq hstep))) ih

/-- What is below a type, but the type itself, is declared. -/
theorem Tree.declared_of_below (hh : h.Tree u) (hne : s ≠ t) (hs : h.Below s t) :
    h.Declared s := by
  obtain ⟨x, hx, -⟩ := (Reaches.iff_eq_or_head.1 hs).resolve_left (Ne.symm hne)
  rcases mem_supertypes.1 hx with hsuper | ⟨l, hl, -⟩
  · exact (hh.classes _ _ (superclass?_eq_some hsuper)).1.declared
  · exact List.mem_map.2 ⟨_, hl, rfl⟩

/-- **Among classes, subtypes are what is below.** -/
theorem Tree.isSubtype_class (hh : h.Tree u) (hs : h.IsClass s) (ht : h.IsClass t) :
    h.isSubtype s t ↔ h.Under t s := by
  rw [isSubtype_iff, hh.below_class ht]
  refine or_iff_left_of_imp ?_
  rintro ⟨rfl, -⟩
  exact hh.under s hs

/-- An interface is above what implements it, at any distance. -/
theorem Tree.isSubtype_iff_below (hh : h.Tree u) (ht : h.isInterface t) :
    h.isSubtype s t ↔ h.Below s t := by
  rw [isSubtype_iff]
  refine or_iff_left ?_
  rintro ⟨rfl, -⟩
  exact hh.root.not_interface ht

theorem mem_typeIds : t ∈ u.typeIds ↔ u.HasType t := by
  rw [Universe.hasType_iff, Universe.typeIds, List.mem_map]
  constructor
  · rintro ⟨k, hk, rfl⟩
    obtain ⟨i, hi, rfl⟩ := List.mem_iff_getElem.1 hk
    clear hk
    rw [List.getElem_drop, List.getElem_range]
    rw [List.length_drop, List.length_range] at hi
    rw [Int.ofNat_eq_natCast]
    omega
  · rintro ⟨h0, hlt⟩
    refine ⟨t.toNat, List.mem_iff_getElem.2 ⟨t.toNat - 1, ?_, ?_⟩, ?_⟩
    · rw [List.length_drop, List.length_range]
      omega
    · rw [List.getElem_drop, List.getElem_range]
      omega
    · exact Int.toNat_of_nonneg (Int.le_of_lt h0)

/-- The implementers of an interface are the classes below it that extend no class
below it. -/
theorem Tree.mem_implementers (hh : h.Tree u) (ht : h.isInterface t) :
    s ∈ h.implementers u t ↔ h.IsClass s ∧ h.Below s t ∧
      ∀ p, h.superclass? s = some p → ¬ h.Below p t := by
  have hsuper : (h.superclass? s).any (h.isSubtype · t) = false ↔
      ∀ p, h.superclass? s = some p → ¬ h.Below p t := by
    simp only [← hh.isSubtype_iff_below ht]
    cases h.superclass? s <;> simp
  simp only [implementers, subtypes, List.mem_filter, List.mem_cons, Bool.and_eq_true,
    Bool.not_eq_true', bne_iff_ne, hsuper, mem_typeIds, beq_iff_eq, hh.isSubtype_iff_below ht]
  constructor
  · rintro ⟨heq | ⟨-, ⟨hne, -⟩, hbelow⟩, ⟨hne', hnot⟩, htop⟩
    · exact absurd heq hne'
    · exact ⟨⟨hh.declared_of_below hne hbelow, by simp [hnot]⟩, hbelow, htop⟩
  · rintro ⟨hs, hbelow, htop⟩
    have hne : s ≠ t := fun heq => hs.not_interface (heq ▸ ht)
    obtain ⟨r, hr, hkind⟩ := hh.refs s hs.declared
    exact ⟨.inr ⟨Universe.hasType_of_eq hr, ⟨hne, by rw [Universe.typeD_of_eq hr, hkind]⟩, hbelow⟩,
      ⟨hne, by simpa using hs.not_interface⟩, htop⟩

/-- Implementers of an interface are below the root. -/
theorem Tree.root_not_implementer (hh : h.Tree u) (ht : h.isInterface t) :
    h.root ∉ h.implementers u t := by
  intro hmem
  obtain ⟨hroot, hbelow, -⟩ := (hh.mem_implementers ht).1 hmem
  rcases Reaches.iff_eq_or_head.1 hbelow with heq | ⟨x, hx, -⟩
  · exact hroot.not_interface (heq ▸ ht)
  · rcases mem_supertypes.1 hx with hsuper | ⟨l, hl, hmem⟩
    · exact hh.root_top _ (superclass?_eq_some hsuper)
    · rw [hh.root_lists l hl] at hmem
      cases hmem

/-- **A class is below an interface if it is an implementer or below one.** -/
theorem Tree.isSubtype_interface (hh : h.Tree u) (hs : h.IsClass s) (ht : h.isInterface t) :
    h.isSubtype s t ↔ ∃ c ∈ h.implementers u t, h.Under c s := by
  rw [hh.isSubtype_iff_below ht]
  constructor
  · intro hbelow
    have hroot := hh.under s hs
    -- down from the root, the first class below the interface is an implementer
    induction hroot with
    | refl =>
      refine ⟨h.root, (hh.mem_implementers ht).2 ⟨hs, hbelow, fun p hp => ?_⟩, .refl⟩
      exact absurd (superclass?_eq_some hp) (hh.root_top p)
    | @tail p s _ hstep ih =>
      by_cases hp : h.Below p t
      · obtain ⟨c, hc, hcp⟩ := ih (hh.classes _ _ (mem_directSubclasses.1 hstep)).2 hp
        exact ⟨c, hc, hcp.tail hstep⟩
      · refine ⟨s, (hh.mem_implementers ht).2 ⟨hs, hbelow, fun q hq => ?_⟩, .refl⟩
        rw [hh.superclass?_eq hstep] at hq
        cases hq
        exact hp
  · rintro ⟨c, hc, hcs⟩
    obtain ⟨hclass, hbelow, -⟩ := (hh.mem_implementers ht).1 hc
    exact ((hh.below_class hclass).2 hcs).trans hbelow

end ClassHierarchy

namespace Casting

open ClassHierarchy (Under Tree)

variable {h : ClassHierarchy} {u : Universe} {s t c : TypeId} {n : NodeId} {a : Allocations}
  {done done' : Assoc TypeId (List NodeId)} {P Q : NodeId → Prop}

/-! ## Entries of the result -/

/-- The entry of `t` is the set `P`. -/
def Holds (done : Assoc TypeId (List NodeId)) (t : TypeId) (P : NodeId → Prop) : Prop :=
  ∃ ns, done.get? t = some ns ∧ ∀ n, n ∈ ns ↔ P n

theorem Holds.congr (hd : Holds done t P) (hPQ : ∀ n, P n ↔ Q n) : Holds done t Q :=
  hd.imp fun _ hns => ⟨hns.1, fun n => (hns.2 n).trans (hPQ n)⟩

theorem Holds.of_get? (hd : Holds done t P) (hsame : done'.get? t = done.get? t) :
    Holds done' t P :=
  hd.imp fun _ hns => ⟨hsame.trans hns.1, hns.2⟩

theorem Holds.mem_getD (hd : Holds done t P) : n ∈ done.getD t [] ↔ P n := by
  obtain ⟨ns, hns, hmem⟩ := hd
  rw [Assoc.getD, hns, Option.getD_some, hmem]

theorem Holds.has (hd : Holds done t P) : done.has t := by
  obtain ⟨ns, hns, -⟩ := hd
  rw [Assoc.has, hns]
  rfl

theorem holds_set (ns : List NodeId) : Holds (done.set t ns) t (· ∈ ns) :=
  ⟨ns, Assoc.get?_set_self .., fun _ => .rfl⟩

theorem get?_grow_ne (ns : List NodeId) (hne : s ≠ t) : (grow done t ns).get? s = done.get? s :=
  Assoc.get?_set_ne _ _ hne

/-- **More allocations join the set**, each once. -/
theorem Holds.grow (hd : Holds done t P) (ns : List NodeId) :
    Holds (grow done t ns) t fun n => P n ∨ n ∈ ns := by
  refine (holds_set _).congr fun n => ?_
  rw [List.mem_append, List.mem_filter, decide_eq_true_eq, hd.mem_getD]
  by_cases hP : P n <;> simp [hP]

/-! ## The walk over the classes -/

/-- The allocations a class admits, when they are sorted by the shape of their
types: those of unknown class, and those of the instantiable classes below. -/
def InMask (h : ClassHierarchy) (a : Allocations) (t : TypeId) (n : NodeId) : Prop :=
  n ∈ a.ofUnknownClass ∨ ∃ s, h.Under t s ∧ h.isConcrete s ∧ n ∈ a.byClass s

/-- A class that is extended admits its own allocations and what its subclasses
admit. -/
theorem inMask_iff (hsub : h.directSubclasses t ≠ []) : InMask h a t n ↔
    (h.isConcrete t ∧ n ∈ a.byClass t) ∨ ∃ c ∈ h.directSubclasses t, InMask h a c n := by
  constructor
  · rintro (hunknown | ⟨s, hs, hclass⟩)
    · obtain ⟨c, hc⟩ := List.exists_mem_of_ne_nil _ hsub
      exact .inr ⟨c, hc, .inl hunknown⟩
    · rcases Reaches.iff_eq_or_head.1 hs with rfl | ⟨c, hc, hcs⟩
      · exact .inl hclass
      · exact .inr ⟨c, hc, .inr ⟨s, hcs, hclass⟩⟩
  · rintro (hclass | ⟨c, hc, hunknown | ⟨s, hs, hclass⟩⟩)
    · exact .inr ⟨t, .refl, hclass⟩
    · exact .inl hunknown
    · exact .inr ⟨s, .head hc hs, hclass⟩

/-- The class and all those below it have their masks. -/
def Complete (h : ClassHierarchy) (a : Allocations) (done : Assoc TypeId (List NodeId))
    (t : TypeId) : Prop :=
  ∀ s, h.Under t s → Holds done s (InMask h a s)

theorem Complete.under (hc : Complete h a done t) (hs : h.Under t s) : Complete h a done s :=
  fun r hr => hc r (hs.trans hr)

/-- What the walk starts a class with. -/
theorem mem_own : n ∈ (if h.isConcrete t then a.byClass t else []) ↔
    h.isConcrete t ∧ n ∈ a.byClass t := by
  by_cases hconcrete : h.isConcrete t <;> simp [hconcrete]

/-- A class that has been walked is not walked again. -/
theorem classMask_of_has (H : Hierarchy) {fuel : Nat} (hd : done.has t) :
    classMask H a fuel t done = done := by
  unfold classMask
  exact if_pos hd

/-- A class that nothing extends admits its own allocations and those of unknown class. -/
theorem classMask_of_leaf (H : Hierarchy) {fuel : Nat} (hd : ¬ done.has t)
    (hleaf : H.directSubclasses t = []) : classMask H a fuel t done =
      grow (done.set t (if H.isConcrete t then a.byClass t else [])) t a.ofUnknownClass := by
  unfold classMask
  rw [if_neg hd, hleaf]

/-- **A class that is extended** is walked after its own allocations, and grows by what
each subclass admits. -/
theorem classMask_of_extended (H : Hierarchy) {fuel : Nat} (hd : ¬ done.has t)
    (hsub : H.directSubclasses t ≠ []) : classMask H a (fuel + 1) t done =
      (H.directSubclasses t).foldl
        (fun done c => grow (classMask H a fuel c done) t ((classMask H a fuel c done).getD c []))
        (done.set t (if H.isConcrete t then a.byClass t else [])) := by
  rw [classMask, if_neg hd]
  match hs : H.directSubclasses t with
  | [] => exact absurd hs hsub
  | _ :: _ => rfl

/-- Below a leaf there is nothing else to walk. -/
theorem complete_leaf (fuel : Nat) (hd : ¬ done.has t) (hleaf : h.directSubclasses t = []) :
    Complete h a (classMask (h.view u) a fuel t done) t ∧
      ∀ s, ¬ h.Under t s → (classMask (h.view u) a fuel t done).get? s = done.get? s := by
  rw [classMask_of_leaf (h.view u) hd hleaf]
  have honly : ∀ s, h.Under t s → s = t := fun s hs =>
    (Reaches.iff_eq_or_head.1 hs).resolve_right fun ⟨c, hc, _⟩ => by rw [hleaf] at hc; cases hc
  constructor
  · intro s hs
    obtain rfl := honly s hs
    refine ((holds_set _).grow _).congr fun n => ?_
    rw [or_comm]
    refine or_congr_right (mem_own.trans ⟨fun hown => ⟨s, .refl, hown⟩, ?_⟩)
    rintro ⟨r, hr, hown⟩
    rwa [honly r hr] at hown
  · intro s hs
    have hne : s ≠ t := fun heq => hs (heq ▸ .refl)
    rw [get?_grow_ne _ hne, Assoc.get?_set_ne _ _ hne]

/-- **The result while the subclasses of a class are walked**, some of which have
been. -/
structure Walked (h : ClassHierarchy) (a : Allocations) (t : TypeId)
    (before : Assoc TypeId (List NodeId)) (subs : List TypeId)
    (done : Assoc TypeId (List NodeId)) : Prop where
  own : Holds done t fun n => (h.isConcrete t ∧ n ∈ a.byClass t) ∨ ∃ c ∈ subs, InMask h a c n
  walked : ∀ c ∈ subs, c ∈ h.directSubclasses t ∧ Complete h a done c
  entered : ∀ s, h.Under t s → s ≠ t → done.has s → Complete h a done s
  others : ∀ s, ¬ h.Under t s → done.get? s = before.get? s

namespace Walked

variable {before : Assoc TypeId (List NodeId)} {subs : List TypeId}

/-- The walk of a class starts with the allocations of the class itself. -/
theorem start (hh : h.Tree u) (ht : h.IsClass t)
    (hdone : ∀ s, h.Under t s → done.has s → Complete h a done s) :
    Walked h a t done [] (done.set t (if h.isConcrete t then a.byClass t else [])) where
  own := (holds_set _).congr fun n => mem_own.trans (by simp)
  walked := by simp
  entered s hs hne hentered r hr := by
    have hrt : r ≠ t := fun heq => hh.under_antisymm ht hs hne (heq ▸ hr)
    rw [Assoc.has, Assoc.get?_set_ne _ _ hne] at hentered
    exact (hdone s hs hentered r hr).of_get? (Assoc.get?_set_ne _ _ hrt)
  others s hs := Assoc.get?_set_ne _ _ fun heq => hs (heq ▸ .refl)

/-- The next subclass is walked, and the class admits what it admits. -/
theorem step (hw : Walked h a t before subs done) (hh : h.Tree u) (ht : h.IsClass t)
    (hc : c ∈ h.directSubclasses t) (hcomplete : Complete h a done' c)
    (hsame : ∀ s, ¬ h.Under c s → done'.get? s = done.get? s) :
    Walked h a t before (subs ++ [c]) (grow done' t (done'.getD c [])) := by
  have hnext : ∀ s, s ≠ t → (grow done' t (done'.getD c [])).get? s = done'.get? s :=
    fun s hne => get?_grow_ne _ hne
  have hnew : Complete h a (grow done' t (done'.getD c [])) c := fun s hs =>
    (hcomplete s hs).of_get? (hnext s fun heq => hh.not_under ht hc (heq ▸ hs))
  -- what is complete and not above the class stays complete
  have hkeep : ∀ s, ¬ h.Under s t → Complete h a done s →
      Complete h a (grow done' t (done'.getD c [])) s := by
    intro s hs hold r hr
    by_cases hrc : h.Under c r
    · exact hnew r hrc
    · exact (hold r hr).of_get? ((hnext r fun heq => hs (heq ▸ hr)).trans (hsame r hrc))
  refine ⟨?_, fun c' hc' => ?_, fun s hs hne hentered => ?_, fun s hs => ?_⟩
  · refine ((hw.own.of_get? (hsame t (hh.not_under ht hc))).grow _).congr fun n => ?_
    rw [(hcomplete c .refl).mem_getD]
    simp [or_assoc, or_and_right, exists_or]
  · rcases List.mem_append.1 hc' with hmem | hmem
    · obtain ⟨hsub, hold⟩ := hw.walked c' hmem
      exact ⟨hsub, hkeep c' (hh.not_under ht hsub) hold⟩
    · rw [List.mem_singleton.1 hmem]
      exact ⟨hc, hnew⟩
  · by_cases hsc : h.Under c s
    · exact hnew.under hsc
    · rw [Assoc.has, hnext s hne, hsame s hsc] at hentered
      exact hkeep s (hh.under_antisymm ht hs hne) (hw.entered s hs hne hentered)
  · have hne : s ≠ t := fun heq => hs (heq ▸ .refl)
    rw [hnext s hne, hsame s fun hcs => hs (.head hc hcs), hw.others s hs]

/-- When all subclasses have been walked, the class is complete. -/
theorem complete (hw : Walked h a t before (h.directSubclasses t) done)
    (hsub : h.directSubclasses t ≠ []) : Complete h a done t := by
  intro s hs
  rcases Reaches.iff_eq_or_head.1 hs with rfl | ⟨c, hc, hcs⟩
  · exact hw.own.congr fun n => (inMask_iff hsub).symm
  · exact (hw.walked c hc).2 s hcs

end Walked

/-- A class that has been entered is not walked again. -/
theorem complete_entered (fuel : Nat) (hd : done.has t)
    (hdone : ∀ s, h.Under t s → done.has s → Complete h a done s) :
    Complete h a (classMask (h.view u) a fuel t done) t ∧
      ∀ s, ¬ h.Under t s → (classMask (h.view u) a fuel t done).get? s = done.get? s := by
  rw [classMask_of_has _ hd]
  exact ⟨hdone t .refl hd, fun _ _ => rfl⟩

/-- **What walking below a class does.** It completes the class and what is below it,
if what had been entered there before was complete, and it leaves the other
entries as they are. -/
theorem complete_classMask (hh : h.Tree u) : ∀ (fuel : Nat) (t : TypeId)
    (done : Assoc TypeId (List NodeId)), h.IsClass t → h.size t ≤ fuel →
    (∀ s, h.Under t s → done.has s → Complete h a done s) →
    Complete h a (classMask (h.view u) a fuel t done) t ∧
      ∀ s, ¬ h.Under t s → (classMask (h.view u) a fuel t done).get? s = done.get? s := by
  intro fuel
  induction fuel with
  | zero =>
    intro t done ht hsize hdone
    by_cases hd : done.has t
    · exact complete_entered _ hd hdone
    · refine complete_leaf 0 hd (List.eq_nil_iff_forall_not_mem.2 fun c hc => ?_)
      exact absurd (hh.size_lt ht hc) (by omega)
  | succ fuel ih =>
    intro t done ht hsize hdone
    by_cases hd : done.has t
    · exact complete_entered _ hd hdone
    by_cases hsub : h.directSubclasses t = []
    · exact complete_leaf _ hd hsub
    have hrun : Walked h a t done (h.directSubclasses t)
        (classMask (h.view u) a (fuel + 1) t done) := by
      rw [classMask_of_extended (h.view u) hd hsub]
      refine foldl_run (Walked h a t done) (.start hh ht hdone) ?_
      rintro subs c done₁ ⟨rest, hlist⟩ hw
      have hc : c ∈ h.directSubclasses t := by
        rw [show h.directSubclasses t = subs ++ c :: rest from hlist]
        simp
      have hclass := hh.isClass_under ht (.single hc)
      have hlt := hh.size_lt ht hc
      obtain ⟨hcomplete, hsame⟩ := ih c done₁ hclass (by omega) fun s hs =>
        hw.entered s (.head hc hs) fun heq => hh.not_under ht hc (heq ▸ hs)
      exact hw.step hh ht hc hcomplete hsame
    exact ⟨hrun.complete hsub, hrun.others⟩

/-! ## Interfaces and arrays -/

/-- **What an interface admits**: what its implementers admit, or the allocations of
unknown class if there are none. The other entries are left as they are. -/
theorem holds_interfaceMask (hd : ¬ done.has t)
    (himpl : ∀ c ∈ h.implementers u t, Holds done c (InMask h a c)) :
    Holds (interfaceMask (h.view u) a t done) t
        (fun n => n ∈ a.ofUnknownClass ∨ ∃ c ∈ h.implementers u t, InMask h a c n) ∧
      ∀ s, s ≠ t → (interfaceMask (h.view u) a t done).get? s = done.get? s := by
  unfold interfaceMask
  rw [if_neg hd]
  dsimp only
  match hlist : (h.view u).implementers t with
  | [] =>
    rw [show h.implementers u t = [] from hlist]
    refine ⟨((holds_set []).grow _).congr fun n => by simp, fun s hne => ?_⟩
    rw [get?_grow_ne _ hne, Assoc.get?_set_ne _ _ hne]
  | c₀ :: cs =>
    rw [show h.implementers u t = c₀ :: cs from hlist] at himpl ⊢
    dsimp only
    refine (foldl_run (fun tried st =>
      Holds st t (fun n => ∃ c ∈ tried, InMask h a c n) ∧ ∀ s, s ≠ t → st.get? s = done.get? s)
      ⟨(holds_set []).congr fun n => by simp, fun s hne => Assoc.get?_set_ne _ _ hne⟩ ?_).imp_left
      fun hall => hall.congr fun n => ?_
    · rintro tried c st ⟨rest, hrest⟩ ⟨hst, hsame⟩
      have hc := himpl c (hrest ▸ by simp)
      have hne : c ≠ t := by
        rintro rfl
        exact hd hc.has
      have hc' : Holds st c (InMask h a c) := hc.of_get? (hsame c hne)
      rw [classMask_of_has _ hc'.has]
      refine ⟨(hst.grow _).congr fun n => ?_, fun s hs => (get?_grow_ne _ hs).trans (hsame s hs)⟩
      rw [hc'.mem_getD]
      simp [or_and_right, exists_or]
    · refine ⟨.inr, fun hn => hn.elim (fun hunknown => ?_) id⟩
      exact ⟨c₀, List.mem_cons_self .., .inl hunknown⟩

/-- The allocations a declared type admits: those of unknown class, those of the
instantiable classes below it, and arrays if it is the root. -/
def Admits (h : ClassHierarchy) (u : Universe) (t : TypeId) (n : NodeId) : Prop :=
  n ∈ (allocations u).ofUnknownClass ∨
    (∃ s, h.IsClass s ∧ h.isConcrete s ∧ n ∈ (allocations u).byClass s ∧ h.isSubtype s t) ∨
    t = h.root ∧ n ∈ (allocations u).arrays

/-- **What can be cast to a class**: what its mask has, and arrays if it is the root. -/
theorem admits_class (hh : h.Tree u) (ht : h.IsClass t) : Admits h u t n ↔
    InMask h (allocations u) t n ∨ t = h.root ∧ n ∈ (allocations u).arrays := by
  rw [Admits, ← or_assoc]
  refine or_congr_left (or_congr_right (exists_congr fun s => ?_))
  constructor
  · rintro ⟨hs, hconcrete, hn, hsub⟩
    exact ⟨(hh.isSubtype_class hs ht).1 hsub, hconcrete, hn⟩
  · rintro ⟨hts, hconcrete, hn⟩
    have hs := hh.isClass_under ht hts
    exact ⟨hs, hconcrete, hn, (hh.isSubtype_class hs ht).2 hts⟩

/-- **What can be cast to an interface**: what the masks of its implementers have. -/
theorem admits_interface (hh : h.Tree u) (ht : h.isInterface t) : Admits h u t n ↔
    n ∈ (allocations u).ofUnknownClass ∨
      ∃ c ∈ h.implementers u t, InMask h (allocations u) c n := by
  constructor
  · rintro (hunknown | ⟨s, hs, hconcrete, hn, hsub⟩ | ⟨rfl, -⟩)
    · exact .inl hunknown
    · obtain ⟨c, hc, hcs⟩ := (hh.isSubtype_interface hs ht).1 hsub
      exact .inr ⟨c, hc, .inr ⟨s, hcs, hconcrete, hn⟩⟩
    · exact absurd ht hh.root.not_interface
  · rintro (hunknown | ⟨c, hc, hunknown | ⟨s, hcs, hconcrete, hn⟩⟩)
    · exact .inl hunknown
    · exact .inl hunknown
    · have hs := hh.isClass_under ((hh.mem_implementers ht).1 hc).1 hcs
      exact .inr (.inl ⟨s, hs, hconcrete, hn, (hh.isSubtype_interface hs ht).2 ⟨c, hc, hcs⟩⟩)

theorem nodup_typeIds : u.typeIds.Nodup :=
  List.Pairwise.map _ (fun _ _ hne heq => hne (Int.ofNat.inj heq))
    (List.nodup_range.sublist (List.drop_sublist 1 _))

/-- The entries of the classes and of some interfaces, and no others. -/
structure Entered (h : ClassHierarchy) (u : Universe) (interfaces : List TypeId)
    (done : Assoc TypeId (List NodeId)) : Prop where
  admits : ∀ t, h.IsClass t ∨ t ∈ interfaces → Holds done t (Admits h u t)
  others : ∀ t, ¬ h.IsClass t → t ∉ interfaces → done.get? t = none

/-- Walking down from the root and adding the arrays there gives the entries of the
classes. -/
theorem entered_classes (hh : h.Tree u) : Entered h u []
    (grow (classMask (h.view u) (allocations u) (h.view u).height h.root []) h.root
      (allocations u).arrays) := by
  obtain ⟨hcomplete, hsame⟩ := complete_classMask (a := allocations u) hh (h.view u).height h.root
    [] hh.root (Nat.le_succ_of_le (h.size_le _)) fun s _ hs => by cases hs
  refine ⟨fun t ht => ?_, fun t ht _ => ?_⟩
  · have ht : h.IsClass t := ht.resolve_right List.not_mem_nil
    have hwalked := hcomplete t (hh.under t ht)
    by_cases hroot : t = h.root
    · subst hroot
      exact (hwalked.grow _).congr fun n => by simp [admits_class hh ht]
    · exact (hwalked.of_get? (get?_grow_ne _ hroot)).congr fun n => by
        simp [admits_class hh ht, hroot]
  · have hroot : t ≠ h.root := fun heq => ht (heq ▸ hh.root)
    rw [get?_grow_ne _ hroot, hsame t fun hunder => ht (hh.isClass_under hh.root hunder)]
    rfl

/-- One interface more has its entry. -/
theorem Entered.interfaceMask {interfaces : List TypeId} (hd : Entered h u interfaces done)
    (hh : h.Tree u) (ht : h.isInterface t) (hnew : t ∉ interfaces) :
    Entered h u (interfaces ++ [t]) (interfaceMask (h.view u) (allocations u) t done) := by
  have hnone : ¬ done.has t := by
    rw [Assoc.has, hd.others t (fun hclass => hclass.not_interface ht) hnew]
    simp
  have himpl : ∀ c ∈ h.implementers u t, Holds done c (InMask h (allocations u) c) := by
    intro c hc
    have hclass := ((hh.mem_implementers ht).1 hc).1
    have hroot : c ≠ h.root := by
      rintro rfl
      exact hh.root_not_implementer ht hc
    exact (hd.admits c (.inl hclass)).congr fun n => by simp [admits_class hh hclass, hroot]
  obtain ⟨hholds, hsame⟩ := holds_interfaceMask hnone himpl
  refine ⟨fun s hs => ?_, fun s hs hmem => ?_⟩
  · by_cases heq : s = t
    · subst heq
      exact hholds.congr fun n => (admits_interface hh ht).symm
    · refine (hd.admits s (hs.imp_right fun hmem => ?_)).of_get? (hsame s heq)
      simpa [heq] using hmem
  · rw [List.mem_append, List.mem_singleton, not_or] at hmem
    rw [hsame s hmem.2, hd.others s hs hmem.1]

/-- **The walk over a hierarchy finds what every declared type admits**, and has
entries for no others. -/
theorem entered_hierarchyMasks (hh : h.Tree u) : Entered h u (u.typeIds.filter h.isInterface)
    (hierarchyMasks u (h.view u) h.root) := by
  refine foldl_run (Entered h u) (entered_classes hh) ?_
  rintro tried t done ⟨rest, hlist⟩ hd
  have hmem : t ∈ u.typeIds.filter h.isInterface := by
    rw [show u.typeIds.filter h.isInterface = tried ++ t :: rest from hlist]
    simp
  have hnodup : (tried ++ t :: rest).Nodup := hlist ▸ nodup_typeIds.filter _
  exact hd.interfaceMask hh (List.mem_filter.1 hmem).2 fun htried =>
    (List.nodup_append.1 hnodup).2.2 t htried t (List.mem_cons_self ..) rfl

/-- Masks are made for the classes and for the interfaces. -/
theorem declared_iff (hh : h.Tree u) :
    h.Declared t ↔ h.IsClass t ∨ t ∈ u.typeIds.filter h.isInterface := by
  constructor
  · intro ht
    by_cases hinterface : h.isInterface t
    · obtain ⟨r, hr, -⟩ := hh.refs t ht
      exact .inr (List.mem_filter.2
        ⟨ClassHierarchy.mem_typeIds.2 (Universe.hasType_of_eq hr), hinterface⟩)
    · exact .inl ⟨ht, hinterface⟩
  · rintro (hclass | hmem)
    · exact hclass.declared
    · exact hh.interfaces t (List.mem_filter.1 hmem).2

/-! ## Casts to declared types -/

section Casts

variable {r : TypeRecord}

/-- A cast to another type that is declared never stops. -/
theorem castNeverFails_declared (hh : h.Tree u) (ht : h.Declared t) (hr : u.type? s = some r)
    (hne : t ≠ s) : castNeverFails u (some (h.view u)) s t =
      if r.kind = .null ∨ r.kind = .anySubtype then .ok true else .ok (h.canStore u s t) := by
  obtain ⟨d, hd, hkind⟩ := hh.refs t ht
  have ht0 : t ≠ noType := fun heq => by simp [heq] at hd
  have hs0 : s ≠ noType := fun heq => by simp [heq] at hr
  simp [castNeverFails, decideCast, Universe.typeD_of_eq hr, Universe.typeD_of_eq hd, hkind, ht0,
    hs0, hne, ClassHierarchy.view]

/-- A cast from a class to a declared type is a matter of subtypes. -/
theorem castNeverFails_class (hh : h.Tree u) (hs : h.IsClass s) (ht : h.Declared t) :
    castNeverFails u (some (h.view u)) s t = .ok (h.isSubtype s t) := by
  obtain ⟨r, hr, hkind⟩ := hh.refs s hs.declared
  obtain ⟨d, hd, hdkind⟩ := hh.refs t ht
  by_cases heq : t = s
  · have hself : h.isSubtype s s = true := ClassHierarchy.isSubtype_iff.2 (.inl .refl)
    simp [castNeverFails, heq, hself]
  · rw [castNeverFails_declared hh ht hr heq, hkind,
      ClassHierarchy.canStore_of_ref (Ne.symm heq) hr hd hkind hdkind]
    rfl

/-- An array can be cast to the root, and to no other class or interface. -/
theorem castNeverFails_array (hh : h.Tree u) (hr : u.type? s = some r) (hkind : r.kind = .array)
    (ht : h.Declared t) : castNeverFails u (some (h.view u)) s t = .ok (t == h.root) := by
  obtain ⟨d, hd, hdkind⟩ := hh.refs t ht
  have heq : t ≠ s := by
    rintro rfl
    rw [hr] at hd
    cases hd
    rw [hkind] at hdkind
    cases hdkind
  rw [castNeverFails_declared hh ht hr heq, hkind,
    ClassHierarchy.canStore_of_array (Ne.symm heq) hr hd hkind hdkind]
  rfl

/-- **Every allocation has a type that the walk knows of**: a class that can be
instantiated, an array, or any subtype of a bound. -/
def Sorted (h : ClassHierarchy) (u : Universe) : Prop :=
  ∀ n ∈ u.allocs, (h.IsClass (u.typeOf n) ∧ h.isConcrete (u.typeOf n)) ∨
    ∃ r, u.type? (u.typeOf n) = some r ∧ (r.kind = .array ∨ r.kind = .anySubtype)

/-- **A declared type admits the allocations that are cast to it**, and none of
these casts stops. -/
theorem castNeverFails_admits (hh : h.Tree u) (hsorted : Sorted h u) (ht : h.Declared t)
    (hn : n ∈ u.allocs) : ∃ b, castNeverFails u (some (h.view u)) (u.typeOf n) t = .ok b ∧
      (b = true ↔ Admits h u t n) := by
  have hunknown : n ∈ (allocations u).ofUnknownClass ↔
      ∃ r, u.type? (u.typeOf n) = some r ∧ r.kind = .anySubtype := by
    simp [allocations, hn]
  have harrays : n ∈ (allocations u).arrays ↔
      ∃ r, u.type? (u.typeOf n) = some r ∧ r.kind = .array := by
    simp [allocations, hn]
  have hclass : ∀ s, n ∈ (allocations u).byClass s ↔
      u.typeOf n = s ∧ ∃ r, u.type? (u.typeOf n) = some r ∧ r.kind = .ref := by
    simp [allocations, hn]
  simp only [Admits, hunknown, harrays, hclass]
  rcases hsorted n hn with ⟨hs, hconcrete⟩ | ⟨r, hr, harray | hany⟩
  · obtain ⟨r, hr, hkind⟩ := hh.refs _ hs.declared
    refine ⟨_, castNeverFails_class hh hs ht, ?_⟩
    simp [hr, hkind, hs, hconcrete]
  · exact ⟨_, castNeverFails_array hh hr harray ht, by simp [hr, harray]⟩
  · refine ⟨true, ?_, by simp [hr, hany]⟩
    by_cases heq : t = u.typeOf n
    · simp [castNeverFails, heq]
    · simp [castNeverFails_declared hh ht hr heq, hany]

end Casts

/-! ## The masks -/

section Keys

theorem nodup_set {ν : Type} {m : Assoc TypeId ν} (hm : m.keys.Nodup) (v : ν) :
    (m.set t v).keys.Nodup := by
  refine List.nodup_cons.2 ⟨fun hmem => ?_, hm.sublist (List.filter_sublist.map _)⟩
  obtain ⟨p, hp, rfl⟩ := List.mem_map.1 hmem
  simp [Assoc.erase] at hp

/-- Every entry is there once, all along. -/
theorem nodup_foldl {f : Assoc TypeId (List NodeId) → TypeId → Assoc TypeId (List NodeId)}
    (hf : ∀ done c, done.keys.Nodup → (f done c).keys.Nodup) (hd : done.keys.Nodup)
    (cs : List TypeId) : (cs.foldl f done).keys.Nodup :=
  foldl_run (fun _ st => Assoc.keys st |>.Nodup) hd fun _ c st _ => hf st c

/-- **No type has two masks.** -/
theorem nodup_classMask (H : Hierarchy) : ∀ (fuel : Nat) (t : TypeId)
    (done : Assoc TypeId (List NodeId)), done.keys.Nodup →
      (classMask H a fuel t done).keys.Nodup := by
  intro fuel
  induction fuel with
  | zero =>
    intro t done hd
    unfold classMask
    split
    · exact hd
    · dsimp only
      split
      · exact nodup_set (nodup_set hd _) _
      · exact nodup_set hd _
  | succ fuel ih =>
    intro t done hd
    unfold classMask
    split
    · exact hd
    · dsimp only
      split
      · exact nodup_set (nodup_set hd _) _
      · exact nodup_foldl (fun st c hst => nodup_set (ih c st hst) _) (nodup_set hd _) _

theorem nodup_interfaceMask (H : Hierarchy) (t : TypeId) (hd : done.keys.Nodup) :
    (interfaceMask H a t done).keys.Nodup := by
  unfold interfaceMask
  split
  · exact hd
  · dsimp only
    split
    · exact nodup_set (nodup_set hd _) _
    · exact nodup_foldl (fun st c hst => nodup_set (nodup_classMask H _ c st hst) _)
        (nodup_set hd _) _

theorem nodup_hierarchyMasks (u : Universe) (H : Hierarchy) (root : TypeId) :
    (hierarchyMasks u H root).keys.Nodup :=
  nodup_foldl (fun _ t => nodup_interfaceMask H t)
    (nodup_set (nodup_classMask H _ _ [] List.nodup_nil) _) _

end Keys

/-- Masks that are taken over one by one. -/
theorem get?_takeOver (f : List NodeId → Mask) (s : TypeId) : ∀ (l : Assoc TypeId (List NodeId))
    (c : Casting), l.keys.Nodup →
      (l.foldl (fun c p => { c with masks := c.masks.set p.1 (f p.2) }) c).masks.get? s =
        ((l.get? s).map f).or (c.masks.get? s) := by
  intro l
  induction l with
  | nil => exact fun c _ => rfl
  | cons p l ih =>
    intro c hl
    obtain ⟨k, ns⟩ := p
    obtain ⟨hk, hl⟩ := List.nodup_cons.1 hl
    rw [List.foldl_cons, ih _ hl]
    by_cases heq : s = k
    · subst heq
      have hnone : Assoc.get? l s = none := List.lookup_eq_none_iff.2 fun q hq =>
        bne_iff_ne.2 fun hkey => hk (List.mem_map.2 ⟨q, hq, hkey.symm⟩)
      have hhead : Assoc.get? ((s, ns) :: l) s = some ns := by simp [Assoc.get?]
      rw [hnone, hhead, Assoc.get?_set_self]
      rfl
    · have htail : Assoc.get? ((k, ns) :: l) s = Assoc.get? l s := by
        rw [Assoc.get?, List.lookup_cons, beq_false_of_ne heq]
        rfl
      rw [htail, Assoc.get?_set_ne _ _ heq]

/-- Making masks decides about no cast. -/
theorem casts_classMasks (u : Universe) (h : Option Hierarchy) (root : TypeId) (c : Casting) :
    (classMasks u h root c).casts = c.casts := by
  cases h with
  | none => rfl
  | some H =>
    exact foldl_run (fun _ (st : Casting) => st.casts = c.casts) rfl fun _ _ _ _ hst => hst

/-- **The masks that are made hold every allocation**, on one side or the other. -/
theorem mask_classMasks (u : Universe) (H : Hierarchy) (root : TypeId) (c : Casting)
    (t : TypeId) : (classMasks u (some H) root c).mask t =
      match (hierarchyMasks u H root).get? t with
      | some ns => { inside := ns, outside := u.allocs.filter (· ∉ ns), folded := u.allocs.length }
      | none => c.mask t := by
  unfold mask Assoc.getD classMasks
  dsimp only
  rw [get?_takeOver (fun ns => ⟨ns, u.allocs.filter (· ∉ ns), u.allocs.length⟩) t _ c
    (nodup_hierarchyMasks u H root)]
  cases (hierarchyMasks u H root).get? t <;> rfl

theorem mem_allocs_of_admits (hn : Admits h u t n) : n ∈ u.allocs := by
  rcases hn with hn | ⟨s, -, -, hn, -⟩ | ⟨-, hn⟩ <;> exact List.mem_of_mem_filter hn

/-- **After the walk the masks of the declared types say what the casts say**, of all
allocations. -/
theorem decides_classMasks (hh : h.Tree u) (hsorted : Sorted h u) (ht : h.Declared t)
    (c : Casting) (b : Bool) :
    (classMasks u (some (h.view u)) h.root c).Decides t n b ↔
      n ∈ u.allocs ∧ castNeverFails u (some (h.view u)) (u.typeOf n) t = .ok b := by
  obtain ⟨ns, hns, hmem⟩ := (entered_hierarchyMasks hh).admits t ((declared_iff hh).1 ht)
  rw [Decides, mask_classMasks, hns]
  dsimp only
  have hinside : n ∈ ns ↔
      n ∈ u.allocs ∧ castNeverFails u (some (h.view u)) (u.typeOf n) t = .ok true := by
    rw [hmem n]
    constructor
    · intro hadmits
      have hn := mem_allocs_of_admits hadmits
      obtain ⟨b, hcast, hb⟩ := castNeverFails_admits hh hsorted ht hn
      exact ⟨hn, hcast.trans (congrArg _ (hb.2 hadmits))⟩
    · rintro ⟨hn, hcast⟩
      obtain ⟨b, hcast', hb⟩ := castNeverFails_admits hh hsorted ht hn
      exact hb.1 (Except.ok.inj (hcast'.symm.trans hcast))
  cases b with
  | true => exact hinside
  | false =>
    rw [if_neg Bool.false_ne_true, List.mem_filter, decide_eq_true_eq, hinside]
    refine and_congr_right fun hn => ?_
    obtain ⟨b, hcast, -⟩ := castNeverFails_admits hh hsorted ht hn
    rw [hcast]
    cases b <;> simp [hn]

theorem folded_classMasks (hh : h.Tree u) (ht : h.Declared t) (c : Casting) :
    ((classMasks u (some (h.view u)) h.root c).mask t).folded = u.allocs.length := by
  obtain ⟨ns, hns, -⟩ := (entered_hierarchyMasks hh).admits t ((declared_iff hh).1 ht)
  rw [mask_classMasks, hns]

/-- Other types keep the masks they had. -/
theorem mask_classMasks_of_not_declared (hh : h.Tree u) (ht : ¬ h.Declared t) (c : Casting) :
    (classMasks u (some (h.view u)) h.root c).mask t = c.mask t := by
  have ht := mt (declared_iff hh).2 ht
  rw [not_or] at ht
  rw [mask_classMasks, (entered_hierarchyMasks hh).others t ht.1 ht.2]

namespace Stage

variable {s : Stage}

/-- The masks of the hierarchy have been computed by walking it. -/
def walked (s : Stage) (root : TypeId) : Stage :=
  { s with casting := classMasks s.nodes s.hierarchy root s.casting }

/-- The masks have been forgotten. -/
def cleared (s : Stage) : Stage := { s with casting := s.casting.clearMasks }

/-- **Walking the hierarchy leaves right what is remembered.** -/
theorem Right.walked (hs : s.Right) (hview : s.hierarchy = some (h.view s.nodes))
    (hh : h.Tree s.nodes) (hsorted : Sorted h s.nodes) : (s.walked h.root).Right := by
  have hcasting : (s.walked h.root).casting =
      classMasks s.nodes (some (h.view s.nodes)) h.root s.casting := by rw [Stage.walked, hview]
  have hold : ∀ {t n b}, ¬ h.Declared t →
      ((s.walked h.root).casting.Decides t n b ↔ s.casting.Decides t n b) := fun ht => by
    rw [hcasting, Decides, Decides, mask_classMasks_of_not_declared hh ht]
  have hnew : ∀ {t n b}, h.Declared t → ((s.walked h.root).casting.Decides t n b ↔
      n ∈ s.nodes.allocs ∧ castNeverFails s.nodes s.hierarchy (s.nodes.typeOf n) t = .ok b) :=
    fun ht => by rw [hcasting, hview, decides_classMasks hh hsorted ht]
  refine ⟨hs.inOrder, hs.typed, ⟨fun src dst b hb => ?_, fun t n b hb => ?_⟩,
    ⟨fun t n b hb => ?_, fun t => ?_, fun t n hn => ?_⟩⟩
  · rw [hcasting, casts_classMasks] at hb
    exact hs.sound.casts src dst b hb
  · by_cases ht : h.Declared t
    · obtain ⟨hn, hcast⟩ := (hnew ht).1 hb
      obtain ⟨r, hr, -⟩ := hh.refs t ht
      exact ⟨.inr (Universe.hasType_of_eq hr), hs.typed n (hs.inOrder.mem_allocs.1 hn), hcast⟩
    · exact hs.sound.masks t n b ((hold ht).1 hb)
  · by_cases ht : h.Declared t
    · exact hs.inOrder.mem_allocs.1 ((hnew ht).1 hb).1
    · exact hs.upToDate.allocs t n b ((hold ht).1 hb)
  · by_cases ht : h.Declared t
    · rw [hcasting, folded_classMasks hh ht]
      exact Nat.le_refl _
    · rw [hcasting, mask_classMasks_of_not_declared hh ht]
      exact hs.upToDate.folded_le t
  · by_cases ht : h.Declared t
    · have hn := List.mem_of_mem_take hn
      obtain ⟨b, hcast, -⟩ := castNeverFails_admits hh hsorted ht hn
      exact ⟨b, (hnew ht).2 ⟨hn, hview ▸ hcast⟩⟩
    · rw [hcasting, mask_classMasks_of_not_declared hh ht] at hn
      exact (hs.upToDate.folded t n hn).imp fun b => (hold ht).2

theorem Leads.grows {s s' : Stage} (hrun : s.Leads s') : s.nodes.Grows s'.nodes := by
  induction hrun with
  | refl => exact .refl _
  | tail _ hstep ih =>
    cases hstep with
    | add a ha => exact ih.trans (a.change ha).grows
    | _ => exact ih

/-- **The mask of a reference type is computed**, and holds the allocations whose
casts say so. -/
theorem Right.typeMask (hs : s.Right) {r : TypeRecord} (hr : s.nodes.type? t = some r)
    (hkind : r.kind = .ref) :
    ∃ ns, ((Casting.typeMask s.nodes s.hierarchy t).go s.casting).1 = .ok ns ∧
      ∀ n, n ∈ ns ↔ n ∈ s.nodes.allocs ∧
        castNeverFails s.nodes s.hierarchy (s.nodes.typeOf n) t = .ok true := by
  obtain ⟨-, -, hmem, hok⟩ := go_typeMask hs.inOrder hs.typed hs.sound hs.upToDate
    (.inr (Universe.hasType_of_eq hr) : s.nodes.Knows t)
  have hcasts : ∀ n ∈ s.nodes.allocs, ∃ b,
      castNeverFails s.nodes s.hierarchy (s.nodes.typeOf n) t = .ok b := fun n _ => by
    simp only [castNeverFails, decideCast, Universe.typeD_of_eq hr, hkind]
    grind
  obtain ⟨ns, hns⟩ := hok.2 hcasts
  exact ⟨ns, hns, hmem ns hns⟩

/-- **Walking the hierarchy and deciding cast by cast agree.** In a universe whose
allocations are those of classes that can be instantiated, of arrays and of
unknown classes, the walk over a tree of classes finds for every declared
type the allocations that are cast to it. From then on, however the universe
grows and whatever is asked, its mask is computed and has the same
allocations as the mask of a run that started from masks that had been
forgotten. -/
theorem walked_agrees {h₀ : Option Hierarchy} (hrun : Leads { hierarchy := h₀ } s)
    (hview : s.hierarchy = some (h.view s.nodes)) (hh : h.Tree s.nodes)
    (hsorted : Sorted h s.nodes) (ht : h.Declared t) :
    (∀ n, n ∈ (s.walked h.root).casting.known t ↔ n ∈ s.nodes.allocs ∧
      castNeverFails s.nodes s.hierarchy (s.nodes.typeOf n) t = .ok true) ∧
    ∀ s₁ s₂, Leads (s.walked h.root) s₁ → Leads s.cleared s₂ → s₁.nodes = s₂.nodes →
      s₁.hierarchy = s₂.hierarchy →
      ∃ ns ms, ((Casting.typeMask s₁.nodes s₁.hierarchy t).go s₁.casting).1 = .ok ns ∧
        ((Casting.typeMask s₂.nodes s₂.hierarchy t).go s₂.casting).1 = .ok ms ∧
        (∀ n, n ∈ ns ↔ n ∈ ms) ∧
        ∀ n, n ∈ ns ↔ n ∈ s₁.nodes.allocs ∧
          castNeverFails s₁.nodes s₁.hierarchy (s₁.nodes.typeOf n) t = .ok true := by
  have hs := (right_start h₀).leads hrun
  have hwalked := hs.walked hview hh hsorted
  refine ⟨fun n => ?_, fun s₁ s₂ hrun₁ hrun₂ hnodes hhierarchy => ?_⟩
  · rw [mem_known, walked, hview, decides_classMasks hh hsorted ht]
  · obtain ⟨r, hr, hkind⟩ := hh.refs t ht
    have hs₁ := hwalked.leads hrun₁
    have hs₂ := (hs.step .clearMasks : s.cleared.Right).leads hrun₂
    obtain ⟨b₁, hr₁⟩ := Leads.grows hrun₁ |>.types t r hr
    obtain ⟨b₂, hr₂⟩ := Leads.grows hrun₂ |>.types t r hr
    obtain ⟨ns, hns, hmem⟩ := hs₁.typeMask hr₁ hkind
    obtain ⟨ms, hms, hmem'⟩ := hs₂.typeMask hr₂ hkind
    refine ⟨ns, ms, hns, hms, fun n => ?_, hmem⟩
    rw [hmem n, hmem' n, hnodes, hhierarchy]

theorem tree_shapes : shapeHierarchy.Tree shapesMade.nodes where
  refs t ht := by
    have hall : ∀ t ∈ shapeHierarchy.interfaceLists.map (·.1),
        (shapesMade.nodes.type? t).map (·.kind) = some .ref := by decide +kernel
    exact Option.map_eq_some_iff.1 (hall t ht)
  interfaces t ht := by
    have hall : ∀ t ∈ shapeHierarchy.interfaces, shapeHierarchy.Declared t := by decide
    exact hall t (List.contains_iff_mem.1 ht)
  lists t l hl := by
    have hall : ∀ p ∈ shapeHierarchy.interfaceLists, ∀ i ∈ p.2, shapeHierarchy.isInterface i := by
      decide
    exact hall _ hl
  classes t s hs := by
    have hall : ∀ p ∈ shapeHierarchy.extensions,
        shapeHierarchy.IsClass p.1 ∧ shapeHierarchy.IsClass p.2 := by decide
    exact hall _ hs
  once := by decide
  root := by decide
  root_top s := by simp [shapeHierarchy]
  root_lists l := by simp [shapeHierarchy]
  under t ht := by
    have hall : ∀ t ∈ shapeHierarchy.interfaceLists.map (·.1), ¬ shapeHierarchy.isInterface t →
        t = 2 ∨ t = 4 ∨ t = 5 := by decide
    have hshape : shapeHierarchy.Under 2 4 := .single (by decide)
    rcases hall t ht.declared ht.not_interface with rfl | rfl | rfl
    · exact .refl
    · exact hshape
    · exact hshape.tail (by decide)

theorem sorted_shapes : Sorted shapeHierarchy shapesMade.nodes := by
  have hall : ∀ n ∈ shapesMade.nodes.allocs,
      (shapeHierarchy.IsClass (shapesMade.nodes.typeOf n) ∧
        shapeHierarchy.isConcrete (shapesMade.nodes.typeOf n)) ∨
      (shapesMade.nodes.type? (shapesMade.nodes.typeOf n)).map (·.kind) ∈
        [some .array, some .anySubtype] := by decide +kernel
  intro n hn
  refine (hall n hn).imp_right fun hkind => ?_
  obtain ⟨r, hr⟩ : ∃ r, shapesMade.nodes.type? (shapesMade.nodes.typeOf n) = some r := by
    match shapesMade.nodes.type? (shapesMade.nodes.typeOf n), hkind with
    | some r, _ => exact ⟨r, rfl⟩
  rw [hr] at hkind
  exact ⟨r, hr, by simpa using hkind⟩

/-- A circle more. -/
def withCircle (s : Stage) : Stage :=
  let u := (Universe.Addition.alloc "late" 5 0).apply s.nodes
  { s with nodes := u, hierarchy := some (shapeHierarchy.view u) }

/-- An allocation may be added after the hierarchy was looked at again. -/
theorem leads_withCircle (hs : s.Right) (hview : s.hierarchy = some (shapeHierarchy.view s.nodes))
    (hcircle : s.nodes.HasType 5) : s.Leads s.withCircle := by
  have htyped : (Universe.Addition.alloc "late" 5 0).Typed s.nodes := .inr hcircle
  have hagree := shapeHierarchy.view_agreeOn hs.inOrder (Universe.Addition.change _ htyped).grows
  have hlearn : Step s { s with hierarchy := s.withCircle.hierarchy } := .learn _ (hview ▸ hagree)
  exact (Relation.ReflTransGen.single hlearn).tail (.add _ htyped)

theorem walked_agrees_shapes :
    let s₁ := (shapesMade.walked shapeHierarchy.root).withCircle
    let s₂ := shapesMade.cleared.withCircle
    ∃ ns ms, ((Casting.typeMask s₁.nodes s₁.hierarchy 3).go s₁.casting).1 = .ok ns ∧
      ((Casting.typeMask s₂.nodes s₂.hierarchy 3).go s₂.casting).1 = .ok ms ∧
      (∀ n, n ∈ ns ↔ n ∈ ms) ∧ ∀ n, n ∈ ns ↔ n ∈ [1, 2, 5] := by
  intro s₁ s₂
  have hright := (right_start _).leads leads_shapesMade
  have hcircle : shapesMade.nodes.HasType 5 := by decide +kernel
  have hrun₁ : Leads (shapesMade.walked shapeHierarchy.root) s₁ :=
    leads_withCircle (hright.walked rfl tree_shapes sorted_shapes) rfl hcircle
  have hrun₂ : Leads shapesMade.cleared s₂ :=
    leads_withCircle (hright.step .clearMasks) rfl hcircle
  obtain ⟨-, hagree⟩ := walked_agrees leads_shapesMade rfl tree_shapes sorted_shapes
    (show shapeHierarchy.Declared 3 by decide)
  obtain ⟨ns, ms, hns, hms, hsame, hmem⟩ := hagree s₁ s₂ hrun₁ hrun₂ rfl rfl
  have hcasts : ∀ n ∈ s₁.nodes.allocs,
      castNeverFails s₁.nodes s₁.hierarchy (s₁.nodes.typeOf n) 3 = .ok ([1, 2, 5].contains n) := by
    decide +kernel
  exact ⟨ns, ms, hns, hms, hsame, fun n =>
    (hmem n).trans (cast_iff_mem hcasts (by decide +kernel) n)⟩

end Stage

end Casting

end PointsTo
