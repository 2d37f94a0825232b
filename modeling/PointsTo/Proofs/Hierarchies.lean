import Mathlib
import PointsTo.Proofs.Casts
import PointsTo.Proofs.Reachability
/-!
# Class hierarchies, as relations

Being below a type is a closure of what has been declared (`isSubtype_iff`),
and what can be stored where depends on the shape of the two types alone
(`canStoreWithin_congr`): the same values can be stored in types of two
universes that are alike. So a declared hierarchy keeps its answers while
its universe grows.
-/

namespace PointsTo

namespace ClassHierarchy

variable {h : ClassHierarchy} {src dst t : TypeId}

/-! ## Subtypes -/

/-- `b` is declared to be above `a`, in one or more steps, or is `a`. -/
abbrev Below (h : ClassHierarchy) : TypeId → TypeId → Prop := Reaches h.supertypes

/-- A superclass has been declared. -/
theorem superclass?_eq_some {super : TypeId} (hs : h.superclass? t = some super) :
    (t, super) ∈ h.extensions := by
  obtain ⟨p, hp, rfl⟩ := Option.map_eq_some_iff.1 hs
  have hmem := List.mem_of_getLast? hp
  rw [List.mem_filter, beq_iff_eq] at hmem
  obtain ⟨hmem, rfl⟩ := hmem
  exact hmem

theorem superclass?_eq_none : h.superclass? t = none ↔ ∀ super, (t, super) ∉ h.extensions := by
  rw [superclass?, Option.map_eq_none_iff, List.getLast?_eq_none_iff, List.filter_eq_nil_iff]
  constructor
  · intro hnone super hmem
    simpa using hnone _ hmem
  · rintro hnone ⟨a, super⟩ hmem heq
    obtain rfl : a = t := by simpa using heq
    exact hnone super hmem

/-- The types right above one are its superclass and its interfaces. -/
theorem mem_supertypes : dst ∈ h.supertypes src ↔ h.superclass? src = some dst ∨
    ∃ l, (src, l) ∈ h.interfaceLists ∧ dst ∈ l := by
  simp only [supertypes, List.mem_append, Option.mem_toList, List.mem_flatMap, List.mem_filter,
    beq_iff_eq, Prod.exists]
  refine or_congr_right ⟨?_, ?_⟩
  · rintro ⟨a, l, ⟨hmem, rfl⟩, hdst⟩
    exact ⟨l, hmem, hdst⟩
  · rintro ⟨l, hmem, hdst⟩
    exact ⟨src, l, ⟨hmem, rfl⟩, hdst⟩

/-- Every declaration is followed once. -/
theorem length_flatMap_supertypes_le {ts : List TypeId} (hts : ts.Nodup) :
    (ts.flatMap h.supertypes).length ≤ h.arcs := by
  have hsuper := sum_filter_le (fun p : TypeId × TypeId => p.1) (fun _ => 1) hts h.extensions
  have hlists := sum_filter_le (fun p : TypeId × List TypeId => p.1) (fun p => p.2.length) hts
    h.interfaceLists
  -- one of the superclasses that have been declared counts
  have hone : ∀ t, (h.superclass? t).toList.length ≤
      ((h.extensions.filter (·.1 == t)).map fun _ => 1).sum := by
    intro t
    rw [superclass?]
    cases hlast : (h.extensions.filter (·.1 == t)).getLast? with
    | none => exact Nat.zero_le _
    | some p =>
      rw [List.map_const', List.sum_replicate, smul_eq_mul, Nat.mul_one]
      exact List.length_pos_of_mem (List.mem_of_getLast? hlast)
  have hsum := List.sum_le_sum (l := ts) fun t _ => hone t
  have hlength : (ts.flatMap h.supertypes).length =
      (ts.map fun t => (h.superclass? t).toList.length).sum +
        (ts.map fun t => ((h.interfaceLists.filter (·.1 == t)).map (·.2.length)).sum).sum := by
    rw [← List.sum_map_add, List.length_flatMap]
    simp only [supertypes, List.length_append, List.length_flatMap]
  rw [hlength, arcs, List.length_flatMap]
  refine Nat.add_le_add (Nat.le_trans hsum (Nat.le_trans hsuper ?_)) hlists
  simp

/-- **Subtypes are what has been declared**, and everything below the root. -/
theorem isSubtype_iff : h.isSubtype src dst ↔ h.Below src dst ∨ dst = h.root ∧ h.root ≠ noType := by
  rw [isSubtype, Bool.or_eq_true, List.contains_iff_mem, ancestors,
    mem_explore fun _ => length_flatMap_supertypes_le]
  simp

/-! ## What can be stored where -/

/-- **Targets in two universes that are alike.** Both universes have grown from one,
and a value of a type of that one is told from the targets in the same way:
by being the same type, by their shape, and by whether the target is the
root. -/
structure Alike (h : ClassHierarchy) (u₀ u₁ u₂ : Universe) (R : TypeId → TypeId → Prop) :
    Prop where
  same : ∀ {src d d'}, u₀.Knows src → R d d' → (src = d ↔ src = d')
  root : ∀ {d d'}, R d d' → (d = h.root ↔ d' = h.root)
  kind : ∀ {d d'}, R d d' → (u₁.typeD d).kind = (u₂.typeD d').kind
  isSome : ∀ {d d'}, R d d' → (u₁.HasType d ↔ u₂.HasType d')
  elem : ∀ {d d'}, R d d' → (u₁.typeD d).kind = .array → R (u₁.typeD d).elem (u₂.typeD d').elem
  ref : ∀ {d d'}, R d d' → u₁.HasType d → (u₁.typeD d).kind = .ref → d = d'

variable {u u' u₀ u₁ u₂ : Universe}

@[simp] theorem canStoreWithin_self (fuel : Nat) : h.canStoreWithin u fuel t t = true := by
  unfold canStoreWithin
  exact if_pos rfl

/-- Unless both are types, nothing can be stored but what it is itself. -/
theorem canStoreWithin_of_not_hasType {fuel : Nat} (hne : src ≠ dst)
    (hnot : ¬ (u.HasType src ∧ u.HasType dst)) : h.canStoreWithin u fuel src dst = false := by
  unfold canStoreWithin
  rw [if_neg hne]
  unfold Universe.HasType at hnot
  cases hs : u.type? src <;> cases hd : u.type? dst <;> simp_all

/-- Arrays are compared by their elements, and all else by what is declared. -/
theorem canStoreWithin_succ (fuel : Nat) {s d : TypeRecord} (hne : src ≠ dst)
    (hs : u.type? src = some s) (hd : u.type? dst = some d) :
    h.canStoreWithin u (fuel + 1) src dst =
      match s.kind with
      | .array =>
        if d.kind ≠ .array then dst == h.root
        else if (u.typeD s.elem).kind = .primitive ∨ (u.typeD d.elem).kind = .primitive then
          s.elem == d.elem
        else h.canStoreWithin u fuel s.elem d.elem
      | .ref => d.kind == .ref && h.isSubtype src dst
      | _ => false := by
  rewrite [canStoreWithin, if_neg hne, hs, hd]
  rfl

/-- Between reference types, being stored is being below. -/
theorem canStore_of_ref {s d : TypeRecord} (hne : src ≠ dst) (hs : u.type? src = some s)
    (hd : u.type? dst = some d) (hkind : s.kind = .ref) (hkind' : d.kind = .ref) :
    h.canStore u src dst = h.isSubtype src dst := by
  rw [canStore, canStoreWithin, if_neg hne, hs, hd]
  simp [hkind, hkind']

/-- The reference type that arrays can be stored in is the root. -/
theorem canStore_of_array {s d : TypeRecord} (hne : src ≠ dst) (hs : u.type? src = some s)
    (hd : u.type? dst = some d) (hkind : s.kind = .array) (hkind' : d.kind = .ref) :
    h.canStore u src dst = (dst == h.root) := by
  rw [canStore, canStoreWithin, if_neg hne, hs, hd]
  simp [hkind, hkind']

/-- Nothing has to be decided about a type and itself, or where a type is missing. -/
theorem canStoreWithin_congr_of_or {R : TypeId → TypeId → Prop} (hR : h.Alike u₀ u₁ u₂ R)
    {src : Int} {d d' : TypeId} (hsrc : u₀.Knows src) (hd : R d d')
    (hor : src = d ∨ ¬ (u₀.HasType src ∧ u₁.HasType d)) (fuel₁ fuel₂ : Nat) :
    h.canStoreWithin u₁ fuel₁ src d = h.canStoreWithin u₂ fuel₂ src d' := by
  by_cases hsame : src = d
  · obtain rfl := hsame
    rw [← (hR.same hsrc hd).1 rfl, canStoreWithin_self, canStoreWithin_self]
  · have hnot := hor.resolve_left hsame
    have hback : ∀ u : Universe, u.HasType src → u₀.HasType src := fun u hs =>
      hsrc.resolve_left fun hnone => Universe.not_hasType_noType (hnone ▸ hs)
    rw [canStoreWithin_of_not_hasType hsame fun h => hnot ⟨hback u₁ h.1, h.2⟩,
      canStoreWithin_of_not_hasType (mt (hR.same hsrc hd).2 hsame) fun h =>
        hnot ⟨hback u₂ h.1, (hR.isSome hd).2 h.2⟩]

/-- **What can be stored where depends on the shape of the target**, not on the
numbers of its types or on how far the universe has grown. An array is at
most as deep as its number. -/
theorem canStoreWithin_congr {R : TypeId → TypeId → Prop} (hR : h.Alike u₀ u₁ u₂ R)
    (h₀ : u₀.InOrder) (h₁ : u₀.Grows u₁) (h₂ : u₀.Grows u₂) :
    ∀ (fuel₁ fuel₂ : Nat) (src : Int) (d d' : TypeId), u₀.Knows src → R d d' →
      src ≤ fuel₁ → src ≤ fuel₂ →
      h.canStoreWithin u₁ fuel₁ src d = h.canStoreWithin u₂ fuel₂ src d' := by
  intro fuel₁
  induction fuel₁ with
  | zero =>
    intro fuel₂ src d d' hsrc hd hle₁ _
    refine canStoreWithin_congr_of_or hR hsrc hd (.inr fun hthere => ?_) 0 fuel₂
    have := (Universe.hasType_iff.1 hthere.1).1
    omega
  | succ fuel₁ ih =>
    intro fuel₂ src d d' hsrc hd hle₁ hle₂
    by_cases hor : src = d ∨ ¬ (u₀.HasType src ∧ u₁.HasType d)
    · exact canStoreWithin_congr_of_or hR hsrc hd hor (fuel₁ + 1) fuel₂
    obtain ⟨hsame, hthere⟩ := not_or.1 hor
    have hsame' := mt (hR.same hsrc hd).2 hsame
    obtain ⟨hs, hd₁⟩ := not_not.1 hthere
    obtain ⟨s, hs⟩ := Option.isSome_iff_exists.1 hs
    obtain ⟨b₁, hs₁⟩ := h₁.types src s hs
    obtain ⟨b₂, hs₂⟩ := h₂.types src s hs
    obtain ⟨r, hr⟩ := Option.isSome_iff_exists.1 hd₁
    obtain ⟨r', hr'⟩ := Option.isSome_iff_exists.1 ((hR.isSome hd).1 hd₁)
    have hpos := (Universe.hasType_iff.1 (Universe.hasType_of_eq hs)).1
    obtain ⟨fuel₂, rfl⟩ : ∃ k, fuel₂ = k + 1 := ⟨fuel₂ - 1, by omega⟩
    have hkind := hR.kind hd
    have helem := hR.elem hd
    have href := hR.ref hd hd₁
    rw [Universe.typeD_of_eq hr, Universe.typeD_of_eq hr'] at hkind helem
    rw [Universe.typeD_of_eq hr] at href
    have hse := h₀.knows_elem hs
    obtain ⟨-, hlt⟩ := h₀.elements src s hs
    have hle₁' : (s.elem : Int) ≤ fuel₁ := Int.le_of_lt_add_one (Int.lt_of_lt_of_le hlt hle₁)
    have hle₂' : (s.elem : Int) ≤ fuel₂ := Int.le_of_lt_add_one (Int.lt_of_lt_of_le hlt hle₂)
    rw [canStoreWithin_succ fuel₁ hsame hs₁ hr, canStoreWithin_succ fuel₂ hsame' hs₂ hr']
    dsimp only
    rw [← hkind]
    match s.kind with
    | .array =>
      dsimp only
      by_cases harray : r.kind = .array
      · have helem := helem harray
        obtain ⟨c₁, hc₁⟩ := h₁.typeD hse
        obtain ⟨c₂, hc₂⟩ := h₂.typeD hse
        have hbeq : (s.elem == r.elem) = (s.elem == r'.elem) := by
          rw [Bool.eq_iff_iff, beq_iff_eq, beq_iff_eq]
          exact hR.same hse helem
        rw [if_neg (not_not.2 harray), if_neg (not_not.2 harray), hc₁, hc₂, hR.kind helem, hbeq,
          ih fuel₂ s.elem r.elem r'.elem hse helem hle₁' hle₂']
      · rw [if_pos harray, if_pos harray, Bool.eq_iff_iff, beq_iff_eq, beq_iff_eq]
        exact hR.root hd
    | .ref =>
      by_cases hd' : r.kind = .ref
      · rw [href hd']
      · have hfalse : (r.kind == TypeKind.ref) = false := by simpa using hd'
        rw [hfalse, Bool.false_and, Bool.false_and]
    | .null | .anySubtype | .primitive | .unknown => rfl

/-- The same holds of casts, whose faults name the types. -/
theorem castNeverFails_congr {R : TypeId → TypeId → Prop} (hR : h.Alike u₀ u₁ u₂ R)
    (h₀ : u₀.InOrder) (h₁ : u₀.Grows u₁) (h₂ : u₀.Grows u₂) {d d' : TypeId}
    (hsrc : u₀.Knows src) (hd : R d d') (hnone : d = noType ↔ d' = noType)
    (hname : (u₁.typeD d).name = (u₂.typeD d').name) :
    castNeverFails u₁ (some (h.view u₁)) src d = castNeverFails u₂ (some (h.view u₂)) src d' := by
  have hbound : ∀ {u : Universe}, u₀.Grows u → (src : Int) ≤ u.numTypes := by
    intro u hu
    rcases hu.knows hsrc with rfl | hs
    · exact Int.natCast_nonneg _
    · exact Int.le_of_lt (Universe.hasType_iff.1 hs).2
  have hstore := canStoreWithin_congr hR h₀ h₁ h₂ u₁.numTypes u₂.numTypes src d d' hsrc hd
    (hbound h₁) (hbound h₂)
  have hsame : (d = noType ∨ d = src) ↔ (d' = noType ∨ d' = src) :=
    or_congr hnone (eq_comm.trans ((hR.same hsrc hd).trans eq_comm))
  obtain ⟨b₁, hb₁⟩ := h₁.typeD hsrc
  obtain ⟨b₂, hb₂⟩ := h₂.typeD hsrc
  have hdecide : decideCast u₁ (h.view u₁) src d = decideCast u₂ (h.view u₂) src d' := by
    have hview : (h.view u₁).canStore src d = (h.view u₂).canStore src d' := hstore
    simp only [decideCast, hb₁, hb₂, hR.kind hd, hname, hview]
  simp only [castNeverFails, hsame, hdecide]

/-- **A declared hierarchy keeps its answers** about the types that are there. -/
theorem view_agreeOn (h : ClassHierarchy) (hu : u.InOrder) (hg : u.Grows u') :
    Hierarchy.AgreeOn u (some (h.view u)) (some (h.view u')) := by
  refine .some fun src dst hsrc hdst => ?_
  have hR : h.Alike u u u' fun d d' => d = d' ∧ u.Knows d := by
    refine ⟨?_, ?_, ?_, ?_, ?_, fun hd _ _ => hd.1⟩
    · rintro src d _ - ⟨rfl, -⟩
      rfl
    · rintro d _ ⟨rfl, -⟩
      rfl
    · rintro d _ ⟨rfl, hd⟩
      obtain ⟨b, hb⟩ := hg.typeD hd
      rw [hb]
    · rintro d _ ⟨rfl, hd⟩
      refine ⟨hg.hasType, fun hd' => hd.resolve_left ?_⟩
      rintro rfl
      exact Universe.not_hasType_noType hd'
    · rintro d _ ⟨rfl, hd⟩ -
      obtain ⟨b, hb⟩ := hg.typeD hd
      rw [hb]
      refine ⟨rfl, ?_⟩
      rcases hd with rfl | hd
      · exact .inl (by simp [Universe.typeD])
      · obtain ⟨r, hr⟩ := Option.isSome_iff_exists.1 hd
        exact Universe.typeD_of_eq hr ▸ hu.knows_elem hr
  have hlt := (Universe.hasType_iff.1 hsrc).2
  have hlt' := (Universe.hasType_iff.1 (hg.hasType hsrc)).2
  exact canStoreWithin_congr hR hu (.refl u) hg _ _ src dst dst (.inr hsrc) ⟨rfl, .inr hdst⟩
    (Int.le_of_lt hlt) (Int.le_of_lt hlt')

end ClassHierarchy

end PointsTo
