import PointsTo.Proofs.ClassMasks
/-!
# Storability is a preorder

A declared hierarchy answers two questions by recursion: the search for a
type among the supertypes of another, which declarations in a circle could
send round forever, and the comparison of arrays by their elements. Both
are stated here as the rules they follow (`Seeks`, `Stores`), without a
bound on the steps, so that having an answer is having come to an end. The
rules say as well that the answers are exact and that they compose:
`storability` is about whatever has been declared, over whatever universe.
-/

namespace PointsTo

/-! ## Searching -/

section Seeks

variable {α : Type} {next : α → List α} {dst src : α} {pending seen : List α} {b : Bool}

/-- **A search for a point comes to an end.** The point at the front of the
pending ones is looked at: it is the one, or has been seen, or is replaced by
its successors. -/
inductive Seeks (next : α → List α) (dst : α) : List α → List α → Bool → Prop
  | missed {seen : List α} : Seeks next dst [] seen false
  | found {pending seen : List α} : Seeks next dst (dst :: pending) seen true
  | again {x : α} {pending seen : List α} {b : Bool} (hne : x ≠ dst) (hx : x ∈ seen)
      (h : Seeks next dst pending seen b) : Seeks next dst (x :: pending) seen b
  | visit {x : α} {pending seen : List α} {b : Bool} (hne : x ≠ dst) (hx : x ∉ seen)
      (h : Seeks next dst (next x ++ pending) (x :: seen) b) : Seeks next dst (x :: pending) seen b

/-- **No point is visited twice**, so every search comes to an end: each visit is
paid for by the arcs out of the points that have not been seen. -/
theorem exists_seeks (dst : α) {arcs : Nat}
    (hbound : ∀ xs : List α, xs.Nodup → (xs.flatMap next).length ≤ arcs) :
    ∀ (fuel : Nat) (pending seen : List α),
      pending.length + arcs ≤ fuel + (seen.flatMap next).length → seen.Nodup →
      ∃ b, Seeks next dst pending seen b := by
  classical
  intro fuel
  induction fuel with
  | zero =>
    intro pending seen hfuel hseen
    have hle := hbound seen hseen
    obtain rfl : pending = [] := List.length_eq_zero_iff.1 (by omega)
    exact ⟨false, .missed⟩
  | succ fuel ih =>
    intro pending seen hfuel hseen
    match pending with
    | [] => exact ⟨false, .missed⟩
    | x :: pending =>
      rw [List.length_cons] at hfuel
      by_cases hfound : x = dst
      · exact hfound ▸ ⟨true, .found⟩
      by_cases hx : x ∈ seen
      · exact (ih pending seen (by omega) hseen).imp fun _ => .again hfound hx
      · have hfuel' : (next x ++ pending).length + arcs ≤
            fuel + ((x :: seen).flatMap next).length := by
          rw [List.flatMap_cons, List.length_append, List.length_append]
          omega
        exact (ih _ _ hfuel' (List.nodup_cons.2 ⟨hx, hseen⟩)).imp fun _ => .visit hfound hx

/-- **What a search finds can be reached, and nothing else can**, if what the seen
points lead to is seen or pending and the point sought is none of them. -/
theorem Seeks.iff_reaches (h : Seeks next dst pending seen b) (hdst : dst ∉ seen)
    (hclosed : ∀ x ∈ seen, ∀ y ∈ next x, y ∈ seen ∨ y ∈ pending) :
    b = true ↔ ∃ x ∈ pending, Reaches next x dst := by
  induction h with
  | missed => simp
  | found => exact iff_of_true rfl ⟨dst, List.mem_cons_self, .refl⟩
  | @again x pending seen b hne hx _ ih =>
    have hclosed' : ∀ a ∈ seen, ∀ y ∈ next a, y ∈ seen ∨ y ∈ pending := by
      intro a ha y hy
      obtain hseen | hpending := hclosed a ha y hy
      · exact .inl hseen
      · refine (List.mem_cons.1 hpending).imp_left fun (heq : y = x) => ?_
        rwa [heq]
    rw [ih hdst hclosed']
    constructor
    · rintro ⟨a, ha, hreach⟩
      exact ⟨a, List.mem_cons_of_mem _ ha, hreach⟩
    · rintro ⟨a, ha, hreach⟩
      obtain rfl | ha := List.mem_cons.1 ha
      · -- the seen points lead out of themselves through a pending one only
        refine (hreach.mem_of_closed
          (S := fun z => z ∈ seen ∨ ∃ p ∈ pending, Reaches next p z) ?_ (.inl hx)).resolve_left hdst
        rintro y z (hy | ⟨p, hp, hpy⟩) hz
        · exact (hclosed' y hy z hz).imp_right fun hz => ⟨z, hz, .refl⟩
        · exact .inr ⟨p, hp, hpy.tail hz⟩
      · exact ⟨a, ha, hreach⟩
  | @visit x pending seen b hne hx _ ih =>
    have hclosed' : ∀ a ∈ x :: seen, ∀ y ∈ next a, y ∈ x :: seen ∨ y ∈ next x ++ pending := by
      intro a ha y hy
      obtain rfl | ha := List.mem_cons.1 ha
      · exact .inr (List.mem_append_left _ hy)
      · obtain hseen | hpending := hclosed a ha y hy
        · exact .inl (List.mem_cons_of_mem _ hseen)
        · obtain rfl | hpending := List.mem_cons.1 hpending
          · exact .inl List.mem_cons_self
          · exact .inr (List.mem_append_right _ hpending)
    rw [ih (List.not_mem_cons_of_ne_of_not_mem hne.symm hdst) hclosed']
    simp only [List.mem_append, List.mem_cons, or_and_right, exists_or, exists_eq_left,
      Reaches.iff_eq_or_head (a := x), hne.symm, false_or]

end Seeks

namespace ClassHierarchy

/-! ## Declarations -/

/-- What can be declared. -/
inductive Declaration where
  | addClass (t super : TypeId) (interfaces : List TypeId)
  | addInterface (t : TypeId) (extended : List TypeId)
  | setAbstract (t : TypeId)
  | setRoot (t : TypeId)
  deriving DecidableEq, Repr

namespace Declaration

/-- Declares it. -/
def make (h : ClassHierarchy) : Declaration → ClassHierarchy
  | addClass t super interfaces => h.addClass t super interfaces
  | addInterface t extended => h.addInterface t extended
  | setAbstract t => h.setAbstract t
  | setRoot t => h.setRoot t

/-- The superclass that is declared for a type. -/
def superclass? (t : TypeId) : Declaration → Option TypeId
  | addClass c super _ => if c = t ∧ super ≠ noType then some super else none
  | addInterface .. | setAbstract _ | setRoot _ => none

/-- The root that is declared. -/
def root? : Declaration → Option TypeId
  | setRoot t => some t
  | addClass .. | addInterface .. | setAbstract _ => none

end Declaration

open Declaration

/-- The hierarchy after all declarations, in their order. -/
def declared (ds : List Declaration) : ClassHierarchy := ds.foldl make .empty

variable {ds : List Declaration} {src dst t s : TypeId}

/-- What the last declaration gives that gives anything. -/
def LastGives {β : Type} (gives : Declaration → Option β) (ds : List Declaration) (b : β) : Prop :=
  ∃ before d after, ds = before ++ d :: after ∧ gives d = some b ∧ ∀ d' ∈ after, gives d' = none

/-- **What is declared to be directly above a type**: the last superclass that was
declared for it, and all its interfaces. -/
def DirectlyBelow (ds : List Declaration) (t s : TypeId) : Prop :=
  LastGives (Declaration.superclass? t) ds s ∨
    ∃ l, ((∃ super, .addClass t super l ∈ ds) ∨ .addInterface t l ∈ ds) ∧ s ∈ l

/-- The type is the root that was declared last, and a type at all. -/
def IsRoot (ds : List Declaration) (t : TypeId) : Prop := LastGives root? ds t ∧ t ≠ noType

theorem lastGives_iff {β : Type} {gives : Declaration → Option β} {b : β} :
    LastGives gives ds b ↔ (ds.filterMap gives).getLast? = some b := by
  rw [List.getLast?_filterMap, List.findSome?_eq_some_iff]
  constructor
  · rintro ⟨before, d, after, rfl, hd, hafter⟩
    exact ⟨after.reverse, d, before.reverse, by simp, hd, by simpa using hafter⟩
  · rintro ⟨after, d, before, hds, hd, hafter⟩
    refine ⟨before.reverse, d, after.reverse, ?_, hd, by simpa using hafter⟩
    rw [← List.reverse_reverse ds, hds]
    simp

theorem declared_concat (ds : List Declaration) (d : Declaration) :
    declared (ds ++ [d]) = d.make (declared ds) := by
  rw [declared, List.foldl_append]
  rfl

/-- The superclass of a type is the last one that was declared for it. -/
theorem superclass?_declared (ds : List Declaration) (t : TypeId) :
    (declared ds).superclass? t = (ds.filterMap (Declaration.superclass? t)).getLast? := by
  induction ds using List.reverseRecOn with
  | nil => rfl
  | append_singleton ds d ih =>
    rw [declared_concat, List.filterMap_append, List.getLast?_append, ← ih]
    cases d with
    | addClass c super interfaces =>
      by_cases hnone : super = noType
      · simp [make, addClass, Declaration.superclass?, ClassHierarchy.superclass?, hnone]
      · by_cases hc : c = t
        · simp [make, addClass, Declaration.superclass?, ClassHierarchy.superclass?, hnone, hc]
        · simp [make, addClass, Declaration.superclass?, ClassHierarchy.superclass?, hnone, hc]
    | addInterface | setAbstract | setRoot => simp [make, Declaration.superclass?]; rfl

/-- All lists of interfaces that were declared for a type count. -/
theorem mem_interfaceLists_declared {l : List TypeId} : (t, l) ∈ (declared ds).interfaceLists ↔
    (∃ super, .addClass t super l ∈ ds) ∨ .addInterface t l ∈ ds := by
  induction ds using List.reverseRecOn with
  | nil => simp [declared, empty]
  | append_singleton ds d ih =>
    simp only [declared_concat, List.mem_append, List.mem_singleton, exists_or]
    cases d with
    | addClass c super l' =>
      simp only [make, addClass, List.mem_append, List.mem_singleton, ih, Prod.mk.injEq,
        addClass.injEq, reduceCtorEq, or_false]
      grind
    | addInterface c l' =>
      simp only [make, addInterface, List.mem_append, List.mem_singleton, ih, Prod.mk.injEq,
        addInterface.injEq, reduceCtorEq, exists_const, or_false]
      exact or_assoc
    | setAbstract => simpa [make, setAbstract] using ih
    | setRoot => simpa [make, setRoot] using ih

/-- The root is the one that was declared last. -/
theorem root_declared (ds : List Declaration) :
    (declared ds).root = (ds.filterMap root?).getLast?.getD noType := by
  induction ds using List.reverseRecOn with
  | nil => rfl
  | append_singleton ds d ih =>
    rw [declared_concat, List.filterMap_append, List.getLast?_append]
    cases d with
    | setRoot => rfl
    | addClass | addInterface | setAbstract => exact ih

theorem mem_supertypes_declared : s ∈ (declared ds).supertypes t ↔ DirectlyBelow ds t s := by
  simp only [mem_supertypes, superclass?_declared, ← lastGives_iff, mem_interfaceLists_declared]
  rfl

theorem isRoot_iff : IsRoot ds t ↔ t = (declared ds).root ∧ (declared ds).root ≠ noType := by
  rw [IsRoot, lastGives_iff, root_declared]
  cases (ds.filterMap root?).getLast? with
  | none => simp
  | some r =>
    rw [Option.some.injEq, Option.getD_some, eq_comm]
    exact and_congr_right fun heq => by rw [heq]

/-- **Being below is what has been declared to be**, one step or several. -/
theorem below_declared : (declared ds).Below src dst ↔
    Relation.ReflTransGen (DirectlyBelow ds) src dst := by
  simp only [Below, Reaches, mem_supertypes_declared]

/-- **The search for a supertype comes to an end**, also where declarations are
repeated or in a circle, and finds what has been declared to be above. What
was declared last is looked at first. -/
theorem seeks_declared (ds : List Declaration) (src dst : TypeId) :
    ∃ b, Seeks (fun t => ((declared ds).supertypes t).reverse) dst [src] [] b ∧
      (b = true ↔ Relation.ReflTransGen (DirectlyBelow ds) src dst) := by
  have hbound : ∀ ts : List TypeId, ts.Nodup →
      (ts.flatMap fun t => ((declared ds).supertypes t).reverse).length ≤ (declared ds).arcs := by
    intro ts hts
    simpa [List.length_flatMap] using length_flatMap_supertypes_le (h := declared ds) hts
  obtain ⟨b, hb⟩ := exists_seeks dst hbound (1 + (declared ds).arcs) [src] [] (Nat.le_refl _)
    List.nodup_nil
  refine ⟨b, hb, ?_⟩
  rw [hb.iff_reaches List.not_mem_nil (by simp), ← below_declared]
  simp [Below, Reaches]

/-! ## Comparing types -/

variable {h : ClassHierarchy} {u : Universe} {b : Bool} {mid : TypeId}

/-- A root that nothing is declared to be above is below itself only. -/
theorem eq_root_of_isSubtype (hroot : h.supertypes h.root = [])
    (hsub : h.isSubtype h.root dst) : dst = h.root := by
  obtain hbelow | ⟨rfl, -⟩ := isSubtype_iff.1 hsub
  · obtain heq | ⟨x, hx, -⟩ := Reaches.iff_eq_or_head.1 hbelow
    · exact heq
    · rw [hroot] at hx
      cases hx
  · rfl

theorem isSubtype_trans (hroot : h.root ≠ noType → h.supertypes h.root = [])
    (hsub : h.isSubtype src mid) (hsub' : h.isSubtype mid dst) : h.isSubtype src dst := by
  obtain hbelow' | hisroot := isSubtype_iff.1 hsub'
  · obtain hbelow | ⟨rfl, hroot'⟩ := isSubtype_iff.1 hsub
    · exact isSubtype_iff.2 (.inl (hbelow.trans hbelow'))
    · exact isSubtype_iff.2 (.inr ⟨eq_root_of_isSubtype (hroot hroot') hsub', hroot'⟩)
  · exact isSubtype_iff.2 (.inr hisroot)

/-- **What can be stored where**, rule by rule: arrays are compared by their
elements, as deep as they are. -/
inductive Stores (h : ClassHierarchy) (u : Universe) : TypeId → TypeId → Bool → Prop
  | same {t : TypeId} : Stores h u t t true
  | unknown {src dst : TypeId} (hne : src ≠ dst) (hnot : ¬ (u.HasType src ∧ u.HasType dst)) :
      Stores h u src dst false
  | reference {src dst : TypeId} {r r' : TypeRecord} (hne : src ≠ dst)
      (hsrc : u.type? src = some r) (hdst : u.type? dst = some r') (hkind : r.kind = .ref) :
      Stores h u src dst (r'.kind == .ref && h.isSubtype src dst)
  | whole {src dst : TypeId} {r r' : TypeRecord} (hne : src ≠ dst)
      (hsrc : u.type? src = some r) (hdst : u.type? dst = some r') (hkind : r.kind = .array)
      (hkind' : r'.kind ≠ .array) : Stores h u src dst (dst == h.root)
  | primitive {src dst : TypeId} {r r' : TypeRecord} (hne : src ≠ dst)
      (hsrc : u.type? src = some r) (hdst : u.type? dst = some r') (hkind : r.kind = .array)
      (hkind' : r'.kind = .array)
      (hprim : (u.typeD r.elem).kind = .primitive ∨ (u.typeD r'.elem).kind = .primitive) :
      Stores h u src dst (r.elem == r'.elem)
  | elements {src dst : TypeId} {r r' : TypeRecord} {b : Bool} (hne : src ≠ dst)
      (hsrc : u.type? src = some r) (hdst : u.type? dst = some r') (hkind : r.kind = .array)
      (hkind' : r'.kind = .array)
      (hprim : ¬ ((u.typeD r.elem).kind = .primitive ∨ (u.typeD r'.elem).kind = .primitive))
      (helem : Stores h u r.elem r'.elem b) : Stores h u src dst b
  | other {src dst : TypeId} {r r' : TypeRecord} (hne : src ≠ dst)
      (hsrc : u.type? src = some r) (hdst : u.type? dst = some r')
      (hkind : r.kind ≠ .ref) (hkind' : r.kind ≠ .array) : Stores h u src dst false

/-- As many steps as the number of a type is large are enough for it: an array
comes after its elements. -/
theorem stores_canStoreWithin (hu : u.InOrder) : ∀ (fuel : Nat) (src : Int) (dst : TypeId),
    src ≤ fuel → Stores h u src dst (h.canStoreWithin u fuel src dst) := by
  intro fuel
  induction fuel with
  | zero =>
    intro src dst hsrc
    by_cases hsame : src = dst
    · rw [hsame, canStoreWithin_self]
      exact .same
    · have hnot : ¬ (u.HasType src ∧ u.HasType dst) := fun hs => by
        have := (Universe.hasType_iff.1 hs.1).1
        omega
      rw [canStoreWithin_of_not_hasType hsame hnot]
      exact .unknown hsame hnot
  | succ fuel ih =>
    intro src dst hsrc
    by_cases hsame : src = dst
    · rw [hsame, canStoreWithin_self]
      exact .same
    by_cases hthere : u.HasType src ∧ u.HasType dst
    · obtain ⟨r, hr⟩ := Option.isSome_iff_exists.1 hthere.1
      obtain ⟨r', hr'⟩ := Option.isSome_iff_exists.1 hthere.2
      rw [canStoreWithin_succ fuel hsame hr hr']
      match hkind : r.kind with
      | .ref => exact .reference hsame hr hr' hkind
      | .array =>
        have helem : (r.elem : Int) ≤ fuel :=
          Int.le_of_lt_add_one (Int.lt_of_lt_of_le (hu.elements src r hr).2 hsrc)
        dsimp only
        split
        · next hkind' => exact .whole hsame hr hr' hkind hkind'
        · next hkind' =>
          have hkind' := not_not.1 hkind'
          split
          · next hprim => exact .primitive hsame hr hr' hkind hkind' hprim
          · next hprim =>
            exact .elements hsame hr hr' hkind hkind' hprim (ih _ _ helem)
      | .null | .anySubtype | .primitive | .unknown =>
        exact .other hsame hr hr' (by simp [hkind]) (by simp [hkind])
    · rw [canStoreWithin_of_not_hasType hsame hthere]
      exact .unknown hsame hthere

/-- **Comparing two types comes to an end.** -/
theorem stores_canStore (hu : u.InOrder) (src dst : TypeId) :
    Stores h u src dst (h.canStore u src dst) := by
  by_cases hsrc : u.HasType src
  · exact stores_canStoreWithin hu _ src dst (Int.le_of_lt (Universe.hasType_iff.1 hsrc).2)
  · by_cases hsame : src = dst
    · rw [canStore, hsame, canStoreWithin_self]
      exact .same
    · have hnot : ¬ (u.HasType src ∧ u.HasType dst) := fun hs => hsrc hs.1
      rw [canStore, canStoreWithin_of_not_hasType hsame hnot]
      exact .unknown hsame hnot

namespace Stores

/-- **The rules give one answer**, which is the one that is computed. -/
theorem canStoreWithin_eq (hu : u.InOrder) (hb : Stores h u src dst b) : ∀ fuel : Nat,
    (src : Int) ≤ fuel → h.canStoreWithin u fuel src dst = b := by
  -- a type is above zero, so one step can be taken
  have hstep {src : Int} {r : TypeRecord} (hsrc : u.type? src = some r) {fuel : Nat}
      (hle : src ≤ fuel) : ∃ k, fuel = k + 1 := by
    have hpos := (Universe.hasType_iff.1 (Universe.hasType_of_eq hsrc)).1
    exact ⟨fuel - 1, by omega⟩
  induction hb with
  | same => exact fun fuel _ => canStoreWithin_self fuel
  | unknown hne hnot => exact fun fuel _ => canStoreWithin_of_not_hasType hne hnot
  | reference hne hsrc hdst hkind =>
    intro fuel hle
    obtain ⟨k, rfl⟩ := hstep hsrc hle
    simp only [canStoreWithin_succ k hne hsrc hdst, hkind]
  | whole hne hsrc hdst hkind hkind' =>
    intro fuel hle
    obtain ⟨k, rfl⟩ := hstep hsrc hle
    simp only [canStoreWithin_succ k hne hsrc hdst, hkind, if_pos hkind']
  | primitive hne hsrc hdst hkind hkind' hprim =>
    intro fuel hle
    obtain ⟨k, rfl⟩ := hstep hsrc hle
    simp only [canStoreWithin_succ k hne hsrc hdst, hkind, if_neg (not_not.2 hkind'), if_pos hprim]
  | @elements src dst r r' b hne hsrc hdst hkind hkind' hprim _ ih =>
    intro fuel hle
    obtain ⟨k, rfl⟩ := hstep hsrc hle
    have helem : (r.elem : Int) ≤ k :=
      Int.le_of_lt_add_one (Int.lt_of_lt_of_le (hu.elements src r hsrc).2 hle)
    simp only [canStoreWithin_succ k hne hsrc hdst, hkind, if_neg (not_not.2 hkind'),
      if_neg hprim, ih k helem]
  | other hne hsrc hdst hkind hkind' =>
    intro fuel hle
    obtain ⟨k, rfl⟩ := hstep hsrc hle
    rw [canStoreWithin_succ k hne hsrc hdst]
    split
    · next harray => exact absurd harray hkind'
    · next href => exact absurd href hkind
    · rfl

/-- The shapes of a type and of another one it can be stored in. -/
theorem shapes {r : TypeRecord} (hb : Stores h u src dst b) (htrue : b = true) (hne : src ≠ dst)
    (hr : u.type? src = some r) :
    ∃ r', u.type? dst = some r' ∧
      (r.kind = .ref ∧ r'.kind = .ref ∧ h.isSubtype src dst ∨
        r.kind = .array ∧ r'.kind ≠ .array ∧ dst = h.root ∨
        r.kind = .array ∧ r'.kind = .array ∧
          (((u.typeD r.elem).kind = .primitive ∨ (u.typeD r'.elem).kind = .primitive) ∧
              r.elem = r'.elem ∨
            ¬ ((u.typeD r.elem).kind = .primitive ∨ (u.typeD r'.elem).kind = .primitive) ∧
              Stores h u r.elem r'.elem true)) := by
  cases hb with
  | same => exact absurd rfl hne
  | unknown | other => cases htrue
  | reference _ hsrc hdst hkind =>
    obtain rfl := Option.some.inj (hsrc.symm.trans hr)
    obtain ⟨hkind', hsub⟩ := Bool.and_eq_true_iff.1 htrue
    exact ⟨_, hdst, .inl ⟨hkind, beq_iff_eq.1 hkind', hsub⟩⟩
  | whole _ hsrc hdst hkind hkind' =>
    obtain rfl := Option.some.inj (hsrc.symm.trans hr)
    exact ⟨_, hdst, .inr (.inl ⟨hkind, hkind', beq_iff_eq.1 htrue⟩)⟩
  | primitive _ hsrc hdst hkind hkind' hprim =>
    obtain rfl := Option.some.inj (hsrc.symm.trans hr)
    exact ⟨_, hdst, .inr (.inr ⟨hkind, hkind', .inl ⟨hprim, beq_iff_eq.1 htrue⟩⟩)⟩
  | elements _ hsrc hdst hkind hkind' hprim helem =>
    obtain rfl := Option.some.inj (hsrc.symm.trans hr)
    exact ⟨_, hdst, .inr (.inr ⟨hkind, hkind', .inr ⟨hprim, htrue ▸ helem⟩⟩)⟩

/-- A reference type that is stored in another one is below it. -/
theorem of_isSubtype {r r' : TypeRecord} (hsrc : u.type? src = some r)
    (hdst : u.type? dst = some r') (hkind : r.kind = .ref) (hkind' : r'.kind = .ref)
    (hsub : h.isSubtype src dst) : Stores h u src dst true := by
  by_cases hne : src = dst
  · exact hne ▸ .same
  · have htrue : (r'.kind == .ref && h.isSubtype src dst) = true := by simp [hkind', hsub]
    exact htrue ▸ .reference hne hsrc hdst hkind

theorem of_root {r r' : TypeRecord} (hsrc : u.type? src = some r)
    (hdst : u.type? dst = some r') (hkind : r.kind = .array) (hkind' : r'.kind ≠ .array)
    (hroot : dst = h.root) : Stores h u src dst true := by
  by_cases hne : src = dst
  · exact hne ▸ .same
  · have htrue : (dst == h.root) = true := by simp [hroot]
    exact htrue ▸ .whole hne hsrc hdst hkind hkind'

theorem of_elem_eq {r r' : TypeRecord} (hsrc : u.type? src = some r)
    (hdst : u.type? dst = some r') (hkind : r.kind = .array) (hkind' : r'.kind = .array)
    (helem : r.elem = r'.elem) : Stores h u src dst true := by
  by_cases hne : src = dst
  · exact hne ▸ .same
  by_cases hprim : (u.typeD r.elem).kind = .primitive ∨ (u.typeD r'.elem).kind = .primitive
  · have htrue : (r.elem == r'.elem) = true := by simp [helem]
    exact htrue ▸ .primitive hne hsrc hdst hkind hkind' hprim
  · exact .elements hne hsrc hdst hkind hkind' hprim (helem ▸ .same)

/-- **What can be stored composes**, if nothing is declared to be above the root. -/
theorem trans (hroot : h.root ≠ noType → h.supertypes h.root = [])
    (hb : Stores h u src mid b) (htrue : b = true) (hb' : Stores h u mid dst true) :
    Stores h u src dst true := by
  induction hb generalizing dst with
  | same => exact hb'
  | unknown | other => cases htrue
  | @reference src mid r r' hne hsrc hmid hkind =>
    obtain ⟨hkind', hsub⟩ := Bool.and_eq_true_iff.1 htrue
    have hkind' := beq_iff_eq.1 hkind'
    by_cases hsame : mid = dst
    · exact hsame ▸ .of_isSubtype hsrc hmid hkind hkind' hsub
    obtain ⟨s', hdst, hshapes⟩ := hb'.shapes rfl hsame hmid
    obtain ⟨-, hdkind, hsub'⟩ | ⟨harray, -⟩ | ⟨harray, -⟩ := hshapes
    · exact .of_isSubtype hsrc hdst hkind hdkind (isSubtype_trans hroot hsub hsub')
    · simp [hkind'] at harray
    · simp [hkind'] at harray
  | @whole src mid r r' hne hsrc hmid hkind hkind' =>
    have hmidroot : mid = h.root := beq_iff_eq.1 htrue
    by_cases hsame : mid = dst
    · exact hsame ▸ .of_root hsrc hmid hkind hkind' hmidroot
    obtain ⟨s', hdst, hshapes⟩ := hb'.shapes rfl hsame hmid
    obtain ⟨-, -, hsub⟩ | ⟨harray, -⟩ | ⟨harray, -⟩ := hshapes
    · -- only the root is above the root
      have hnone : h.root ≠ noType := fun heq =>
        Universe.not_hasType_noType (heq ▸ hmidroot ▸ Universe.hasType_of_eq hmid)
      have hdst := eq_root_of_isSubtype (hroot hnone) (hmidroot ▸ hsub)
      exact absurd (hmidroot.trans hdst.symm) hsame
    · exact absurd harray hkind'
    · exact absurd harray hkind'
  | @primitive src mid r r' hne hsrc hmid hkind hkind' hprim =>
    have helem : r.elem = r'.elem := beq_iff_eq.1 htrue
    by_cases hsame : mid = dst
    · exact hsame ▸ .of_elem_eq hsrc hmid hkind hkind' helem
    obtain ⟨s', hdst, hshapes⟩ := hb'.shapes rfl hsame hmid
    obtain ⟨href, -⟩ | ⟨-, hdkind, hdroot⟩ | ⟨-, hdkind, ⟨-, helem'⟩ | ⟨hprim', -⟩⟩ := hshapes
    · simp [hkind'] at href
    · exact .of_root hsrc hdst hkind hdkind hdroot
    · exact .of_elem_eq hsrc hdst hkind hdkind (helem.trans helem')
    · rw [helem, or_self] at hprim
      exact absurd (.inl hprim) hprim'
  | @elements src mid r r' b hne hsrc hmid hkind hkind' hprim helem ih =>
    by_cases hsame : mid = dst
    · exact hsame ▸ htrue ▸ .elements hne hsrc hmid hkind hkind' hprim helem
    obtain ⟨s', hdst, hshapes⟩ := hb'.shapes rfl hsame hmid
    obtain ⟨href, -⟩ | ⟨-, hdkind, hdroot⟩ | ⟨-, hdkind, ⟨hprim', helem'⟩ | ⟨hprim', helem'⟩⟩ :=
      hshapes
    · simp [hkind'] at href
    · exact .of_root hsrc hdst hkind hdkind hdroot
    · rw [← helem', or_self] at hprim'
      exact absurd (.inr hprim') hprim
    · have hneither :
          ¬ ((u.typeD r.elem).kind = .primitive ∨ (u.typeD s'.elem).kind = .primitive) :=
        not_or.2 ⟨(not_or.1 hprim).1, (not_or.1 hprim').2⟩
      by_cases hends : src = dst
      · exact hends ▸ .same
      · exact .elements hends hsrc hdst hkind hdkind hneither (ih htrue helem')

end Stores

/-! ## A preorder -/

/-- The rules, and nothing else, say what can be stored where. -/
theorem stores_iff (hu : u.InOrder) : Stores h u src dst b ↔ b = h.canStore u src dst := by
  refine ⟨fun hb => ?_, fun heq => heq ▸ stores_canStore hu src dst⟩
  by_cases hsrc : u.HasType src
  · exact (hb.canStoreWithin_eq hu _ (Int.le_of_lt (Universe.hasType_iff.1 hsrc).2)).symm
  -- numbers past the last type are compared without looking at elements
  · cases hb with
    | same => exact (canStoreWithin_self _).symm
    | unknown hne hnot => exact (canStoreWithin_of_not_hasType hne hnot).symm
    | reference _ hr | whole _ hr | primitive _ hr | elements _ hr | other _ hr =>
      exact absurd (Universe.hasType_of_eq hr) hsrc

theorem canStore_self (h : ClassHierarchy) (u : Universe) (t : TypeId) : h.canStore u t t :=
  canStoreWithin_self _

theorem canStore_trans (hu : u.InOrder) (hroot : h.root ≠ noType → h.supertypes h.root = [])
    (hsrc : h.canStore u src mid) (hdst : h.canStore u mid dst) : h.canStore u src dst :=
  ((stores_iff hu).1 (((stores_iff hu).2 hsrc.symm).trans hroot rfl
    ((stores_iff hu).2 hdst.symm))).symm

theorem pairwise_typeIds (u : Universe) : u.typeIds.Pairwise (· < ·) :=
  List.pairwise_lt_range.drop.map _ fun _ _ => Int.ofNat_lt.2

/-- **The subtypes of a reference type** are listed in increasing order: the other
reference types that can be stored in it. -/
theorem subtypes_eq (h : ClassHierarchy) {r : TypeRecord} (hr : u.type? t = some r)
    (hkind : r.kind = .ref) : ∃ below, h.subtypes u t = t :: below ∧ below.Pairwise (· < ·) ∧
      ∀ o, o ∈ below ↔
        o ≠ t ∧ (∃ r, u.type? o = some r ∧ r.kind = .ref) ∧ h.canStore u o t := by
  refine ⟨_, rfl, (pairwise_typeIds u).filter _, fun o => ?_⟩
  rw [List.mem_filter, mem_typeIds]
  simp only [Bool.and_eq_true, bne_iff_ne, beq_iff_eq]
  constructor
  · rintro ⟨ho, ⟨hne, hokind⟩, hsub⟩
    obtain ⟨r', hr'⟩ := Option.isSome_iff_exists.1 ho
    rw [Universe.typeD_of_eq hr'] at hokind
    exact ⟨hne, ⟨r', hr', hokind⟩, (canStore_of_ref hne hr' hr hokind hkind).trans hsub⟩
  · rintro ⟨hne, ⟨r', hr', hokind⟩, hstore⟩
    rw [canStore_of_ref hne hr' hr hokind hkind] at hstore
    exact ⟨Universe.hasType_of_eq hr', ⟨hne, by rw [Universe.typeD_of_eq hr', hokind]⟩, hstore⟩

/-- **Storability is a preorder that is computed exactly.** Over whatever universe,
and after whatever has been declared, in circles or more than once: the search
for a supertype comes to an end and finds what the declarations lead to, and
everything is below the root that was declared last; comparing two types comes
to an end, with one answer; every type can be stored in itself, and what can
be stored composes unless something is declared to be above the root; and the
subtypes of a reference type are the others that can be stored in it. -/
theorem storability (made : List Universe.Addition) (ds : List Declaration) :
    let u := Universe.Addition.applyAll .empty made
    let h := declared ds
    (∀ src dst, ∃ b, Seeks (fun t => (h.supertypes t).reverse) dst [src] [] b ∧
      (b = true ↔ Relation.ReflTransGen (DirectlyBelow ds) src dst) ∧
      (h.isSubtype src dst ↔ b = true ∨ IsRoot ds dst)) ∧
    (∀ src dst b, Stores h u src dst b ↔ b = h.canStore u src dst) ∧
    (∀ t, h.canStore u t t) ∧
    ((∀ t s, IsRoot ds t → ¬ DirectlyBelow ds t s) → ∀ a b c, h.canStore u a b →
      h.canStore u b c → h.canStore u a c) ∧
    ∀ t r, u.type? t = some r → r.kind = .ref →
      ∃ below, h.subtypes u t = t :: below ∧ below.Pairwise (· < ·) ∧
        ∀ o, o ∈ below ↔
          o ≠ t ∧ (∃ r, u.type? o = some r ∧ r.kind = .ref) ∧ h.canStore u o t := by
  intro u h
  have hu : u.InOrder := Universe.inOrder_applyAll made
  refine ⟨fun src dst => ?_, fun src dst b => stores_iff hu, canStore_self h u,
    fun htop a b c => canStore_trans hu fun hnone => ?_, fun t r => subtypes_eq h⟩
  · obtain ⟨b, hseeks, hb⟩ := seeks_declared ds src dst
    refine ⟨b, hseeks, hb, ?_⟩
    rw [isSubtype_iff, hb, below_declared, isRoot_iff]
  · exact List.eq_nil_iff_forall_not_mem.2 fun s hs =>
      htop _ s (isRoot_iff.2 ⟨rfl, hnone⟩) (mem_supertypes_declared.1 hs)

/-- A class that extends one class and then another, which extends it as well. -/
def circle : List Declaration :=
  [.setRoot 2, .addClass 2 noType [], .addClass 3 2 [], .addClass 3 4 [], .addClass 4 3 [5],
    .addInterface 5 [5], .setAbstract 4]

def circleTypes : List Universe.Addition :=
  [.type "Root" .ref, .type "A" .ref, .type "B" .ref, .type "I" .ref, .arrayType 3, .arrayType 4,
    .arrayType 6, .arrayType 7, .arrayType 2]

theorem storability_circle :
    let u := Universe.Addition.applyAll .empty circleTypes
    let h := declared circle
    IsRoot circle 2 ∧ (∀ t s, IsRoot circle t → ¬ DirectlyBelow circle t s) ∧
      h.isSubtype 3 5 ∧ h.canStore u 9 8 ∧ h.canStore u 8 2 ∧ h.canStore u 9 2 ∧
      4 ∈ h.subtypes u 3 := by
  intro u h
  obtain ⟨hseeks, hstores, -, htrans, hsubtypes⟩ := storability circleTypes circle
  have htop : ∀ t s, IsRoot circle t → ¬ DirectlyBelow circle t s := by
    intro t s ht hs
    obtain ⟨rfl, -⟩ := isRoot_iff.1 ht
    exact List.not_mem_nil (mem_supertypes_declared.2 hs)
  have helem : h.canStore u 9 8 := by decide +kernel
  have hwhole : h.canStore u 8 2 := by decide +kernel
  refine ⟨isRoot_iff.2 (by decide), htop, ?_, helem, hwhole, htrans htop 9 8 2 helem hwhole, ?_⟩
  · obtain ⟨b, -, hb, hsub⟩ := hseeks 3 5
    refine hsub.2 (.inl (hb.2 ?_))
    have hextends : DirectlyBelow circle 3 4 := mem_supertypes_declared.1 (by decide)
    have himplements : DirectlyBelow circle 4 5 := mem_supertypes_declared.1 (by decide)
    exact .head hextends (.single himplements)
  · obtain ⟨below, heq, -, hmem⟩ := hsubtypes 3 _ rfl rfl
    rw [heq]
    exact List.mem_cons_of_mem _ ((hmem 4).2 ⟨by decide, ⟨_, rfl, rfl⟩, by decide +kernel⟩)

end ClassHierarchy

end PointsTo
