import PointsTo.Proofs.Hierarchies
import PointsTo.Proofs.Programs
/-!
# Types that are made when they are named

Naming the type of an array, or of any subtype, makes the type unless it
is there, so the number such a type gets depends on what has been named
before. `Interned` says what can have been named since a universe stood
still. Its names then still determine its types, up to the numbers of the
new ones (`go_typeWithin`), and casts see no more of a type than that
(`castNeverFails_names`).
-/

namespace PointsTo

namespace Universe

variable {u₀ u u' u₁ u₂ : Universe} {t t' : Int} {name : String}

/-! ## Names -/

/-- The number is that of the type of that name; the empty name is that of no
type. -/
def Names (u : Universe) (name : String) (t : TypeId) : Prop :=
  if name = "" then t = noType else u.lookupType name = some t

theorem names_empty : u.Names "" t ↔ t = noType := Iff.of_eq (if_pos rfl)

theorem names_of_ne (hne : name ≠ "") : u.Names name t ↔ u.lookupType name = some t :=
  Iff.of_eq (if_neg hne)

/-- No type is the one without a name. -/
theorem Names.eq_noType_iff (h : u.Names name t) : t = noType ↔ name = "" := by
  by_cases hne : name = ""
  · subst hne
    exact iff_of_true (names_empty.1 h) rfl
  · refine iff_of_false ?_ hne
    rintro rfl
    obtain ⟨r, hr, -⟩ := type?_of_lookupType ((names_of_ne hne).1 h)
    simp at hr

/-- **A name stands for one type.** -/
theorem Names.unique (h : u.Names name t) (h' : u.Names name t') : t = t' := by
  by_cases hne : name = ""
  · rw [h.eq_noType_iff.2 hne, h'.eq_noType_iff.2 hne]
  · rw [names_of_ne hne] at h h'
    exact Option.some.inj (h.symm.trans h')

/-- A type with a name is there, or is none. -/
theorem Names.knows (h : u.Names name t) : u.Knows t := by
  by_cases hne : name = ""
  · exact .inl (h.eq_noType_iff.2 hne)
  · obtain ⟨r, hr, -⟩ := type?_of_lookupType ((names_of_ne hne).1 h)
    exact .inr (hasType_of_eq hr)

theorem Names.typeD_name (h : u.Names name t) : (u.typeD t).name = name := by
  by_cases hne : name = ""
  · rw [h.eq_noType_iff.2 hne, hne, typeD, type?_noType, Option.getD_none]
  · obtain ⟨r, hr, hname⟩ := type?_of_lookupType ((names_of_ne hne).1 h)
    rw [typeD_of_eq hr, hname]

/-- The record a name leads to, the blank included. -/
theorem Names.slot (hblank : u.types[0]? = some ({ } : TypeRecord)) (h : u.Names name t) :
    ∃ r, slot? u.types t = some r ∧ r.name = name := by
  by_cases hne : name = ""
  · rw [h.eq_noType_iff.2 hne, hne]
    exact ⟨{ }, hblank, rfl⟩
  · obtain ⟨r, hr, hname⟩ := type?_of_lookupType ((names_of_ne hne).1 h)
    have ht : t ≠ noType := mt h.eq_noType_iff.1 hne
    exact ⟨r, type?_of_ne ht ▸ hr, hname⟩

/-! ## Names in a table that gets longer -/

/-- What is found stays found. -/
theorem lookupType_mono (h : u.types.toList <+: u'.types.toList)
    (hl : u.lookupType name = some t) : u'.lookupType name = some t := by
  obtain ⟨k, hk, rfl⟩ := Option.map_eq_some_iff.1 hl
  refine Option.map_eq_some_iff.2 ⟨k, ?_, rfl⟩
  exact (h.drop 1).findIdx?_eq_some hk

/-- What a name stands for stays what it is when types are added. -/
theorem Names.mono (h : u.types.toList <+: u'.types.toList) (hn : u.Names name t) :
    u'.Names name t := by
  by_cases hne : name = ""
  · subst hne
    exact hn
  · exact (names_of_ne hne).2 (lookupType_mono h ((names_of_ne hne).1 hn))

theorem type?_mono (h : u.types.toList <+: u'.types.toList) {r : TypeRecord}
    (hr : u.type? t = some r) : u'.type? t = some r := by
  have hne : t ≠ noType := by
    rintro rfl
    simp at hr
  rw [type?_of_ne hne, slot?_eq_some, ← Array.getElem?_toList] at hr ⊢
  obtain ⟨more, hmore⟩ := h
  obtain ⟨h0, hget⟩ := hr
  refine ⟨h0, ?_⟩
  rw [← hmore, List.getElem?_append_left (List.getElem?_eq_some_iff.1 hget).1, hget]

/-- The name of a type that is there stands for some type. -/
theorem exists_lookupType {r : TypeRecord} (hr : u.type? t = some r) :
    ∃ id, u.lookupType r.name = some id := by
  have hpos := (hasType_iff.1 (hasType_of_eq hr)).1
  have hne : t ≠ noType := by
    rintro rfl
    simp at hr
  rw [type?_of_ne hne, slot?_eq_some, ← Array.getElem?_toList] at hr
  have hmem : r ∈ u.types.toList.drop 1 := by
    refine List.mem_of_getElem? (i := t.toNat - 1) ?_
    rw [List.getElem?_drop, show 1 + (t.toNat - 1) = t.toNat by omega, hr.2]
  have hsome : ((u.types.toList.drop 1).findIdx? (·.name == r.name)).isSome := by
    rw [List.findIdx?_isSome, List.any_eq_true]
    exact ⟨r, hmem, beq_self_eq_true _⟩
  obtain ⟨k, hk⟩ := Option.isSome_iff_exists.1 hsome
  exact ⟨_, Option.map_eq_some_iff.2 ⟨k, hk, rfl⟩⟩

/-- A name that leads to an old type has always led to it. -/
theorem Names.of_knows (h : u.types.toList <+: u'.types.toList) (hn : u'.Names name t)
    (ht : u.Knows t) : u.Names name t := by
  by_cases hne : name = ""
  · subst hne
    exact hn
  have hold : u.HasType t := ht.resolve_left (mt hn.eq_noType_iff.1 hne)
  obtain ⟨r, hr⟩ := Option.isSome_iff_exists.1 hold
  have hname : r.name = name := by
    rw [← hn.typeD_name, typeD_of_eq (type?_mono h hr)]
  obtain ⟨id, hid⟩ := exists_lookupType hr
  rw [hname] at hid
  rw [names_of_ne hne] at hn ⊢
  rw [hid, ← hn, lookupType_mono h hid]

/-- A new type is found by its name. -/
theorem lookupType_push (hpos : 0 < u.types.size) (r : TypeRecord)
    (hnone : u.lookupType r.name = none) :
    ({ u with types := u.types.push r } : Universe).lookupType r.name =
      some (u.types.size : Int) := by
  have hrest : (u.types.toList.drop 1).findIdx? (·.name == r.name) = none :=
    Option.map_eq_none_iff.1 hnone
  have hlength : (u.types.toList.drop 1).length + 1 = u.types.size := by
    rw [List.length_drop, Array.length_toList]
    omega
  rw [lookupType, position?, Array.toList_push,
    List.drop_append_of_le_length (by rw [Array.length_toList]; omega), List.findIdx?_append, hrest]
  simp only [List.findIdx?_cons, beq_self_eq_true, if_true, Option.map_some, Option.none_or,
    Nat.zero_add, hlength]

/-- The null type can be named in every universe of a program. -/
theorem Sane.names_null (h : u.Sane) : u.Names nullTypeName nullType := by
  obtain ⟨b, hb⟩ := h.started.types 1 { id := nullType, name := nullTypeName, kind := .null } rfl
  rw [type?_of_ne (by decide), slot?_eq_some, ← Array.getElem?_toList] at hb
  have hhead : (u.types.toList.drop 1)[0]? =
      some { id := nullType, name := nullTypeName, kind := .null, unresolved := b } := by
    rw [List.getElem?_drop]
    exact hb.2
  refine (names_of_ne (by decide)).2 (Option.map_eq_some_iff.2 ⟨0, ?_, rfl⟩)
  match hlist : u.types.toList.drop 1 with
  | [] =>
    rw [hlist] at hhead
    nomatch hhead
  | r :: rest =>
    rw [hlist, List.getElem?_cons_zero] at hhead
    rw [List.findIdx?_cons, Option.some.inj hhead, beq_self_eq_true, if_pos rfl]

/-! ## What has been named -/

/-- The name is that of an array. -/
def IsArrayName (name : String) : Prop := "[]".toList <:+ name.toList

instance (name : String) : Decidable (IsArrayName name) :=
  inferInstanceAs (Decidable ("[]".toList <:+ name.toList))

/-- **Types have been made by naming them**, and nothing else: the new ones can be
named, and are arrays of types that can be named, or any-subtype types. -/
structure Interned (u u' : Universe) : Prop where
  sane : u'.Sane
  methods : u'.methods = u.methods
  fields : u'.fields = u.fields
  nodes : u'.nodes = u.nodes
  types : u.types.toList <+: u'.types.toList
  named : ∀ (t : Int) r, u'.type? t = some r → ¬ u.HasType t → u'.Names r.name t
  new : ∀ (t : Int) r, u'.type? t = some r → ¬ u.HasType t →
    (r.kind = .array ∧ ∃ elem, r.name = arrayName elem ∧ u'.Names elem r.elem) ∨
      r.kind = .anySubtype ∧ ¬ IsArrayName r.name

namespace Interned

theorem refl (hu : u.Sane) : Interned u u where
  sane := hu
  methods := rfl
  fields := rfl
  nodes := rfl
  types := List.prefix_refl _
  named _ _ hr hnot := absurd (hasType_of_eq hr) hnot
  new _ _ hr hnot := absurd (hasType_of_eq hr) hnot

theorem trans (h : u₀.Interned u) (h' : u.Interned u') : u₀.Interned u' where
  sane := h'.sane
  methods := h'.methods.trans h.methods
  fields := h'.fields.trans h.fields
  nodes := h'.nodes.trans h.nodes
  types := h.types.trans h'.types
  named t r hr hnot := by
    by_cases hold : u.HasType t
    · obtain ⟨r', hr'⟩ := Option.isSome_iff_exists.1 hold
      obtain rfl : r' = r := Option.some.inj ((type?_mono h'.types hr').symm.trans hr)
      exact (h.named t r' hr' hnot).mono h'.types
    · exact h'.named t r hr hold
  new t r hr hnot := by
    by_cases hold : u.HasType t
    · obtain ⟨r', hr'⟩ := Option.isSome_iff_exists.1 hold
      obtain rfl : r' = r := Option.some.inj ((type?_mono h'.types hr').symm.trans hr)
      refine (h.new t r' hr' hnot).imp_left fun ⟨hkind, elem, hname, helem⟩ => ?_
      exact ⟨hkind, elem, hname, helem.mono h'.types⟩
    · exact h'.new t r hr hold

/-- **Interning only adds.** -/
theorem grows (h : u.Interned u') : u.Grows u' where
  nodes := h.nodes ▸ List.prefix_refl _
  types _ r hr := ⟨r.unresolved, type?_mono h.types hr⟩

/-- An old type is the type of a name in both universes or in neither. -/
theorem names_iff (h : u.Interned u') (ht : u.Knows t) : u'.Names name t ↔ u.Names name t :=
  ⟨fun hn => hn.of_knows h.types ht, fun hn => hn.mono h.types⟩

/-- **One type is made, or found.** -/
theorem internType (hu : u.Sane) {r : TypeRecord} (h0 : (0 : Int) ≤ r.elem)
    (hlt : (r.elem : Int) < u.types.size) (hne : r.name ≠ "")
    (hnew : (r.kind = .array ∧ ∃ elem, r.name = arrayName elem ∧ u.Names elem r.elem) ∨
      r.kind = .anySubtype ∧ ¬ IsArrayName r.name) :
    u.Interned (u.internType r).2 ∧ (u.internType r).2.Names r.name (u.internType r).1 := by
  have hsane := hu.internType r h0 hlt
  obtain ⟨id, hid, heq⟩ | ⟨hnone, heq⟩ := u.internType_cases r <;> rw [heq] at hsane ⊢
  · exact ⟨.refl hu, (names_of_ne hne).2 hid⟩
  have hprefix : u.types.toList <+: (u.types.push { r with id := u.types.size }).toList := by simp
  have hfound := (names_of_ne hne).2
    (lookupType_push hu.size_pos { r with id := u.types.size } hnone)
  -- only the type that is made is new
  have hwhich : ∀ (t : Int) r', (Universe.type? { u with
      types := u.types.push { r with id := u.types.size } } t) = some r' → ¬ u.HasType t →
      t = u.types.size ∧ r' = { r with id := u.types.size } := by
    intro t r' hr' hnot
    rw [type?_push] at hr'
    split at hr'
    · next hsize => exact ⟨hsize.1, (Option.some.inj hr').symm⟩
    · exact absurd (hasType_of_eq hr') hnot
  refine ⟨⟨hsane, rfl, rfl, rfl, hprefix, ?_, ?_⟩, hfound⟩
  · intro t r' hr' hnot
    obtain ⟨rfl, rfl⟩ := hwhich t r' hr' hnot
    exact hfound
  · intro t r' hr' hnot
    obtain ⟨rfl, rfl⟩ := hwhich t r' hr' hnot
    refine hnew.imp_left fun ⟨hkind, elem, hname, helem⟩ => ?_
    exact ⟨hkind, elem, hname, helem.mono hprefix⟩

theorem arrayName_ne_empty (name : String) : arrayName name ≠ "" := by
  simp [arrayName]

theorem anySubtypeName_ne_empty (name : String) : anySubtypeName name ≠ "" := by
  simp [anySubtypeName]

/-- **An array type is found under its name** once it has been named, whether it was
there or not. -/
theorem addArrayType (hu : u.Sane) (ht : u.Names name t) : ∃ t' u',
    u.addArrayType t = .ok (t', u') ∧ u.Interned u' ∧ u'.Names (arrayName name) t' := by
  obtain ⟨e, he, rfl⟩ := ht.slot hu.blank
  obtain ⟨h0, hlt⟩ := slot?_bounds he
  refine ⟨_, _, by rw [Universe.addArrayType, he], ?_⟩
  exact internType hu h0 hlt (arrayName_ne_empty _) (.inl ⟨rfl, _, rfl, ht⟩)

/-- So is the type of any subtype, as long as no array type could have its name. -/
theorem addAnySubtype (hu : u.Sane) (ht : u.Names name t)
    (hname : ¬ IsArrayName (anySubtypeName name)) : ∃ t' u',
    u.addAnySubtype t = .ok (t', u') ∧ u.Interned u' ∧ u'.Names (anySubtypeName name) t' := by
  obtain ⟨b, hb, rfl⟩ := ht.slot hu.blank
  refine ⟨_, _, by rw [Universe.addAnySubtype, hb], ?_⟩
  exact internType hu (Int.le_refl 0) (Int.natCast_pos.2 hu.size_pos) (anySubtypeName_ne_empty _)
    (.inr ⟨rfl, hname⟩)

end Interned

/-! ## Names of arrays -/

theorem isArrayName_arrayName (name : String) : IsArrayName (arrayName name) := by
  rw [IsArrayName, arrayName, String.toList_append]
  exact List.suffix_append _ _

/-- An array type tells its elements. -/
theorem arrayName_injective {a b : String} (h : arrayName a = arrayName b) : a = b := by
  have hlists := congrArg String.toList h
  rw [arrayName, arrayName, String.toList_append, String.toList_append] at hlists
  exact String.toList_injective (List.append_cancel_right hlists)

/-- The name of an any-subtype type ends like that of its bound. -/
theorem isArrayName_of_anySubtypeName (h : IsArrayName (anySubtypeName name)) :
    IsArrayName name := by
  rw [IsArrayName, anySubtypeName, String.toList_append] at h
  by_cases hlength : 2 ≤ name.toList.length
  · exact List.suffix_of_suffix_length_le h (List.suffix_append _ _) hlength
  -- a shorter name leaves the underscore where the bracket should be
  · obtain ⟨front, hfront⟩ := h
    match hname : name.toList with
    | [] =>
      rw [hname] at hfront
      have hlast := congrArg List.getLast? hfront
      simp at hlast
    | [c] =>
      rw [hname] at hfront
      have hlast := congrArg (fun l => l.dropLast.getLast?) hfront
      simp at hlast
    | _ :: _ :: _ => simp [hname] at hlength

/-! ## Casts to a type that has been named -/

/-- The numbers stand for one type: an old one, or one that has one name. -/
def Same (u₀ u₁ u₂ : Universe) (t t' : TypeId) : Prop :=
  u₀.Knows t ∧ t' = t ∨ ∃ name, u₁.Names name t ∧ u₂.Names name t'

section Same

variable (h₁ : u₀.Interned u₁) (h₂ : u₀.Interned u₂)

include h₁ h₂

/-- **A type that was there before is told apart from new ones** on both sides alike. -/
theorem Same.old (h : Same u₀ u₁ u₂ t t') {s : Int} (hs : u₀.Knows s) : s = t ↔ s = t' := by
  obtain ⟨-, rfl⟩ | ⟨name, hn, hn'⟩ := h
  · rfl
  · constructor
    · rintro rfl
      exact ((h₂.names_iff hs).2 ((h₁.names_iff hs).1 hn)).unique hn'
    · rintro rfl
      exact ((h₁.names_iff hs).2 ((h₂.names_iff hs).1 hn')).unique hn

/-- New types of one name have one shape. -/
theorem Same.new (h : Same u₀ u₁ u₂ t t') (ht : ¬ u₀.Knows t) {r r' : TypeRecord}
    (hr : u₁.type? t = some r) (hr' : u₂.type? t' = some r') :
    r.kind = r'.kind ∧ r.kind ≠ .ref ∧ (r.kind = .array → Same u₀ u₁ u₂ r.elem r'.elem) := by
  have ht' : ¬ u₀.Knows t' := fun hknows => ht ((h.old h₁ h₂ hknows).2 rfl ▸ hknows)
  obtain ⟨hknows, -⟩ | ⟨name, hn, hn'⟩ := h
  · exact absurd hknows ht
  have hname : r.name = name := by rw [← hn.typeD_name, typeD_of_eq hr]
  have hname' : r'.name = name := by rw [← hn'.typeD_name, typeD_of_eq hr']
  rcases h₁.new t r hr fun hold => ht (.inr hold) with
      ⟨hkind, elem, harray, helem⟩ | ⟨hkind, hany⟩ <;>
    rcases h₂.new t' r' hr' fun hold => ht' (.inr hold) with
      ⟨hkind', elem', harray', helem'⟩ | ⟨hkind', hany'⟩
  · have hsame : elem = elem' :=
      arrayName_injective (by rw [← harray, ← harray', hname, hname'])
    refine ⟨by rw [hkind, hkind'], by simp [hkind], fun _ => .inr ⟨elem, helem, hsame ▸ helem'⟩⟩
  · rw [hname', ← hname, harray] at hany'
    exact absurd (isArrayName_arrayName elem) hany'
  · rw [hname, ← hname', harray'] at hany
    exact absurd (isArrayName_arrayName elem') hany
  · exact ⟨by rw [hkind, hkind'], by simp [hkind], by simp [hkind]⟩

/-- The numbers are there on both sides, or on neither. -/
theorem Same.hasType_iff (h : Same u₀ u₁ u₂ t t') : u₁.HasType t ↔ u₂.HasType t' := by
  obtain ⟨hknows, rfl⟩ | ⟨name, hn, hn'⟩ := h
  · constructor
    · exact fun ht => (h₂.grows.knows hknows).resolve_left fun hnone =>
        not_hasType_noType (hnone ▸ ht)
    · exact fun ht => (h₁.grows.knows hknows).resolve_left fun hnone =>
        not_hasType_noType (hnone ▸ ht)
  · have hnone : t = noType ↔ t' = noType := hn.eq_noType_iff.trans hn'.eq_noType_iff.symm
    constructor
    · exact fun ht => hn'.knows.resolve_left fun h => not_hasType_noType (hnone.2 h ▸ ht)
    · exact fun ht => hn.knows.resolve_left fun h => not_hasType_noType (hnone.1 h ▸ ht)

/-- **Types that stand for one another are alike to a hierarchy.** -/
theorem alike_same (h₀ : u₀.Sane) (h : ClassHierarchy) (hroot : u₀.Knows h.root) :
    h.Alike u₀ u₁ u₂ (Same u₀ u₁ u₂) := by
  -- the records of an old type, and those of two new ones
  have hrecords : ∀ {t t' : Int}, Same u₀ u₁ u₂ t t' → (u₁.typeD t).kind = (u₂.typeD t').kind ∧
      ((u₁.typeD t).kind = .array → Same u₀ u₁ u₂ (u₁.typeD t).elem (u₂.typeD t').elem) ∧
      (u₁.HasType t → (u₁.typeD t).kind = .ref → t = t') := by
    intro t t' hs
    by_cases hknows : u₀.Knows t
    · obtain rfl := (hs.old h₁ h₂ hknows).1 rfl
      obtain ⟨b₁, hb₁⟩ := h₁.grows.typeD hknows
      obtain ⟨b₂, hb₂⟩ := h₂.grows.typeD hknows
      rw [hb₁, hb₂]
      refine ⟨rfl, fun _ => .inl ⟨?_, rfl⟩, fun _ _ => rfl⟩
      rcases hknows with rfl | hold
      · exact .inl (by simp [typeD])
      · obtain ⟨r, hr⟩ := Option.isSome_iff_exists.1 hold
        have helem := h₀.inOrder.knows_elem hr
        rwa [← typeD_of_eq hr] at helem
    · have hthere : u₁.HasType t := by
        obtain ⟨hknows', -⟩ | ⟨name, hn, -⟩ := id hs
        · exact absurd hknows' hknows
        · exact hn.knows.resolve_left fun hnone => hknows (.inl hnone)
      obtain ⟨r, hr⟩ := Option.isSome_iff_exists.1 hthere
      obtain ⟨r', hr'⟩ := Option.isSome_iff_exists.1 ((hs.hasType_iff h₁ h₂).1 hthere)
      obtain ⟨hkind, href, helem⟩ := hs.new h₁ h₂ hknows hr hr'
      rw [typeD_of_eq hr, typeD_of_eq hr']
      exact ⟨hkind, helem, fun _ h => absurd h href⟩
  exact {
    same := fun hsrc hs => hs.old h₁ h₂ hsrc
    root := fun hs => eq_comm.trans ((hs.old h₁ h₂ hroot).trans eq_comm)
    kind := fun hs => (hrecords hs).1
    isSome := fun hs => hs.hasType_iff h₁ h₂
    elem := fun hs => (hrecords hs).2.1
    ref := fun hs => (hrecords hs).2.2 }

/-- **Casts see the name of a target, not its number.** -/
theorem castNeverFails_names (h₀ : u₀.Sane) (h : ClassHierarchy) (hroot : u₀.Knows h.root)
    {src : TypeId} (hsrc : u₀.Knows src) (hn : u₁.Names name t) (hn' : u₂.Names name t') :
    castNeverFails u₁ (some (h.view u₁)) src t = castNeverFails u₂ (some (h.view u₂)) src t' :=
  ClassHierarchy.castNeverFails_congr (alike_same h₁ h₂ h₀ h hroot) h₀.inOrder h₁.grows h₂.grows
    hsrc (.inr ⟨name, hn, hn'⟩) (hn.eq_noType_iff.trans hn'.eq_noType_iff.symm)
    (hn.typeD_name.trans hn'.typeD_name.symm)

end Same

end Universe

namespace Program

open Universe

/-! ## Texts that name types -/

/-- Whether an ending can be dropped is a matter of the text. -/
theorem dropEnd?_isSome {name suffix : String} :
    (dropEnd? name suffix).isSome ↔ suffix.toList <:+ name.toList := by
  rw [dropEnd?, ← String.copy_toSlice (s := name), ← String.Slice.endsWith_string_iff,
    String.copy_toSlice, String.endsWith_eq_endsWith_toSlice]
  split <;> simp_all

/-- What is left after the start is the rest of the text. -/
theorem toList_dropStart? {name start rest : String} (h : dropStart? name start = some rest) :
    rest.toList <:+ name.toList := by
  rw [dropStart?] at h
  split at h
  · rw [← Option.some.inj h, String.Slice.toString, String.toList_copy_drop]
    exact List.drop_suffix _ _
  · cases h

/-- The name of the type that a text stands for. -/
def typeName : Nat → String → String
  | 0, _ => ""
  | fuel + 1, name =>
    if name = "" then ""
    else if name = "null" then nullTypeName
    else
      match dropEnd? name "[]", dropStart? name "any " with
      | some elem, _ => arrayName (typeName fuel elem)
      | none, some base => anySubtypeName (typeName fuel base)
      | none, none => name

/-- Only a text that ends like the name of an array stands for one. -/
theorem isArrayName_of_typeName : ∀ (fuel : Nat) (name : String),
    IsArrayName (typeName fuel name) → IsArrayName name := by
  intro fuel
  induction fuel with
  | zero => exact fun name h => absurd h (by decide : ¬ IsArrayName "")
  | succ fuel ih =>
    intro name h
    unfold typeName at h
    split at h
    · exact absurd h (by decide)
    split at h
    · exact absurd h (by decide)
    split at h
    · next elem hdrop => exact dropEnd?_isSome.1 (Option.isSome_of_eq_some hdrop)
    · next base _ hdrop =>
      exact (ih base (isArrayName_of_anySubtypeName h)).trans (toList_dropStart? hdrop)
    · exact h

/-! ## Running steps -/

section Go

variable {α β : Type} {p : Program}

/-- The second part runs on what the first one has left, unless that failed. -/
theorem go_bind (x : Step α) (f : α → Step β) (p : Program) :
    (x >>= f).go p = match x.go p with
      | (.ok a, p') => (f a).go p'
      | (.error e, p') => (.error e, p') := by
  rw [Step.go, Steps.run_bind, Step.go]
  generalize (StateT.run (ExceptT.run x) p : Except ProgramError α × Program) = run
  obtain ⟨r, p'⟩ := run
  cases r <;> rfl

@[simp] theorem go_get : (get : Step Program).go p = (.ok p, p) := rfl

theorem go_onNodes {f : Universe → Except Fault (α × Universe)} {a : α} {u : Universe}
    (h : f p.nodes = .ok (a, u)) : (onNodes f).go p = (.ok a, { p with nodes := u }) := by
  rw [onNodes, go_bind, go_get]
  simp only [h]
  rfl

/-- Something is looked up in the program. -/
theorem go_lookup (e : ProgramError) (f : Program → Option α) (p : Program) :
    (get >>= fun p => orFail e (f p) : Step α).go p = ((f p).elim (.error e) .ok, p) := by
  rw [go_bind, go_get]
  dsimp only
  cases f p <;> rfl

end Go

/-- **The step makes types and gives the one of that name**, and it fails on `p` only if
it fails on `p₀`. -/
structure Finds (p₀ p : Program) (name : String) (x : Step TypeId) (u : Universe) : Prop where
  after : (x.go p).2 = { p with nodes := u }
  interned : p.nodes.Interned u
  names : ∀ t, (x.go p).1 = .ok t → u.Names name t
  succeeds : (∃ t, (x.go p₀).1 = .ok t) → ∃ t, (x.go p).1 = .ok t

variable {p₀ p : Program} {name name' : String}

/-- A type that has the name already is found without a change. -/
theorem finds_pure (hp : p.nodes.Sane) {t : TypeId} (ht : p.nodes.Names name t) :
    Finds p₀ p name (pure t) p.nodes where
  after := rfl
  interned := .refl hp
  names t' ht' := by
    cases ht'
    exact ht
  succeeds _ := ⟨t, rfl⟩

/-- A type is made of one that has been found. -/
theorem Finds.bind {x : Step TypeId} {u : Universe} (h : Finds p₀ p name x u)
    {make : TypeId → Universe → Except Fault (TypeId × Universe)}
    (hmake : ∀ t u, u.Sane → u.Names name t →
      ∃ t' u', make t u = .ok (t', u') ∧ u.Interned u' ∧ u'.Names name' t') :
    ∃ u', Finds p₀ p name' (x >>= fun t => onNodes (make t)) u' := by
  obtain ⟨hafter, hinterned, hnames, hsucceeds⟩ := h
  have hgo : x.go p = ((x.go p).1, { p with nodes := u }) := by rw [← hafter]
  match hr : (x.go p).1 with
  | .error e =>
    have hbind : (x >>= fun t => onNodes (make t)).go p = (.error e, { p with nodes := u }) := by
      rw [go_bind, hgo, hr]
    refine ⟨u, by rw [hbind], hinterned, fun t ht => by simp [hbind] at ht, fun ⟨t, ht⟩ => ?_⟩
    -- the part has failed on `p₀` as well
    have hfails : ¬ ∃ t, (x.go p₀).1 = .ok t := fun hok => by
      obtain ⟨t, ht⟩ := hsucceeds hok
      rw [hr] at ht
      cases ht
    rw [go_bind] at ht
    generalize x.go p₀ = run at ht hfails
    obtain ⟨r₀, p'⟩ := run
    cases r₀ with
    | error e => cases ht
    | ok a => exact absurd ⟨a, rfl⟩ hfails
  | .ok t =>
    obtain ⟨t', u', hmade, hinterned', hnames'⟩ := hmake t u hinterned.sane (hnames t hr)
    have hbind : (x >>= fun t => onNodes (make t)).go p = (.ok t', { p with nodes := u' }) := by
      rw [go_bind, hgo, hr]
      exact go_onNodes hmade
    refine ⟨u', by rw [hbind], hinterned.trans hinterned', fun t ht => ?_,
      fun _ => ⟨t', by rw [hbind]⟩⟩
    rw [hbind] at ht
    cases ht
    exact hnames'

/-- **What naming a type does**, wherever types have been named before. -/
theorem finds_typeWithin (hp₀ : p₀.nodes.Interned p.nodes) : ∀ (fuel : Nat) (name : String),
    ∃ u, Finds p₀ p (typeName fuel name) (typeWithin fuel name) u := by
  intro fuel
  induction fuel with
  | zero => exact fun name => ⟨_, finds_pure hp₀.sane (names_empty.2 rfl)⟩
  | succ fuel ih =>
    intro name
    unfold typeWithin typeName
    by_cases hempty : name = ""
    · simp only [if_pos hempty]
      exact ⟨_, finds_pure hp₀.sane (names_empty.2 rfl)⟩
    simp only [if_neg hempty]
    by_cases hnull : name = "null"
    · simp only [if_pos hnull]
      exact ⟨_, finds_pure hp₀.sane hp₀.sane.names_null⟩
    simp only [if_neg hnull]
    match hend : dropEnd? name "[]", hstart : dropStart? name "any " with
    | some elem, _ =>
      obtain ⟨u, hu⟩ := ih elem
      exact hu.bind fun t u hu ht => Interned.addArrayType hu ht
    | none, some base =>
      have hname : ¬ IsArrayName name := fun h => by
        simpa [hend] using dropEnd?_isSome.2 h
      obtain ⟨u, hu⟩ := ih base
      refine hu.bind fun t u hu ht => Interned.addAnySubtype hu ht fun h => hname ?_
      have hbase := isArrayName_of_typeName fuel base (isArrayName_of_anySubtypeName h)
      exact hbase.trans (toList_dropStart? hstart)
    | none, none =>
      have hgo := go_lookup (.unknownType name) fun p => p.nodes.lookupType name
      refine ⟨p.nodes, by rw [hgo], .refl hp₀.sane, fun t ht => ?_, fun ⟨t, ht⟩ => ⟨t, ?_⟩⟩
      · rw [hgo] at ht
        match hfound : p.nodes.lookupType name with
        | none => simp [hfound] at ht
        | some id =>
          rw [hfound] at ht
          cases ht
          exact (names_of_ne hempty).2 hfound
      · rw [hgo] at ht ⊢
        match hfound : p₀.nodes.lookupType name with
        | none => simp [hfound] at ht
        | some id =>
          rw [hfound] at ht
          rw [lookupType_mono hp₀.types hfound]
          exact ht

/-- A text that names a type makes the types it needs, and nothing else. -/
theorem meets_typeWithin_names (hp : p.nodes.Sane) (fuel : Nat) (name : String) :
    Steps.Meets (fun _ => True) (· = p) (typeWithin fuel name) fun t p' =>
      ∃ u, p' = { p with nodes := u } ∧ p.nodes.Interned u ∧ u.Names (typeName fuel name) t := by
  rintro p rfl
  obtain ⟨u, hu⟩ := finds_typeWithin (.refl hp) fuel name
  have hgo : (StateT.run (ExceptT.run (typeWithin fuel name)) p :
      Except ProgramError TypeId × Program) =
      (((typeWithin fuel name).go p).1, { p with nodes := u }) := Prod.ext rfl hu.after
  rw [hgo]
  match hr : ((typeWithin fuel name).go p).1 with
  | .ok t => exact ⟨u, rfl, hu.interned, hu.names t hr⟩
  | .error e => trivial

end Program

end PointsTo
