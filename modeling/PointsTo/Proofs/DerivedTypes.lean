import PointsTo.Proofs.TypeNames
/-!
# Types that are made of others

Arrays and any-subtype types are found by their names, and the name of an
array adds an end to that of its element type where the name of an
any-subtype type adds a beginning. So the order of the two is lost: an
array of any subtype of a type and any subtype of the arrays of it have one
name. Nothing else is lost (`Derivation.name_eq_iff`), and what is made is
what was asked for unless the other of the two is there already
(`derived_faithful_iff`).
-/

namespace PointsTo

/-- How a type is made of another one. -/
inductive Derivation where
  | array (elem : TypeId)
  | anySubtype (base : TypeId)
  deriving DecidableEq, Repr

/-- How the record says that its type is made, if it is made of another one. -/
def TypeRecord.derivation? (r : TypeRecord) : Option Derivation :=
  match r.kind with
  | .array => some (.array r.elem)
  | .anySubtype => some (.anySubtype r.base)
  | _ => none

namespace Universe

/-! ## Names that meet -/

/-- The name starts like that of an any-subtype type. -/
def IsAnyName (name : String) : Prop := "Any_subtype_of_".toList <+: name.toList

instance (name : String) : Decidable (IsAnyName name) :=
  inferInstanceAs (Decidable ("Any_subtype_of_".toList <+: name.toList))

theorem isAnyName_anySubtypeName (name : String) : IsAnyName (anySubtypeName name) := by
  rw [IsAnyName, anySubtypeName, String.toList_append]
  exact List.prefix_append _ _

/-- The name for any subtype of a type tells that type. -/
theorem anySubtypeName_injective {a b : String} (h : anySubtypeName a = anySubtypeName b) :
    a = b := by
  have hlists := congrArg String.toList h
  rw [anySubtypeName, anySubtypeName, String.toList_append, String.toList_append] at hlists
  exact String.toList_injective (List.append_cancel_left hlists)

/-- **Where the names of an array and of an any-subtype type meet.** -/
theorem arrayName_eq_anySubtypeName_iff {elem base : String} :
    arrayName elem = anySubtypeName base ↔
      ∃ core, elem = anySubtypeName core ∧ base = arrayName core := by
  constructor
  · intro h
    have hlists := congrArg String.toList h
    rw [arrayName, anySubtypeName, String.toList_append, String.toList_append] at hlists
    obtain ⟨more, hstart, hend⟩ | ⟨core, helem, hbase⟩ := List.append_eq_append_iff.1 hlists
    · cases more with
      | nil =>
        rw [List.append_nil] at hstart
        refine ⟨"", String.toList_injective ?_, String.toList_injective ?_⟩
        · rw [anySubtypeName, String.toList_append, hstart, String.toList_empty, List.append_nil]
        · rw [arrayName, String.toList_append, hend, String.toList_empty, List.nil_append,
            List.nil_append]
      | cons c more =>
        -- the brackets of the array would be among the letters of the beginning
        obtain rfl : '[' = c := (List.cons.inj hend).1
        have hmem : '[' ∈ "Any_subtype_of_".toList := hstart ▸ by simp
        exact absurd hmem (by decide)
    · refine ⟨String.ofList core, String.toList_injective ?_, String.toList_injective ?_⟩
      · rw [anySubtypeName, String.toList_append, helem]
        exact congrArg _ String.toList_ofList.symm
      · rw [arrayName, String.toList_append, hbase]
        exact congrArg (· ++ _) String.toList_ofList.symm
  · rintro ⟨core, rfl, rfl⟩
    rw [arrayName, anySubtypeName, anySubtypeName, arrayName, String.append_assoc]

end Universe

/-! ## Making a type of another one -/

namespace Derivation

open Universe

variable {u u' : Universe} {d d' : Derivation} {t : TypeId}

/-- The type that another one is made of. -/
def operand : Derivation → TypeId
  | array elem => elem
  | anySubtype base => base

/-- Makes the type, unless there is one of its name. -/
def make (u : Universe) : Derivation → Except Fault (TypeId × Universe)
  | array elem => u.addArrayType elem
  | anySubtype base => u.addAnySubtype base

/-- The name of the type. -/
def name (u : Universe) : Derivation → String
  | array elem => arrayName (u.typeD elem).name
  | anySubtype base => anySubtypeName (u.typeD base).name

/-- The type that is asked for. -/
def record (u : Universe) (d : Derivation) : TypeRecord :=
  match d with
  | array elem => { name := d.name u, kind := .array, elem }
  | anySubtype base => { name := d.name u, kind := .anySubtype, base }

@[simp] theorem name_record (u : Universe) (d : Derivation) : (d.record u).name = d.name u := by
  cases d <;> rfl

/-- **What was derived can be read off the record.** -/
@[simp] theorem derivation?_record (u : Universe) (d : Derivation) :
    (d.record u).derivation? = some d := by
  cases d <;> rfl

/-- **An array of any subtype of a type, and any subtype of the arrays of it.** -/
def Clashes (u : Universe) : Derivation → Derivation → Prop
  | array elem, anySubtype base | anySubtype base, array elem => ∃ core,
    (u.typeD elem).name = anySubtypeName core ∧ (u.typeD base).name = arrayName core
  | array _, array _ | anySubtype _, anySubtype _ => False

/-- What clashes is made of a type that has a name. -/
theorem Clashes.operand_ne (h : d.Clashes u d') : d'.operand ≠ noType := by
  have hblank : (u.typeD noType).name = "" := by rw [typeD, type?_noType, Option.getD_none]
  intro hnone
  cases d with
  | array elem =>
    cases d' with
    | array elem' => exact h
    | anySubtype base =>
      obtain ⟨core, -, hbase⟩ := h
      obtain rfl : base = noType := hnone
      exact Interned.arrayName_ne_empty core (hbase.symm.trans hblank)
  | anySubtype base =>
    cases d' with
    | array elem =>
      obtain ⟨core, helem, -⟩ := h
      obtain rfl : elem = noType := hnone
      exact Interned.anySubtypeName_ne_empty core (helem.symm.trans hblank)
    | anySubtype base' => exact h

/-- Deriving from a type that is there is looking the record up by its name, or adding
it. -/
theorem make_eq (h : u.HasType d.operand) : d.make u = .ok (u.internType (d.record u)) := by
  obtain ⟨r, hr⟩ := Option.isSome_iff_exists.1 h
  have hslot : slot? u.types d.operand = some r := by
    rw [← type?_of_ne]
    · exact hr
    · exact fun hnone => not_hasType_noType (hnone ▸ h)
  have hname := typeD_of_eq hr
  cases d with
  | array elem =>
    simp only [make, addArrayType, record, name, operand] at *
    rw [hslot, hname]
  | anySubtype base =>
    simp only [make, addAnySubtype, record, name, operand] at *
    rw [hslot, hname]

end Derivation

namespace Universe

variable {u u' : Universe} {d d' : Derivation} {t t' : TypeId} {r r' : TypeRecord}

/-- The name of a type that is not made of another one. -/
structure IsPlain (name : String) : Prop where
  not_array : ¬ IsArrayName name
  not_any : ¬ IsAnyName name

instance (name : String) : Decidable (IsPlain name) :=
  decidable_of_iff (¬ IsArrayName name ∧ ¬ IsAnyName name)
    ⟨fun h => ⟨h.1, h.2⟩, fun h => ⟨h.not_array, h.not_any⟩⟩

/-- A type has a plain name and no parts, or is made of another one and has its name from
that. -/
def Shaped (u : Universe) (r : TypeRecord) : Prop :=
  (IsPlain r.name ∧ r.elem = noType ∧ r.base = noType) ∨
    ∃ d, r.derivation? = some d ∧ u.HasType d.operand ∧ r.name = d.name u

/-- **What holds of the types of a universe**, if those that are not made of others have
plain names: they are in shape, and no two of them have one name. -/
structure Derived (u : Universe) : Prop where
  pos : 0 < u.types.size
  unique : ∀ (t t' : Int) r r', u.type? t = some r → u.type? t' = some r' → r.name = r'.name →
    t = t'
  shaped : ∀ (t : Int) r, u.type? t = some r → u.Shaped r

/-- A type that is made like that is there. -/
def Holds (u : Universe) (d : Derivation) : Prop :=
  ∃ t r, u.type? t = some r ∧ r.derivation? = some d

namespace Derived

/-- **The order of the two is all that a name forgets.** -/
theorem name_eq_iff (hu : u.Derived) (hd : u.HasType d.operand) (hd' : u.HasType d'.operand) :
    d.name u = d'.name u ↔ d = d' ∨ d.Clashes u d' := by
  obtain ⟨r, hr⟩ := Option.isSome_iff_exists.1 hd
  obtain ⟨r', hr'⟩ := Option.isSome_iff_exists.1 hd'
  have hsame : (u.typeD d.operand).name = (u.typeD d'.operand).name → d.operand = d'.operand := by
    rw [typeD_of_eq hr, typeD_of_eq hr']
    exact hu.unique _ _ r r' hr hr'
  cases d with
  | array elem =>
    cases d' with
    | array elem' =>
      rw [Derivation.Clashes, or_false]
      exact ⟨fun h => congrArg _ (hsame (arrayName_injective h)), fun h => h ▸ rfl⟩
    | anySubtype base =>
      rw [or_iff_right (by rintro ⟨⟩)]
      exact arrayName_eq_anySubtypeName_iff
  | anySubtype base =>
    cases d' with
    | array elem =>
      rw [or_iff_right (by rintro ⟨⟩), eq_comm]
      exact arrayName_eq_anySubtypeName_iff
    | anySubtype base' =>
      rw [Derivation.Clashes, or_false]
      exact ⟨fun h => congrArg _ (hsame (anySubtypeName_injective h)), fun h => h ▸ rfl⟩

/-- A type that is made of another one has its name from that, unless it was given as one
that has no parts. -/
theorem of_derivation? (hu : u.Derived) (hr : u.type? t = some r) (hd : r.derivation? = some d)
    (hoperand : d.operand ≠ noType) : u.HasType d.operand ∧ r.name = d.name u := by
  obtain ⟨-, helem, hbase⟩ | ⟨d', hd', hhas, hname⟩ := hu.shaped t r hr
  · refine absurd ?_ hoperand
    unfold TypeRecord.derivation? at hd
    split at hd <;> cases hd
    · exact helem
    · exact hbase
  · obtain rfl := Option.some.inj (hd.symm.trans hd')
    exact ⟨hhas, hname⟩

/-- A type whose name is that of a derivation is made like that, or in a way that clashes
with it. -/
theorem of_name_eq (hu : u.Derived) (hd : u.HasType d.operand) (hr : u.type? t = some r)
    (hname : r.name = d.name u) :
    ∃ d', r.derivation? = some d' ∧ (d = d' ∨ d.Clashes u d') := by
  obtain ⟨⟨harray, hany⟩, -, -⟩ | ⟨d', hd', hoperand, hname'⟩ := hu.shaped t r hr
  · rw [hname] at harray hany
    cases d with
    | array elem => exact absurd (isArrayName_arrayName _) harray
    | anySubtype base => exact absurd (isAnyName_anySubtypeName _) hany
  · exact ⟨d', hd', (hu.name_eq_iff hd hoperand).1 (hname.symm.trans hname')⟩

end Derived

/-! ## Registering types -/

/-- Types keep what they are when others are added. -/
theorem typeD_mono (h : u.types.toList <+: u'.types.toList) (ht : u.HasType t) :
    u'.typeD t = u.typeD t := by
  obtain ⟨r, hr⟩ := Option.isSome_iff_exists.1 ht
  rw [typeD_of_eq hr, typeD_of_eq (type?_mono h hr)]

theorem hasType_mono (h : u.types.toList <+: u'.types.toList) (ht : u.HasType t) :
    u'.HasType t := by
  obtain ⟨r, hr⟩ := Option.isSome_iff_exists.1 ht
  exact hasType_of_eq (type?_mono h hr)

theorem name_mono (h : u.types.toList <+: u'.types.toList) (hd : u.HasType d.operand) :
    d.name u' = d.name u := by
  cases d with
  | array elem => exact congrArg (fun r => arrayName r.name) (typeD_mono h hd)
  | anySubtype base => exact congrArg (fun r => anySubtypeName r.name) (typeD_mono h hd)

theorem Shaped.mono (h : u.types.toList <+: u'.types.toList) (hr : u.Shaped r) : u'.Shaped r := by
  obtain hplain | ⟨d, hd, hoperand, hname⟩ := hr
  · exact .inl hplain
  · exact .inr ⟨d, hd, hasType_mono h hoperand, hname.trans (name_mono h hoperand).symm⟩

/-- **Types are added at the end.** -/
theorem prefix_internType (u : Universe) (r : TypeRecord) :
    u.types.toList <+: (u.internType r).2.types.toList := by
  obtain ⟨id, -, heq⟩ | ⟨-, heq⟩ := u.internType_cases r
  · rw [heq]
  · simp [heq]

/-- A type of that name is there afterwards, and is the one that was asked for if there was
none before. -/
theorem internType_spec (hpos : 0 < u.types.size) (r : TypeRecord) :
    ∃ r', (u.internType r).2.type? (u.internType r).1 = some r' ∧ r'.name = r.name ∧
      ((∀ t r', u.type? t = some r' → r'.name ≠ r.name) → r'.derivation? = r.derivation?) := by
  obtain ⟨id, hid, heq⟩ | ⟨-, heq⟩ := u.internType_cases r <;> rw [heq]
  · obtain ⟨r', hr', hname⟩ := type?_of_lookupType hid
    exact ⟨r', hr', hname, fun hnone => absurd hname (hnone id r' hr')⟩
  · refine ⟨{ r with id := u.types.size }, ?_, rfl, fun _ => rfl⟩
    have hne : (u.types.size : Int) ≠ noType := Int.natCast_ne_zero.2 (Nat.ne_of_gt hpos)
    rw [type?_push, if_pos ⟨rfl, hne⟩]

/-- **Interning a type keeps the names apart**, and has it in shape if it is one that was
asked for. -/
theorem Derived.internType (hu : u.Derived) {r : TypeRecord} (hr : u.Shaped r) :
    (u.internType r).2.Derived := by
  have hgrown := prefix_internType u r
  obtain ⟨id, -, heq⟩ | ⟨hnone, heq⟩ := u.internType_cases r <;> rw [heq] at hgrown ⊢
  · exact hu
  have hfree : ∀ (t : Int) r', u.type? t = some r' → r'.name ≠ r.name := by
    intro t r' hr' hname
    obtain ⟨id, hid⟩ := exists_lookupType hr'
    rw [hname, hnone] at hid
    cases hid
  -- a type of the longer table is an old one or the new one
  have hcases : ∀ (t : Int) r', Universe.type? { u with
      types := u.types.push { r with id := u.types.size } } t = some r' →
      u.type? t = some r' ∨ t = u.types.size ∧ r' = { r with id := u.types.size } := by
    intro t r' hr'
    rw [type?_push] at hr'
    split at hr'
    · next hsize => exact .inr ⟨hsize.1, (Option.some.inj hr').symm⟩
    · exact .inl hr'
  refine ⟨by simp, fun t t' s s' hs hs' hname => ?_, fun t s hs => ?_⟩
  · obtain hold | ⟨rfl, rfl⟩ := hcases t s hs <;> obtain hold' | ⟨rfl, rfl⟩ := hcases t' s' hs'
    · exact hu.unique t t' s s' hold hold' hname
    · exact absurd hname (hfree t s hold)
    · exact absurd hname.symm (hfree t' s' hold')
    · rfl
  · obtain hold | ⟨rfl, rfl⟩ := hcases t s hs
    · exact (hu.shaped t s hold).mono hgrown
    · exact Shaped.mono hgrown hr

/-- **What making a type of another one gives**: a type of its name. If there is one that
clashes with it, it is that; if there is none, it is the one that was asked for. -/
theorem Derived.make (hu : u.Derived) (hd : u.HasType d.operand) :
    ∃ t u' r, d.make u = .ok (t, u') ∧ u'.Derived ∧ u.types.toList <+: u'.types.toList ∧
      u'.type? t = some r ∧ r.name = d.name u ∧
      (∀ d', u.Holds d' → d.Clashes u d' → r.derivation? = some d') ∧
      ((∀ d', u.Holds d' → ¬ d.Clashes u d') → r.derivation? = some d) := by
  have hu' := hu.internType (.inr ⟨d, d.derivation?_record u, hd, d.name_record u⟩)
  have hgrown := prefix_internType u (d.record u)
  obtain ⟨r, hr, hname, hnew⟩ := internType_spec hu.pos (d.record u)
  rw [d.name_record] at hname hnew
  -- an old type of the name is the one that is found
  have hfound : ∀ t₀ r₀, u.type? t₀ = some r₀ → r₀.name = d.name u → r₀ = r := by
    intro t₀ r₀ hr₀ hname₀
    have hold := type?_mono hgrown hr₀
    obtain rfl := hu'.unique _ _ _ _ hold hr (hname₀.trans hname.symm)
    exact Option.some.inj (hold.symm.trans hr)
  refine ⟨_, _, r, d.make_eq hd, hu', hgrown, hr, hname, ?_, fun hnone => ?_⟩
  · rintro d' ⟨t₀, r₀, hr₀, hd'⟩ hclash
    obtain ⟨hoperand, hname₀⟩ := hu.of_derivation? hr₀ hd' hclash.operand_ne
    rw [← hfound t₀ r₀ hr₀ (hname₀.trans ((hu.name_eq_iff hd hoperand).2 (.inr hclash)).symm), hd']
  · by_cases hthere : ∃ t₀ r₀, u.type? t₀ = some r₀ ∧ r₀.name = d.name u
    · obtain ⟨t₀, r₀, hr₀, hname₀⟩ := hthere
      obtain ⟨d', hd', hwhich⟩ := hu.of_name_eq hd hr₀ hname₀
      obtain rfl := hwhich.resolve_right (hnone d' ⟨t₀, r₀, hr₀, hd'⟩)
      rw [← hfound t₀ r₀ hr₀ hname₀, hd']
    · rw [hnew fun t₀ r₀ hr₀ hname₀ => hthere ⟨t₀, r₀, hr₀, hname₀⟩, d.derivation?_record]

/-- Nothing was derived yet. -/
theorem derived_empty : empty.Derived where
  pos := by decide
  unique t t' r r' hr hr' _ := by
    have ht := hasType_iff.1 (hasType_of_eq hr)
    have ht' := hasType_iff.1 (hasType_of_eq hr')
    have hsize : empty.types.size = 2 := rfl
    omega
  shaped t r hr := by
    have ht := hasType_iff.1 (hasType_of_eq hr)
    have hsize : empty.types.size = 2 := rfl
    obtain rfl : t = 1 := by omega
    cases hr
    exact .inl (by decide)

end Universe

open Universe

/-- A type is registered: by its name, or as one that is made of another. -/
inductive Registration where
  | plain (name : String) (kind : TypeKind)
  | derived (d : Derivation)
  deriving Repr

namespace Registration

variable {u : Universe}

/-- The universe after a registration; one that stops with a fault changes nothing. -/
def apply (u : Universe) : Registration → Universe
  | plain name kind => (u.addType name kind).2
  | derived d => Addition.orSame u (d.make u)

/-- The name is a plain one, or the type is made of one that is there. -/
def Proper (u : Universe) : Registration → Prop
  | plain name _ => IsPlain name
  | derived d => u.HasType d.operand

/-- Registers the types one after the other. -/
def applyAll (u : Universe) (rs : List Registration) : Universe := rs.foldl apply u

/-- Each registration is proper when its turn comes. -/
def AllProper (u : Universe) : List Registration → Prop
  | [] => True
  | r :: rs => r.Proper u ∧ AllProper (r.apply u) rs

instance (u : Universe) : (r : Registration) → Decidable (r.Proper u)
  | plain name _ => inferInstanceAs (Decidable (IsPlain name))
  | derived d => inferInstanceAs (Decidable (u.HasType d.operand))

instance decidableAllProper : (u : Universe) → (rs : List Registration) → Decidable (AllProper u rs)
  | _, [] => .isTrue trivial
  | u, r :: rs =>
    haveI := decidableAllProper (r.apply u) rs
    inferInstanceAs (Decidable (r.Proper u ∧ AllProper (r.apply u) rs))

/-- A registration by derivation does what a direct one of its record does. -/
theorem apply_derived {d : Derivation} (h : u.HasType d.operand) :
    (derived d).apply u = (u.internType (d.record u)).2 := by
  rw [apply, d.make_eq h]
  rfl

/-- Every registration adds at the end, or nothing. -/
theorem prefix_apply (r : Registration) (hr : r.Proper u) :
    u.types.toList <+: (r.apply u).types.toList := by
  cases r with
  | plain name kind => exact prefix_internType u _
  | derived d =>
    rw [apply_derived hr]
    exact prefix_internType u _

/-- **What is derived stays derived** from what it was derived from. -/
theorem derived_apply (hu : u.Derived) (r : Registration) (hr : r.Proper u) :
    (r.apply u).Derived := by
  cases r with
  | plain name kind => exact hu.internType (.inl ⟨hr, rfl, rfl⟩)
  | derived d =>
    rw [apply_derived hr]
    exact hu.internType (.inr ⟨d, by simp, hr, by simp⟩)

/-- **Registrations keep the types that are there, and the names apart.** -/
theorem applyAll_spec : ∀ (rs : List Registration) {u : Universe}, u.Derived → AllProper u rs →
    u.types.toList <+: (applyAll u rs).types.toList ∧ (applyAll u rs).Derived
  | [], _, hu, _ => ⟨List.prefix_refl _, hu⟩
  | r :: rs, u, hu, ⟨hr, hrs⟩ => by
    obtain ⟨hgrown, hderived⟩ := applyAll_spec rs (derived_apply hu r hr) hrs
    exact ⟨(prefix_apply r hr).trans hgrown, hderived⟩

end Registration

open Registration

/-- **Which types are made of others as they are asked for.** After any registrations under
plain names and of types made of others, a type that is made of another one is
what was asked for exactly if none that clashes with it has been registered,
and it is that otherwise. A later call gives the same type exactly if it asks
for the same, or for what clashes with it. -/
theorem derived_faithful_iff (rs : List Registration) (h : AllProper .empty rs) :
    let u := applyAll .empty rs
    (∀ d : Derivation, u.HasType d.operand → ∃ t u' r, d.make u = .ok (t, u') ∧
      u'.type? t = some r ∧
      (r.derivation? = some d ↔ ∀ d', u.Holds d' → ¬ d.Clashes u d') ∧
      ∀ d', u.Holds d' → d.Clashes u d' → r.derivation? = some d') ∧
    ∀ (d d' : Derivation) t u' rs' t' u'', u.HasType d.operand → d.make u = .ok (t, u') →
      AllProper u' rs' → (applyAll u' rs').HasType d'.operand →
      d'.make (applyAll u' rs') = .ok (t', u'') →
      (t = t' ↔ d = d' ∨ d.Clashes (applyAll u' rs') d') := by
  intro u
  have hu : u.Derived := (applyAll_spec rs derived_empty h).2
  refine ⟨fun d hd => ?_, fun d d' t u' rs' t' u'' hd hmake hrs' hd' hmake' => ?_⟩
  · obtain ⟨t, u', r, hmake, -, -, hr, -, hclash, hfree⟩ := hu.make hd
    refine ⟨t, u', r, hmake, hr, ⟨fun hsame d' hd' hc => ?_, hfree⟩, hclash⟩
    obtain rfl := Option.some.inj (hsame.symm.trans (hclash d' hd' hc))
    cases d <;> exact hc
  · obtain ⟨_, _, r, heq, hu', hgrown, hr, hname, -⟩ := hu.make hd
    obtain ⟨rfl, rfl⟩ := Prod.mk.inj (Except.ok.inj (hmake.symm.trans heq))
    obtain ⟨hgrown', hlater⟩ := applyAll_spec rs' hu' hrs'
    obtain ⟨_, _, r', heq', hu'', hgrown'', hr', hname', -⟩ := hlater.make hd'
    obtain ⟨rfl, rfl⟩ := Prod.mk.inj (Except.ok.inj (hmake'.symm.trans heq'))
    have hsince := hgrown.trans hgrown'
    have hold := type?_mono (hgrown'.trans hgrown'') hr
    rw [← hlater.name_eq_iff (hasType_mono hsince hd) hd', name_mono hsince hd, ← hname, ← hname']
    constructor
    · rintro rfl
      exact congrArg (·.name) (Option.some.inj (hold.symm.trans hr'))
    · exact hu''.unique _ _ _ _ hold hr'

/-- A class, any subtype of it, and the arrays of both. -/
def arraysOfAny : List Registration :=
  [.plain "T" .ref, .derived (.anySubtype 2), .derived (.array 3), .derived (.array 2)]

/-- **Any subtype of the arrays of a class is an array** where there are arrays of any
subtype of the class. -/
theorem anySubtype_gives_array :
    let u := applyAll .empty arraysOfAny
    AllProper .empty arraysOfAny ∧ u.HasType 5 ∧
      ((Derivation.anySubtype 5).make u).map Prod.fst = .ok 4 ∧
      ((Derivation.array 3).make u).map Prod.fst = .ok 4 ∧
      (u.type? 4).bind (·.derivation?) = some (.array 3) := by
  decide +kernel

theorem derived_faithful_iff_arraysOfAny :
    let u := applyAll .empty arraysOfAny
    AllProper .empty arraysOfAny ∧
      (∃ t u' r, (Derivation.array 5).make u = .ok (t, u') ∧ u'.type? t = some r ∧
        r.derivation? = some (.array 5)) ∧
      u.Holds (.array 3) ∧ (Derivation.anySubtype 5).Clashes u (.array 3) ∧
      ∃ t u' r, (Derivation.anySubtype 5).make u = .ok (t, u') ∧ u'.type? t = some r ∧
        r.derivation? = some (.array 3) := by
  intro u
  have hproper : AllProper .empty arraysOfAny := by decide +kernel
  obtain ⟨hmakes, -⟩ := derived_faithful_iff arraysOfAny hproper
  have hholds : u.Holds (.array 3) := ⟨4, _, rfl, rfl⟩
  have hclash : (Derivation.anySubtype 5).Clashes u (.array 3) := ⟨"T", by decide +kernel⟩
  refine ⟨hproper, ?_, hholds, hclash, ?_⟩
  · obtain ⟨t, u', r, hmake, hr, hfaithful, -⟩ := hmakes (.array 5) (by decide +kernel)
    refine ⟨t, u', r, hmake, hr, hfaithful.2 fun d' _ hc => ?_⟩
    have hname : ¬ IsAnyName (u.typeD 5).name := by decide +kernel
    cases d' with
    | array elem => exact hc
    | anySubtype base =>
      obtain ⟨core, hcore, -⟩ := hc
      exact hname (hcore ▸ isAnyName_anySubtypeName core)
  · obtain ⟨t, u', r, hmake, hr, -, hgives⟩ := hmakes (.anySubtype 5) (by decide +kernel)
    exact ⟨t, u', r, hmake, hr, hgives _ hholds hclash⟩

end PointsTo
