import PointsTo.Proofs.DerivedTypes
import PointsTo.Proofs.Filters
import PointsTo.Proofs.Schedules
import PointsTo.Proofs.TypeTexts
/-!
# What a type name means, and when

Naming a type may make it, and a type that has been made is found by its
name from then on. What a name means does not change that way (`Like`):
the types that are found at two times have one structure. But whether there
is a type to be found can: a text that is looked up as it stands, and is
the name of a type that another text makes, names a type once that has been
made (`Fickle`). `type_histories` says that nothing else changes, neither
for names nor for the outcomes of queries.
-/

namespace PointsTo

namespace Universe

variable {u₀ u u' u₁ u₂ : Universe} {t t' : TypeId} {r : TypeRecord} {name : String}

open TypeText

/-! ## Types that stand for one structure -/

/-- **The numbers stand for one structure**, in two universes that have grown from one:
they are that of one of its types, or of two types of one name and shape,
that are made of types that stand for one structure. -/
inductive Like (u₀ u₁ u₂ : Universe) : TypeId → TypeId → Prop
  | same {t : TypeId} (ht : u₀.Knows t) (hr : u₁.type? t = u₂.type? t) : Like u₀ u₁ u₂ t t
  | made {t t' : TypeId} {r r' : TypeRecord} (hr : u₁.type? t = some r)
      (hr' : u₂.type? t' = some r') (hname : r.name = r'.name) (hkind : r.kind = r'.kind)
      (helem : Like u₀ u₁ u₂ r.elem r'.elem) (hbase : Like u₀ u₁ u₂ r.base r'.base) :
      Like u₀ u₁ u₂ t t'

/-- The type has been made of one that has a name, and has its name from that. -/
def MadeOf (u : Universe) (r : TypeRecord) : Prop :=
  (r.kind = .array ∧ r.base = noType ∧ ∃ elem, r.name = arrayName elem ∧ u.Names elem r.elem) ∨
    r.kind = .anySubtype ∧ r.elem = noType ∧ ¬ IsArrayName r.name ∧
      ∃ base, r.name = anySubtypeName base ∧ u.Names base r.base

/-- More types do not change what a type has been made of. -/
theorem MadeOf.mono (h : u.types.toList <+: u'.types.toList) (hr : u.MadeOf r) : u'.MadeOf r := by
  obtain ⟨hkind, hbase, elem, hname, helem⟩ | ⟨hkind, helem, hnot, base, hname, hbase⟩ := hr
  · exact .inl ⟨hkind, hbase, elem, hname, helem.mono h⟩
  · exact .inr ⟨hkind, helem, hnot, base, hname, hbase.mono h⟩

/-- What is at the core of the text can be looked up. -/
def Finds (u : Universe) (e : TypeText) : Prop := ∀ name ∈ e.core?, (u.lookupType name).isSome

instance (u : Universe) (e : TypeText) : Decidable (u.Finds e) :=
  match h : e.core? with
  | .none => .isTrue (by simp [Finds, h])
  | some name => decidable_of_iff (u.lookupType name).isSome (by simp [Finds, h])

theorem not_finds_iff {e : TypeText} :
    ¬ u.Finds e ↔ ∃ core, e.core? = some core ∧ u.lookupType core = .none := by
  simp only [Finds, Option.mem_def, not_forall, Option.not_isSome_iff_eq_none, exists_prop]

/-- What can be looked up stays so. -/
theorem Finds.mono (h : u.types.toList <+: u'.types.toList) {e : TypeText} (he : u.Finds e) :
    u'.Finds e := by
  intro name hname
  obtain ⟨t, ht⟩ := Option.isSome_iff_exists.1 (he name hname)
  rw [lookupType_mono h ht]
  rfl

/-- **Types have been made by texts**: as `Interned`, and the new ones are made of types
that have names, and have the names of texts whose type can be found without
them. -/
structure Coined (u₀ u : Universe) : Prop where
  interned : u₀.Interned u
  made : ∀ (t : Int) r, u.type? t = some r → ¬ u₀.HasType t → u.MadeOf r
  texts : ∀ name, (u.lookupType name).isSome → (u₀.lookupType name).isSome ∨
    ∃ x, u₀.Finds (read x) ∧ (read x).typeName = name

namespace Coined

theorem refl (hu : u.Sane) : Coined u u where
  interned := .refl hu
  made _ _ hr hnot := absurd (hasType_of_eq hr) hnot
  texts _ := .inl

/-- **A text whose type is found now has the type of a text whose type can be found
without what has been made.** -/
theorem exists_text (h : Coined u₀ u) : ∀ e : TypeText, e.Readable → u.Finds e →
    ∃ x, u₀.Finds (read x) ∧ (read x).typeName = e.typeName
  | .none, _, _ => ⟨"", nofun, rfl⟩
  | .null, _, _ => ⟨"null", nofun, rfl⟩
  | .plain name, he, hfound => by
    have he : read name = .plain name := he
    obtain hold | hnew := h.texts name (hfound name rfl)
    · refine ⟨name, ?_, congrArg typeName he⟩
      rw [he]
      rintro _ ⟨⟩
      exact hold
    · exact hnew
  | .array elem, he, hfound => by
    obtain ⟨x, hx, hname⟩ := h.exists_text elem he hfound
    exact ⟨x ++ "[]", by rw [read_array]; exact hx, by rw [read_array, typeName, hname, typeName]⟩
  | .anySubtype base, ⟨hbase, hnot⟩, hfound => by
    obtain ⟨x, hx, hname⟩ := h.exists_text base hbase hfound
    have hplain : ¬ IsArrayName x := fun harray => by
      obtain ⟨elem, rfl⟩ := exists_eq_of_isArrayName harray
      rw [read_array] at hname
      exact hnot (hname ▸ isArrayName_arrayName _)
    refine ⟨"any " ++ x, ?_, ?_⟩
    · rw [read_anySubtype hplain]
      exact hx
    · rw [read_anySubtype hplain, typeName, hname, typeName]

/-- **One type is made, or found.** -/
theorem internType (h : Coined u₀ u) {r : TypeRecord} (h0 : (0 : Int) ≤ r.elem)
    (hlt : (r.elem : Int) < u.types.size) (hr : u.MadeOf r)
    (hx : ∃ x, u₀.Finds (read x) ∧ (read x).typeName = r.name) :
    u.Interned (u.internType r).2 ∧ Coined u₀ (u.internType r).2 ∧
      (u.internType r).2.Names r.name (u.internType r).1 := by
  have hne : r.name ≠ "" := by
    obtain ⟨-, -, elem, hname, -⟩ | ⟨-, -, -, base, hname, -⟩ := hr
    · exact hname ▸ Interned.arrayName_ne_empty elem
    · exact hname ▸ Interned.anySubtypeName_ne_empty base
  have hinterned := Interned.internType h.interned.sane h0 hlt hne (by
    obtain ⟨hkind, -, elem, hname, helem⟩ | ⟨hkind, -, hnot, -⟩ := hr
    · exact .inl ⟨hkind, elem, hname, helem⟩
    · exact .inr ⟨hkind, hnot⟩)
  refine ⟨hinterned.1, ?_, hinterned.2⟩
  have hall := h.interned.trans hinterned.1
  have hgrown := hinterned.1.types
  obtain ⟨id, -, heq⟩ | ⟨-, heq⟩ := u.internType_cases r <;> rw [heq] at hall hgrown ⊢
  · exact h
  -- only the type that is made is new
  have hwhich : ∀ (t : Int) r', (Universe.type? { u with
      types := u.types.push { r with id := u.types.size } } t) = some r' →
      u.type? t = some r' ∨ r' = { r with id := u.types.size } := by
    intro t r' hr'
    rw [type?_push] at hr'
    split at hr'
    · exact .inr (Option.some.inj hr').symm
    · exact .inl hr'
  refine ⟨hall, fun t r' hr' hnot => ?_, fun name hname => ?_⟩
  · obtain hold | rfl := hwhich t r' hr'
    · exact (h.made t r' hold hnot).mono hgrown
    · exact MadeOf.mono hgrown hr
  · obtain ⟨t, ht⟩ := Option.isSome_iff_exists.1 hname
    obtain ⟨r', hr', rfl⟩ := type?_of_lookupType ht
    obtain hold | rfl := hwhich t r' hr'
    · obtain ⟨id, hid⟩ := exists_lookupType hold
      exact h.texts r'.name (hid ▸ rfl)
    · exact .inr hx

/-- An array of a type that has a name is one more type that a text asks for. -/
theorem addArrayType (h : Coined u₀ u) (ht : u.Names name t)
    (hx : ∃ x, u₀.Finds (read x) ∧ (read x).typeName = arrayName name) : ∃ t' u',
    u.addArrayType t = .ok (t', u') ∧ u.Interned u' ∧ Coined u₀ u' ∧
      u'.Names (arrayName name) t' := by
  obtain ⟨e, he, rfl⟩ := ht.slot h.interned.sane.blank
  obtain ⟨h0, hlt⟩ := slot?_bounds he
  refine ⟨_, _, by rw [Universe.addArrayType, he], ?_⟩
  exact h.internType h0 hlt (.inl ⟨rfl, rfl, _, rfl, ht⟩) hx

/-- The subtypes of a type that has a name are one more type that a text asks for,
unless the name reads as that of an array. -/
theorem addAnySubtype (h : Coined u₀ u) (ht : u.Names name t)
    (hnot : ¬ IsArrayName (anySubtypeName name))
    (hx : ∃ x, u₀.Finds (read x) ∧ (read x).typeName = anySubtypeName name) : ∃ t' u',
    u.addAnySubtype t = .ok (t', u') ∧ u.Interned u' ∧ Coined u₀ u' ∧
      u'.Names (anySubtypeName name) t' := by
  obtain ⟨b, hb, rfl⟩ := ht.slot h.interned.sane.blank
  refine ⟨_, _, by rw [Universe.addAnySubtype, hb], ?_⟩
  exact h.internType (Int.le_refl 0) (Int.natCast_pos.2 h.interned.sane.size_pos)
    (.inr ⟨rfl, rfl, hnot, _, rfl, ht⟩) hx

/-- A name leads to one old type, or to new types that are made of others. -/
theorem names_cases (h₁ : Coined u₀ u₁) (h₂ : Coined u₀ u₂) (hn : u₁.Names name t)
    (hn' : u₂.Names name t') : (u₀.Knows t ∧ t = t') ∨
      ∃ r r', u₁.type? t = some r ∧ u₂.type? t' = some r' ∧ r.name = name ∧ r'.name = name ∧
        u₁.MadeOf r ∧ u₂.MadeOf r' := by
  by_cases ht : u₀.Knows t
  · exact .inl ⟨ht, ((h₂.interned.names_iff ht).2 ((h₁.interned.names_iff ht).1 hn)).unique hn'⟩
  have ht' : ¬ u₀.Knows t' := fun ht' => by
    have hsame := (h₁.interned.names_iff ht').2 ((h₂.interned.names_iff ht').1 hn')
    exact ht (hn.unique hsame ▸ ht')
  obtain ⟨r, hr⟩ := Option.isSome_iff_exists.1 (hn.knows.resolve_left fun hnone => ht (.inl hnone))
  obtain ⟨r', hr'⟩ :=
    Option.isSome_iff_exists.1 (hn'.knows.resolve_left fun hnone => ht' (.inl hnone))
  refine .inr ⟨r, r', hr, hr', ?_, ?_, ?_, ?_⟩
  · rw [← hn.typeD_name, typeD_of_eq hr]
  · rw [← hn'.typeD_name, typeD_of_eq hr']
  · exact h₁.made t r hr fun hold => ht (.inr hold)
  · exact h₂.made t' r' hr' fun hold => ht' (.inr hold)

/-- A type that was there before stands for itself. -/
theorem like_of_knows (h₁ : Coined u₀ u₁) (h₂ : Coined u₀ u₂) (ht : u₀.Knows t) :
    Like u₀ u₁ u₂ t t := by
  refine .same ht ?_
  obtain rfl | hold := ht
  · rw [type?_noType, type?_noType]
  · obtain ⟨r, hr⟩ := Option.isSome_iff_exists.1 hold
    rw [type?_mono h₁.interned.types hr, type?_mono h₂.interned.types hr]

/-- **Types that are found under one name stand for one structure**, wherever types have
been made: what they are made of has a shorter name. -/
theorem like_of_names (h₁ : Coined u₀ u₁) (h₂ : Coined u₀ u₂) : ∀ (n : Nat) (name : String)
    {t t' : TypeId}, name.length < n → u₁.Names name t → u₂.Names name t' →
    Like u₀ u₁ u₂ t t' := by
  have hnone : Like u₀ u₁ u₂ noType noType := h₁.like_of_knows h₂ (.inl rfl)
  intro n
  induction n with
  | zero => exact fun _ _ _ h => absurd h (Nat.not_lt_zero _)
  | succ n ih =>
    intro name t t' hlength hn hn'
    obtain ⟨ht, rfl⟩ | ⟨r, r', hr, hr', rfl, hsame, hmade, hmade'⟩ := h₁.names_cases h₂ hn hn'
    · exact h₁.like_of_knows h₂ ht
    obtain ⟨hkind, hbase, elem, hname, helem⟩ |
        ⟨hkind, helem, hnot, base, hname, hbase⟩ := hmade <;>
      obtain ⟨hkind', hbase', elem', hname', helem'⟩ |
        ⟨hkind', helem', hnot', base', hname', hbase'⟩ := hmade'
    · obtain rfl : elem = elem' := arrayName_injective (by rw [← hname, ← hname', hsame])
      have hshorter : elem.length < n := by
        rw [hname, arrayName, String.length_append] at hlength
        exact Nat.lt_of_lt_of_le (Nat.lt_add_of_pos_right (by decide)) (Nat.le_of_lt_succ hlength)
      exact .made hr hr' hsame.symm (hkind.trans hkind'.symm) (ih elem hshorter helem helem')
        (by rwa [hbase, hbase'])
    · rw [hsame, hname] at hnot'
      exact absurd (isArrayName_arrayName elem) hnot'
    · rw [← hsame, hname'] at hnot
      exact absurd (isArrayName_arrayName elem') hnot
    · obtain rfl : base = base' := anySubtypeName_injective (by rw [← hname, ← hname', hsame])
      have hshorter : base.length < n := by
        rw [hname, anySubtypeName, String.length_append] at hlength
        exact Nat.lt_of_lt_of_le (Nat.lt_add_of_pos_left (by decide)) (Nat.le_of_lt_succ hlength)
      exact .made hr hr' hsame.symm (hkind.trans hkind'.symm) (by rwa [helem, helem'])
        (ih base hshorter hbase hbase')

end Coined

end Universe

namespace Program

open Universe TypeText

variable {p p' : Program} {u₀ : Universe} {e : TypeText} {name : String}

/-- **What finding the type of a text does**, wherever types have been made: it fails if
what is at its core cannot be looked up, and else gives a type of its name. -/
theorem go_resolve : ∀ (e : TypeText) {p : Program}, Coined u₀ p.nodes → e.Readable →
    (p.nodes.Finds e → ∃ t u, e.resolve.go p = (.ok t, { p with nodes := u }) ∧
      p.nodes.Interned u ∧ Coined u₀ u ∧ u.Names e.typeName t) ∧
    ∀ name ∈ e.core?, p.nodes.lookupType name = .none →
      e.resolve.go p = (.error (.unknownType name), p)
  | .none, p, h, _ => by
    refine ⟨fun _ => ⟨noType, p.nodes, rfl, .refl h.interned.sane, h, names_empty.2 rfl⟩, nofun⟩
  | .null, p, h, _ => by
    refine ⟨fun _ => ⟨nullType, p.nodes, rfl, .refl h.interned.sane, h, ?_⟩, nofun⟩
    exact h.interned.sane.names_null
  | .plain name, p, h, he => by
    have hgo : (TypeText.plain name).resolve.go p = _ :=
      go_lookup (.unknownType name) (fun p => p.nodes.lookupType name) p
    rw [hgo]
    constructor
    · intro hfound
      obtain ⟨t, ht⟩ := Option.isSome_iff_exists.1 (hfound name rfl)
      refine ⟨t, p.nodes, by rw [ht]; rfl, .refl h.interned.sane, h, ?_⟩
      refine (names_of_ne ?_).2 ht
      rintro rfl
      cases he
    · rintro _ ⟨⟩ hnone
      rw [hnone]
      rfl
  | .array elem, p, h, he => by
    obtain ⟨hok, herror⟩ := go_resolve elem h he
    constructor
    · intro hfound
      obtain ⟨t, u, hgo, hinterned, hcoined, hnames⟩ := hok hfound
      obtain ⟨t', u', hmade, hinterned', hcoined', hnames'⟩ :=
        hcoined.addArrayType hnames (h.exists_text (.array elem) he hfound)
      refine ⟨t', u', ?_, hinterned.trans hinterned', hcoined', hnames'⟩
      rw [resolve, go_bind, hgo]
      exact go_onNodes hmade
    · intro name hname hnone
      rw [resolve, go_bind, herror name hname hnone]
  | .anySubtype base, p, h, he => by
    obtain ⟨hok, herror⟩ := go_resolve base h he.1
    constructor
    · intro hfound
      obtain ⟨t, u, hgo, hinterned, hcoined, hnames⟩ := hok hfound
      obtain ⟨t', u', hmade, hinterned', hcoined', hnames'⟩ := hcoined.addAnySubtype hnames
        (fun h => he.2 (isArrayName_of_anySubtypeName h))
        (h.exists_text (.anySubtype base) he hfound)
      refine ⟨t', u', ?_, hinterned.trans hinterned', hcoined', hnames'⟩
      rw [resolve, go_bind, hgo]
      exact go_onNodes hmade
    · intro name hname hnone
      rw [resolve, go_bind, herror name hname hnone]

/-- What is at the core of a text that can be read is never the empty name. -/
theorem core?_ne_empty : ∀ e : TypeText, e.Readable → ∀ name ∈ e.core?, name ≠ ""
  | .none, _ | .null, _ => nofun
  | .plain name, he => by
    rintro _ ⟨⟩ rfl
    cases he
  | .array elem, he => core?_ne_empty elem he
  | .anySubtype base, he => core?_ne_empty base he.1

/-! ## Asking for types -/

/-- The type of the text can be found. -/
def Resolves (p : Program) (name : String) : Prop := ∃ t, ((type name).go p).1 = .ok t

instance (p : Program) (name : String) : Decidable (p.Resolves name) :=
  decidable_of_iff ((type name).go p).1.isOk Steps.isOk_iff

/-- The program after the types of some texts have been asked for. -/
def afterTypes (p : Program) (names : List String) : Program :=
  names.foldl (fun p name => ((type name).go p).2) p

/-- **Asking for a type** makes the types that the text needs, or fails and changes nothing
if what is at its core cannot be looked up. -/
theorem go_type_cases (h : Coined u₀ p.nodes) (name : String) :
    (p.nodes.Finds (read name) ∧ ∃ t u, (type name).go p = (.ok t, { p with nodes := u }) ∧
      Coined u₀ u ∧ u.Names (read name).typeName t) ∨
    ¬ p.nodes.Finds (read name) ∧ ∃ core, (read name).core? = some core ∧
      (type name).go p = (.error (.unknownType core), p) := by
  obtain ⟨hok, herror⟩ := go_resolve (read name) h (readable_read name)
  rw [type_eq]
  by_cases hfound : p.nodes.Finds (read name)
  · obtain ⟨t, u, hgo, -, hcoined, hnames⟩ := hok hfound
    exact .inl ⟨hfound, t, u, hgo, hcoined, hnames⟩
  · obtain ⟨core, hcore, hnone⟩ := not_finds_iff.1 hfound
    exact .inr ⟨hfound, core, hcore, herror core hcore hnone⟩

/-- A text has a type where what is at its core can be looked up. -/
theorem resolves_iff (h : Coined u₀ p.nodes) : p.Resolves name ↔ p.nodes.Finds (read name) := by
  obtain ⟨hfound, t, u, hgo, -⟩ | ⟨hfound, core, -, hgo⟩ := go_type_cases h name
  · exact iff_of_true ⟨t, by rw [hgo]⟩ hfound
  · exact iff_of_false (by rintro ⟨t, ht⟩; rw [hgo] at ht; cases ht) hfound

/-- Asking for a type makes types by texts, whether it succeeds or not. -/
theorem coined_type (h : Coined u₀ p.nodes) (name : String) :
    Coined u₀ ((type name).go p).2.nodes := by
  obtain ⟨-, t, u, hgo, hcoined, -⟩ | ⟨-, core, -, hgo⟩ := go_type_cases h name
  · rw [hgo]
    exact hcoined
  · rw [hgo]
    exact h

/-- The type that a text is given has the name of the text. -/
theorem names_of_type (h : Coined u₀ p.nodes) {t : TypeId} (ht : ((type name).go p).1 = .ok t) :
    ((type name).go p).2.nodes.Names (read name).typeName t := by
  obtain ⟨-, t', u, hgo, -, hnames⟩ | ⟨-, core, -, hgo⟩ := go_type_cases h name
  · rw [hgo] at ht ⊢
    cases ht
    exact hnames
  · rw [hgo] at ht
    cases ht

theorem coined_afterTypes (names : List String) : ∀ {p : Program}, Coined u₀ p.nodes →
    Coined u₀ (p.afterTypes names).nodes := by
  induction names with
  | nil => exact fun h => h
  | cons name names ih => exact fun h => ih (coined_type h name)

/-- **What the text names depends on what has been asked for**: its type cannot be found, but
what is at its core is the name of the type of a text whose type can. -/
def Fickle (p : Program) (name : String) : Prop :=
  ¬ p.Resolves name ∧
    ∃ core x, (read name).core? = some core ∧ p.Resolves x ∧ (read x).typeName = core

/-- What can be found can be found later on. -/
theorem Resolves.later (hp : p.nodes.Sane) (h : Coined p.nodes p'.nodes) (hname : p.Resolves name) :
    p'.Resolves name :=
  (resolves_iff h).2 (((resolves_iff (.refl hp)).1 hname).mono h.interned.types)

/-- **What can be found later on can be found now, or depends on what has been asked for.** -/
theorem Resolves.before (hp : p.nodes.Sane) (h : Coined p.nodes p'.nodes)
    (hname : p'.Resolves name) : p.Resolves name ∨ p.Fickle name := by
  have hnow : p.Resolves name ↔ p.nodes.Finds (read name) := resolves_iff (.refl hp)
  by_cases hresolves : p.Resolves name
  · exact .inl hresolves
  obtain ⟨core, hcore, hnone⟩ := not_finds_iff.1 (mt hnow.2 hresolves)
  obtain hold | ⟨x, hx, hsame⟩ := h.texts core ((resolves_iff h).1 hname core hcore)
  · simp [hnone] at hold
  · exact .inr ⟨hresolves, core, x, hcore, (resolves_iff (.refl hp)).2 hx, hsame⟩

/-- One text is enough to make the difference. -/
theorem Fickle.exists_resolves (hp : p.nodes.Sane) (h : p.Fickle name) :
    ∃ x, (p.afterTypes [x]).Resolves name := by
  obtain ⟨-, core, x, hcore, ⟨t, ht⟩, hsame⟩ := h
  have hnames := names_of_type (.refl hp) ht
  rw [hsame, names_of_ne (core?_ne_empty _ (readable_read name) core hcore)] at hnames
  refine ⟨x, (resolves_iff (coined_type (.refl hp) x)).2 fun n hn => ?_⟩
  obtain rfl : core = n := Option.some.inj (hcore.symm.trans hn)
  rw [hnames]
  rfl

/-- What is at the core of a text is no name of an array, or it would have been taken
apart. -/
theorem not_isArrayName_core : ∀ e : TypeText, e.Readable → ∀ core ∈ e.core?, ¬ IsArrayName core
  | .none, _ | .null, _ => nofun
  | .plain name, he => by
    rintro _ ⟨⟩ harray
    obtain ⟨elem, rfl⟩ := exists_eq_of_isArrayName harray
    rw [Readable, read_array] at he
    cases he
  | .array elem, he => not_isArrayName_core elem he
  | .anySubtype base, he => not_isArrayName_core base he.1

/-- **Only a text with the name of an any-subtype type at its core** depends on what has been
asked for. -/
theorem Fickle.isAnyName (hp : p.nodes.Sane) (h : p.Fickle name) :
    ∃ core, (read name).core? = some core ∧ IsAnyName core := by
  obtain ⟨hnot, core, x, hcore, hx, hsame⟩ := h
  have hmissing : ¬ (p.nodes.lookupType core).isSome := fun hsome => by
    refine hnot ((resolves_iff (.refl hp)).2 fun n hn => ?_)
    rwa [← Option.some.inj (hcore.symm.trans hn)]
  refine ⟨core, hcore, ?_⟩
  match hread : read x with
  | .none =>
    rw [hread] at hsame
    exact absurd hsame.symm (core?_ne_empty _ (readable_read name) core hcore)
  | .null =>
    rw [hread] at hsame
    have hnull := (names_of_ne (by decide)).1 hp.names_null
    exact absurd (by rw [← hsame, TypeText.typeName, hnull]; rfl) hmissing
  | .plain n =>
    have hfinds := (resolves_iff (.refl hp)).1 hx
    rw [hread] at hsame hfinds
    exact absurd (hsame ▸ hfinds n rfl) hmissing
  | .array elem =>
    rw [hread] at hsame
    exact absurd (hsame ▸ isArrayName_arrayName _)
      (not_isArrayName_core _ (readable_read name) core hcore)
  | .anySubtype base =>
    rw [hread] at hsame
    exact hsame ▸ isAnyName_anySubtypeName _

/-- **Whether a type can be found depends on what has been asked for in no other way.** -/
theorem resolves_afterTypes_iff (hp : p.nodes.Sane) (name : String) :
    (∀ before before', (p.afterTypes before).Resolves name ↔
      (p.afterTypes before').Resolves name) ↔ ¬ p.Fickle name := by
  constructor
  · intro hsame hfickle
    obtain ⟨x, hx⟩ := hfickle.exists_resolves hp
    exact hfickle.1 ((hsame [x] []).1 hx)
  · intro hsteady
    have hback : ∀ before, (p.afterTypes before).Resolves name ↔ p.Resolves name := fun before =>
      have h := coined_afterTypes before (.refl hp)
      ⟨fun hlater => (hlater.before hp h).resolve_right hsteady, fun hnow => hnow.later hp h⟩
    exact fun before before' => (hback before).trans (hback before').symm

/-! ## The outcomes of queries -/

variable {b : BuiltProgram} {q : QueryDecl} {own : Querier}

/-- A query that asks for no type asks for that of the empty text, which is none. -/
theorem go_typeOf (q : QueryDecl) (p : Program) : (typeOf q).go p =
    (((type q.type).go p).1.map fun t => if q.type = "" then .none else some t,
      ((type q.type).go p).2) := by
  unfold typeOf
  split
  · next hempty =>
    rw [hempty]
    rfl
  · rw [map_eq_pure_bind, go_bind]
    generalize (type q.type).go p = run
    obtain ⟨r, p'⟩ := run
    cases r <;> rfl

/-- A query makes types only for the type it asks for. -/
theorem go_task_nodes (b : BuiltProgram) (q : QueryDecl) (p : Program) :
    ((task b q).go p).2 = p ∨ ((task b q).go p).2 = ((type q.type).go p).2 := by
  rw [task_eq, (reads_node _).go_bind]
  match ((node q.pointer).go p).1 with
  | .error e => exact .inl rfl
  | .ok ptr =>
    refine .inr ?_
    dsimp only
    rw [go_bind (typeOf q), go_typeOf]
    match ((type q.type).go p).1 with
    | .error e => rfl
    | .ok t =>
      dsimp only [Except.map]
      rw [(reads_fieldOf q).go_bind]
      match ((fieldOf q).go ((type q.type).go p).2).1 with
      | .error e => rfl
      | .ok f =>
        dsimp only
        rw [(reads_approach q).go_bind]
        match ((approach q).go ((type q.type).go p).2).1 with
        | .error e => rfl
        | .ok how => rfl

/-- Only the task of a query makes types; its search makes none. -/
theorem nodes_run (b : BuiltProgram) (q : QueryDecl) (own : Querier) (p : Program) :
    (run b q own p).2.2.nodes = ((task b q).go p).2.nodes := by
  unfold run
  split <;> simp_all

/-- **Queries make types as asking for them does.** -/
theorem Session.coined (hp : p.nodes.Sane) {owns : List Querier} (h : Session b p owns p') :
    Coined p.nodes p'.nodes := by
  induction h with
  | start => exact .refl hp
  | @answered owns p' i own out _ _ q _ ih =>
    rw [nodes_run]
    obtain hsame | hsame := go_task_nodes b q p' <;> rw [hsame]
    · exact ih
    · exact coined_type ih q.type

/-- A query whose type cannot be found is refused, for one reason at all times. -/
theorem exists_refusal (p : Program) (b : BuiltProgram) (q : QueryDecl) (e : ProgramError) :
    ∃ e', ∀ p' own, Queried p p' → (type q.type).go p' = (.error e, p') →
      (run b q own p').1 = refusal q e' := by
  have hrun : ∀ {p' : Program} {own : Querier} {e' : ProgramError},
      (task b q).go p' = (.error e', p') → (run b q own p').1 = refusal q e' := by
    intro p' own e' hgo
    rw [run, hgo]
    cases e' <;> rfl
  cases hnode : ((node q.pointer).go p).1 with
  | error e' =>
    refine ⟨e', fun p' own h _ => hrun ?_⟩
    rw [task_eq, (reads_node _).go_bind, (reads_node _).same p p' h, hnode]
  | ok ptr =>
    refine ⟨e, fun p' own h he => hrun ?_⟩
    rw [task_eq, (reads_node _).go_bind, (reads_node _).same p p' h, hnode]
    dsimp only
    rw [go_bind (typeOf q), go_typeOf, he]
    rfl

/-- **A query whose type does not depend on what has been asked for has the outcome that it
has alone.** -/
theorem Session.run_eq_alone (hp : p.Orderly) {owns : List Querier} (h : Session b p owns p')
    (hown : own ∈ owns) (hq : ¬ p.Fickle q.type) :
    (run b q own p').1 = (run b q (querier b) p).1 := by
  obtain ⟨hqueried, hready⟩ := h.spec hp
  by_cases hresolves : p.Resolves q.type
  · exact Program.run_eq_alone hp hqueried hresolves (hready own hown)
  have hlater : ¬ p'.Resolves q.type := fun hlater =>
    (hlater.before hp.nodes (h.coined hp.nodes)).elim hresolves hq
  -- it is refused at both times, for what is at the core of the text
  obtain ⟨hfound, -⟩ | ⟨-, core, hcore, hgo⟩ := go_type_cases (.refl hp.nodes) q.type
  · exact absurd ((resolves_iff (.refl hp.nodes)).2 hfound) hresolves
  obtain ⟨hfound, -⟩ | ⟨-, core', hcore', hgo'⟩ := go_type_cases (h.coined hp.nodes) q.type
  · exact absurd ((resolves_iff (h.coined hp.nodes)).2 hfound) hlater
  obtain rfl := Option.some.inj (hcore.symm.trans hcore')
  obtain ⟨e, hrefused⟩ := exists_refusal p b q (.unknownType core)
  rw [hrefused p' own hqueried hgo', hrefused p _ (.start hp) hgo]

/-- **What depends on the types that have been asked for before.** The types that a text
names at two times stand for one structure. Whether it names one depends on the
time exactly if what is at its core is not the name of a type of the program, but
is that of the type of a text that names one, which is the name of an
any-subtype type. A query that asks for no such type has the outcome that it
has alone, whatever has been queried before. -/
theorem type_histories (hp : p.Prepared) :
    (∀ name before before' t t', ((type name).go (p.afterTypes before)).1 = .ok t →
      ((type name).go (p.afterTypes before')).1 = .ok t' →
      Like p.nodes ((type name).go (p.afterTypes before)).2.nodes
        ((type name).go (p.afterTypes before')).2.nodes t t') ∧
    (∀ name, (∀ before before', (p.afterTypes before).Resolves name ↔
      (p.afterTypes before').Resolves name) ↔ ¬ p.Fickle name) ∧
    (∀ name, p.Fickle name → ∃ core, (read name).core? = some core ∧ IsAnyName core) ∧
    ∀ b owns p', Session b p owns p' → ∀ own ∈ owns, ∀ q, ¬ p.Fickle q.type →
      (run b q own p').1 = (run b q (querier b) p).1 := by
  have hsane := hp.orderly.nodes
  refine ⟨fun name before before' t t' ht ht' => ?_, resolves_afterTypes_iff hsane,
    fun name => Fickle.isAnyName hsane,
    fun b owns p' hsession own hown q hq => hsession.run_eq_alone hp.orderly hown hq⟩
  have h := coined_afterTypes before (.refl hsane)
  have h' := coined_afterTypes before' (.refl hsane)
  exact (coined_type h name).like_of_names (coined_type h' name) _ _ (Nat.lt_succ_self _)
    (names_of_type h ht) (names_of_type h' ht')

/-- A program with one class. -/
def oneClass : Description where
  classes := [{ name := "T" }]
  methods := ["main"]
  entryPoints := ["main"]

/-- **A text that names no type, and does so later.** -/
theorem resolves_later_only :
    (declared oneClass).Prepared ∧ ¬ (declared oneClass).Resolves "Any_subtype_of_T" ∧
      ((declared oneClass).afterTypes ["any T"]).Resolves "Any_subtype_of_T" :=
  ⟨prepared_of_isOk (by decide +kernel), by decide +kernel, by decide +kernel⟩

theorem type_histories_arrays :
    let later := arrays.afterTypes ["any S", "T[]"]
    let first := run arraysBuilt (arrays.description.queries.headD {}) (querier arraysBuilt) arrays
    arrays.Prepared ∧
      (∃ t t', ((type "any T[]").go arrays).1 = .ok t ∧ ((type "any T[]").go later).1 = .ok t' ∧
        t ≠ t' ∧ Like arrays.nodes ((type "any T[]").go arrays).2.nodes
          ((type "any T[]").go later).2.nodes t t') ∧
      arrays.Fickle "Any_subtype_of_T" ∧
      Session arraysBuilt arrays [first.2.1] first.2.2 ∧
      ∀ q ∈ arrays.description.queries, ¬ arrays.Fickle q.type ∧
        (run arraysBuilt q first.2.1 first.2.2).1 =
          (run arraysBuilt q (querier arraysBuilt) arrays).1 := by
  intro later first
  obtain ⟨hlike, hsteady, -, hrun⟩ := type_histories prepared_arrays
  have hsession : Session arraysBuilt arrays [first.2.1] first.2.2 := by
    obtain ⟨out, hout⟩ : ∃ out, first.1 = .ok out := Steps.isOk_iff.1 (by decide +kernel)
    exact .answered (i := 0) (.start 1) rfl _ hout
  refine ⟨prepared_arrays, ?_, ?_, hsession, fun q hq => ?_⟩
  · have hnow : ((type "any T[]").go arrays).1 = .ok 6 := by decide +kernel
    have hlater : ((type "any T[]").go later).1 = .ok 8 := by decide +kernel
    exact ⟨6, 8, hnow, hlater, by decide, hlike _ [] ["any S", "T[]"] _ _ hnow hlater⟩
  · have hnow : ¬ arrays.Resolves "Any_subtype_of_T" := by decide +kernel
    have hlater : (arrays.afterTypes ["any T"]).Resolves "Any_subtype_of_T" := by decide +kernel
    by_contra hno
    exact hnow (((hsteady _).2 hno ["any T"] []).1 hlater)
  · have hresolves : ∀ q ∈ arrays.description.queries, arrays.Resolves q.type := by decide +kernel
    have hfickle : ¬ arrays.Fickle q.type := fun h => h.1 (hresolves q hq)
    exact ⟨hfickle, hrun _ _ _ hsession _ List.mem_cons_self q hfickle⟩

end Program

end PointsTo
