import PointsTo.Proofs.Tables
import PointsTo.Universe.Basic
/-!
# Universes that grow

Nothing is ever taken out of a universe: what has a number keeps it, and
keeps its shape. `Grows` says so of two universes, and `Addition.grows`
says that every addition is of this kind. What is decided about types and
allocations that are there stays right while the universe grows, because
they are found as they were.
-/

namespace PointsTo

namespace Universe

variable {u u' u'' : Universe} {t n : Int}

/-! ## What is there -/

/-- The number is that of a type. -/
def HasType (u : Universe) (t : TypeId) : Prop := (u.type? t).isSome

/-- The number is that of a type, or the one that says there is none. -/
def Knows (u : Universe) (t : TypeId) : Prop := t = noType ∨ u.HasType t

/-- The number is that of an allocation. -/
def HasAlloc (u : Universe) (n : NodeId) : Prop := ∃ r, u.node? n = some r ∧ r.isAlloc

@[simp] theorem type?_noType : u.type? noType = none := if_pos rfl

theorem type?_of_ne (ht : t ≠ noType) : u.type? t = slot? u.types t := if_neg ht

theorem node?_of_ne (hn : n ≠ noNode) : u.node? n = slot? u.nodes n := if_neg hn

/-- **Nodes are numbered from one on.** The first entry of the table is no node. -/
theorem node?_eq_some {n : Int} {r : Node} :
    u.node? n = some r ↔ 1 ≤ n ∧ slot? u.nodes n = some r := by
  by_cases hn : n = noNode
  · simp [node?, hn, noNode]
  · rw [node?_of_ne hn]
    refine ⟨fun hr => ⟨?_, hr⟩, fun h => h.2⟩
    have hne : n ≠ 0 := hn
    have hbounds := slot?_bounds hr
    omega

/-- So are types. -/
theorem type?_eq_some {t : Int} {r : TypeRecord} :
    u.type? t = some r ↔ 1 ≤ t ∧ slot? u.types t = some r := by
  by_cases ht : t = noType
  · simp [type?, ht, noType]
  · rw [type?_of_ne ht]
    refine ⟨fun hr => ⟨?_, hr⟩, fun h => h.2⟩
    have hne : t ≠ 0 := ht
    have hbounds := slot?_bounds hr
    omega

/-- A node that is there has been numbered. -/
theorem node?_bounds {r : Node} (hr : u.node? n = some r) : 0 < n ∧ n < u.nodes.size :=
  ⟨(node?_eq_some.1 hr).1, (slot?_bounds (node?_eq_some.1 hr).2).2⟩

/-- The numbers of types are those of the table, without the first. -/
theorem hasType_iff : u.HasType t ↔ 0 < t ∧ t < u.types.size := by
  by_cases ht : t = noType
  · rw [HasType, ht, type?_noType]
    simp [noType]
  · rw [HasType, type?_of_ne ht, slot?_isSome]
    have : t ≠ 0 := ht
    omega

theorem not_hasType_noType : ¬ u.HasType noType := fun h =>
  Int.lt_irrefl 0 (hasType_iff.1 h).1

theorem typeD_of_eq {r : TypeRecord} (hr : u.type? t = some r) : u.typeD t = r := by
  rw [typeD, hr, Option.getD_some]

theorem hasType_of_eq {r : TypeRecord} (h : u.type? t = some r) : u.HasType t := by
  rw [HasType, h]
  rfl

/-- The record of an allocation says that it is one. -/
theorem HasAlloc.node {r : Node} (h : u.HasAlloc n) (hr : u.node? n = some r) : r.isAlloc := by
  obtain ⟨r', hr', halloc⟩ := h
  rwa [← Option.some.inj (hr.symm.trans hr')] at halloc

/-- Whether a node is an allocation can be read off its record. -/
theorem hasAlloc_iff : u.HasAlloc n ↔ (u.node? n).any (·.isAlloc) := by
  rw [HasAlloc]
  cases u.node? n <;> simp

/-- Where a search of a table stops. -/
theorem position?_eq_some {α : Type} {xs : Array α} {start : Nat} {p : α → Bool} {i : Int}
    (h : position? xs start p = some i) :
    ∃ k : Nat, i = k ∧ start ≤ k ∧ ∃ a, xs[k]? = some a ∧ p a := by
  obtain ⟨k, hk, rfl⟩ := Option.map_eq_some_iff.1 h
  obtain ⟨hlt, hp, -⟩ := List.findIdx?_eq_some_iff_getElem.1 hk
  refine ⟨k + start, rfl, Nat.le_add_left .., _, ?_, hp⟩
  rw [← Array.getElem?_toList, Nat.add_comm, ← List.getElem?_drop]
  exact List.getElem?_eq_getElem hlt

/-- A type that is found by its name is there, and has the name. -/
theorem type?_of_lookupType {name : String} (h : u.lookupType name = some t) :
    ∃ r, u.type? t = some r ∧ r.name = name := by
  obtain ⟨k, rfl, hk, r, hr, hname⟩ := position?_eq_some h
  have hne : (k : Int) ≠ noType := by
    have : (k : Int) ≠ 0 := by omega
    exact this
  exact ⟨r, by rw [type?_of_ne hne, slot?_eq_some]; exact ⟨by omega, hr⟩, by simpa using hname⟩

/-! ## Growth -/

/-- **What stays as it is when a universe grows**: the nodes that are there, and
the types, except that the hierarchy of a type may turn out not to be
available. -/
structure Grows (u u' : Universe) : Prop where
  nodes : u.nodes.toList <+: u'.nodes.toList
  types : ∀ (t : Int) r, u.type? t = some r → ∃ b, u'.type? t = some { r with unresolved := b }

namespace Grows

theorem refl (u : Universe) : Grows u u := ⟨List.prefix_refl _, fun _ r h => ⟨r.unresolved, h⟩⟩

/-- A universe with the same nodes and types has grown, whatever else has changed. -/
theorem of_eq (hnodes : u'.nodes = u.nodes) (htypes : u'.types = u.types) : Grows u u' where
  nodes := hnodes ▸ List.prefix_refl _
  types t r hr := ⟨r.unresolved, by rwa [type?, htypes]⟩

theorem trans (h : Grows u u') (h' : Grows u' u'') : Grows u u'' where
  nodes := h.nodes.trans h'.nodes
  types t r hr := by
    obtain ⟨b, hb⟩ := h.types t r hr
    obtain ⟨b', hb'⟩ := h'.types t _ hb
    exact ⟨b', hb'⟩

/-- A type that is there stays. -/
theorem hasType (h : Grows u u') (ht : u.HasType t) : u'.HasType t := by
  obtain ⟨r, hr⟩ := Option.isSome_iff_exists.1 ht
  obtain ⟨b, hb⟩ := h.types t r hr
  exact hasType_of_eq hb

theorem knows (h : Grows u u') (ht : u.Knows t) : u'.Knows t := ht.imp_right h.hasType

/-- **A type that is known stays what it is**, but that it may get marked. -/
theorem typeD (h : Grows u u') (ht : u.Knows t) :
    ∃ b, u'.typeD t = { u.typeD t with unresolved := b } := by
  obtain rfl | ht := ht
  · exact ⟨false, by simp [Universe.typeD]⟩
  · obtain ⟨r, hr⟩ := Option.isSome_iff_exists.1 ht
    obtain ⟨b, hb⟩ := h.types t r hr
    exact ⟨b, by simp [Universe.typeD, hr, hb]⟩

/-- A node stays what it is. -/
theorem node? {r : Node} (h : Grows u u') (hr : u.node? n = some r) : u'.node? n = some r := by
  by_cases hn : n = noNode
  · rw [Universe.node?, if_pos hn] at hr
    cases hr
  · rw [node?_of_ne hn, slot?_eq_some] at hr ⊢
    rw [← Array.getElem?_toList] at hr ⊢
    obtain ⟨more, hmore⟩ := h.nodes
    refine ⟨hr.1, ?_⟩
    rw [← hmore]
    exact (List.getElem?_append_left (List.getElem?_eq_some_iff.1 hr.2).1).trans hr.2

/-- An allocation stays one. -/
theorem hasAlloc (h : Grows u u') (hn : u.HasAlloc n) : u'.HasAlloc n :=
  hn.imp fun _ hr => ⟨h.node? hr.1, hr.2⟩

theorem typeOf (h : Grows u u') (hn : u.HasAlloc n) : u'.typeOf n = u.typeOf n := by
  obtain ⟨r, hr, -⟩ := hn
  rw [Universe.typeOf, Universe.typeOf, hr, h.node? hr]

/-- Allocations keep their places in the order they were made. -/
theorem allocs (h : Grows u u') : u.allocs <+: u'.allocs := by
  obtain ⟨more, hmore⟩ := h.nodes
  rw [Universe.allocs, Universe.allocs, ← hmore]
  by_cases hempty : u.nodes.toList = []
  · simp [hempty]
  · have hone : 1 ≤ u.nodes.toList.length := List.length_pos_iff.2 hempty
    rw [List.drop_append_of_le_length hone, List.filter_append, List.map_append]
    exact List.prefix_append _ _

end Grows

/-! ## Invariants -/

/-- What holds of every universe: the nodes carry their own numbers, and a type
comes after its element type. -/
structure InOrder (u : Universe) : Prop where
  numbered : ∀ (i : Nat) r, u.nodes[i]? = some r → r.id = (i : Int)
  elements : ∀ (t : Int) r, u.type? t = some r → (0 : Int) ≤ r.elem ∧ (r.elem : Int) < t

/-- The type of every allocation is known. -/
def AllocsTyped (u : Universe) : Prop := ∀ n, u.HasAlloc n → u.Knows (u.typeOf n)

/-- The elements of an array type are of a type that is there. -/
theorem InOrder.knows_elem (h : u.InOrder) {r : TypeRecord} (hr : u.type? t = some r) :
    u.Knows r.elem := by
  obtain ⟨h0, hlt⟩ := h.elements t r hr
  have ht := hasType_iff.1 (hasType_of_eq hr)
  by_cases he : r.elem = noType
  · exact .inl he
  · exact .inr (hasType_iff.2
      ⟨Int.lt_iff_le_and_ne.2 ⟨h0, Ne.symm he⟩, Int.lt_trans hlt ht.2⟩)

/-- Nodes carry their numbers. -/
theorem InOrder.id_eq (h : u.InOrder) {r : Node} (hr : u.node? n = some r) : r.id = n := by
  have hne : n ≠ noNode := by
    rintro rfl
    cases hr
  rw [node?_of_ne hne, slot?_eq_some] at hr
  exact (h.numbered _ r hr.2).trans (Int.toNat_of_nonneg hr.1)

/-- The allocations are listed by their numbers. -/
theorem InOrder.mem_allocs (h : u.InOrder) : n ∈ u.allocs ↔ u.HasAlloc n := by
  simp only [allocs, List.mem_map, List.mem_filter, HasAlloc]
  constructor
  · rintro ⟨r, ⟨hr, halloc⟩, rfl⟩
    obtain ⟨i, hi⟩ := List.getElem?_of_mem hr
    rw [List.getElem?_drop, Array.getElem?_toList] at hi
    have hid := h.numbered _ r hi
    have hne : r.id ≠ noNode := by
      rw [hid]
      exact Int.natCast_ne_zero.2 (by omega)
    refine ⟨r, ?_, halloc⟩
    rw [node?_of_ne hne, slot?_eq_some, hid]
    exact ⟨by omega, hi⟩
  · rintro ⟨r, hr, halloc⟩
    by_cases hn : n = noNode
    · rw [node?, if_pos hn] at hr
      cases hr
    rw [node?_of_ne hn, slot?_eq_some] at hr
    have hid := h.numbered _ r hr.2
    have hne : n ≠ 0 := hn
    obtain ⟨h0, hget⟩ := hr
    have hpos : 1 + (n.toNat - 1) = n.toNat := by omega
    refine ⟨r, ⟨List.mem_of_getElem? (i := n.toNat - 1) ?_, halloc⟩, ?_⟩
    · rw [List.getElem?_drop, Array.getElem?_toList, hpos, hget]
    · rw [hid]
      omega

/-- **The empty universe is in order.** -/
theorem inOrder_empty : empty.InOrder where
  numbered i r hr := by
    match i, hr with
    | 0, hr => cases hr; rfl
    | i + 1, hr => simp [empty] at hr
  elements t r hr := by
    have ht := hasType_iff.1 (hasType_of_eq hr)
    have hone : t = 1 := by simp only [empty, List.size_toArray, List.length_cons] at ht; grind
    subst hone
    cases hr
    decide

theorem allocsTyped_empty : empty.AllocsTyped := by
  rintro n ⟨r, hr, halloc⟩
  have hn : n ∈ empty.allocs := inOrder_empty.mem_allocs.2 ⟨r, hr, halloc⟩
  cases hn

/-! ## Changes of the tables -/

section Tables

/-- A type at the end gets the next number, and the others keep theirs. -/
theorem type?_push (r : TypeRecord) : ({ u with types := u.types.push r } : Universe).type? t =
    if t = u.types.size ∧ t ≠ noType then some r else u.type? t := by
  by_cases ht : t = noType
  · simp [ht]
  · rw [type?_of_ne ht, type?_of_ne ht, slot?_push]
    simp [ht]

/-- A new type leaves the others as they are. -/
theorem grows_pushType (r : TypeRecord) : Grows u { u with types := u.types.push r } where
  nodes := List.prefix_refl _
  types t r' hr' := by
    have hne : t ≠ u.types.size := by
      have := (hasType_iff.1 (hasType_of_eq hr')).2
      omega
    exact ⟨r'.unresolved, by rw [type?_push, if_neg fun h => hne h.1, hr']⟩

/-- A new node leaves the others as they are. -/
theorem grows_pushNode (r : Node) : Grows u (u.pushNode r).2 where
  nodes := by simp [pushNode]
  types _ r' hr' := ⟨r'.unresolved, hr'⟩

/-- A mark is the only thing that a type may get later on. -/
theorem grows_markUnresolved (t : TypeId) : Grows u (u.markUnresolved t) := by
  unfold markUnresolved
  split
  · next hpos =>
    refine ⟨List.prefix_refl _, fun t' r hr => ?_⟩
    have hne : t' ≠ noType := by
      rintro rfl
      simp at hr
    rw [type?_of_ne hne] at hr
    rw [type?_of_ne hne, slot?_modify (Int.le_of_lt hpos), hr]
    split
    · exact ⟨true, rfl⟩
    · exact ⟨r.unresolved, rfl⟩
  · exact Grows.refl u

/-- Methods and fields are no matter of the order. -/
theorem InOrder.of_eq (h : u.InOrder) (hnodes : u'.nodes = u.nodes) (htypes : u'.types = u.types) :
    u'.InOrder where
  numbered := hnodes ▸ h.numbered
  elements t r hr := by
    have hsame : u'.type? t = u.type? t := by rw [type?, type?, htypes]
    exact h.elements t r (hsame ▸ hr)

/-- A node at the end gets its number. -/
theorem InOrder.pushNode (h : u.InOrder) (r : Node) : (u.pushNode r).2.InOrder where
  numbered i r' hr' := by
    simp only [Universe.pushNode, nextNode, Array.getElem?_push] at hr'
    split at hr'
    · next hi =>
      cases hr'
      simp [hi]
    · exact h.numbered i r' hr'
  elements := h.elements

/-- **A type may come at the end** if its elements come before it. -/
theorem InOrder.pushType (h : u.InOrder) {r : TypeRecord} (h0 : (0 : Int) ≤ r.elem)
    (hlt : 0 < u.types.size → (r.elem : Int) < u.types.size) :
    InOrder { u with types := u.types.push r } where
  numbered := h.numbered
  elements t r' hr' := by
    rw [type?_push] at hr'
    split at hr'
    · next heq =>
      cases hr'
      obtain ⟨hsize, hne⟩ := heq
      have : t ≠ 0 := hne
      exact ⟨h0, hsize ▸ hlt (by omega)⟩
    · exact h.elements t r' hr'

/-- A mark leaves the elements as they are. -/
theorem InOrder.markUnresolved (h : u.InOrder) (t : TypeId) : (u.markUnresolved t).InOrder := by
  unfold Universe.markUnresolved
  split
  · next hpos =>
    refine ⟨h.numbered, fun t' r hr => ?_⟩
    have hne : t' ≠ noType := by
      rintro rfl
      simp at hr
    rw [type?_of_ne hne, slot?_modify (Int.le_of_lt hpos)] at hr
    split at hr
    · obtain ⟨r', hr', rfl⟩ := Option.map_eq_some_iff.1 hr
      exact h.elements t' r' (by rw [type?_of_ne hne, hr'])
    · exact h.elements t' r (by rw [type?_of_ne hne, hr])
  · exact h

/-- **What is found after a node was made**: the node under the next number, and what
was there before elsewhere. -/
theorem node?_pushNode (r : Node) : (u.pushNode r).2.node? n =
    if n = u.nextNode ∧ n ≠ noNode then some { r with id := u.nextNode } else u.node? n := by
  by_cases hn : n = noNode
  · simp [hn, node?]
  · rw [node?_of_ne hn, node?_of_ne hn, pushNode, slot?_push]
    simp [hn, nextNode]

theorem node?_pushNode_of_ne (r : Node) (hn : n ≠ u.nextNode) :
    (u.pushNode r).2.node? n = u.node? n := by
  rw [node?_pushNode, if_neg fun hnew => hn hnew.1]

/-- A new node with a known type, or one that is no allocation, leaves the
allocations typed. -/
theorem AllocsTyped.pushNode (h : u.AllocsTyped) {r : Node} (hr : r.isAlloc → u.Knows r.type) :
    (u.pushNode r).2.AllocsTyped := by
  rintro n ⟨r', hr', halloc⟩
  have hnode := hr'
  rw [node?_pushNode] at hr'
  rw [typeOf, hnode]
  split at hr'
  · cases hr'
    exact (grows_pushNode r).knows (hr halloc)
  · have htyped := h n ⟨r', hr', halloc⟩
    rw [typeOf, hr'] at htyped
    exact (grows_pushNode r).knows htyped

/-- Growth that makes no node leaves the allocations typed. -/
theorem AllocsTyped.grows (h : u.AllocsTyped) (hg : Grows u u') (hnodes : u'.nodes = u.nodes) :
    u'.AllocsTyped := by
  have hnode : ∀ n, u'.node? n = u.node? n := fun n => by rw [node?, node?, hnodes]
  rintro n ⟨r, hr, halloc⟩
  rw [typeOf, hnode]
  exact hg.knows (h n ⟨r, hnode n ▸ hr, halloc⟩)

/-- A type is found by its name, or made. -/
theorem internType_cases (u : Universe) (r : TypeRecord) :
    (∃ id, u.lookupType r.name = some id ∧ u.internType r = (id, u)) ∨
      u.lookupType r.name = none ∧ u.internType r =
        ((u.types.size : Int), { u with types := u.types.push { r with id := u.types.size } }) := by
  unfold internType
  match u.lookupType r.name with
  | some id => exact .inl ⟨id, rfl, rfl⟩
  | none => exact .inr ⟨rfl, rfl⟩

end Tables

/-! ## Additions -/

/-- **The ways a universe changes.** Nodes and types are left alone, a type is made
after its element type, a node is made, or a type is marked. -/
inductive Change (u : Universe) : Universe → Prop
  | keep {u' : Universe} (hnodes : u'.nodes = u.nodes) (htypes : u'.types = u.types) : Change u u'
  | addType (r : TypeRecord) (h0 : (0 : Int) ≤ r.elem)
      (hlt : 0 < u.types.size → (r.elem : Int) < u.types.size) :
      Change u { u with types := u.types.push r }
  | addNode (r : Node) (hr : u.AllocsTyped → r.isAlloc → u.Knows r.type) :
      Change u (u.pushNode r).2
  | mark (t : TypeId) : Change u (u.markUnresolved t)

namespace Change

/-- **Nothing is lost by a change.** -/
theorem grows (h : Change u u') : Grows u u' := by
  cases h with
  | keep hnodes htypes => exact .of_eq hnodes htypes
  | addType r => exact grows_pushType r
  | addNode r => exact grows_pushNode r
  | mark t => exact grows_markUnresolved t

/-- A change keeps the order. -/
theorem inOrder (h : Change u u') (hu : u.InOrder) : u'.InOrder := by
  cases h with
  | keep hnodes htypes => exact hu.of_eq hnodes htypes
  | addType r h0 hlt => exact hu.pushType h0 hlt
  | addNode r => exact hu.pushNode r
  | mark t => exact hu.markUnresolved t

/-- It keeps what is known of the types of allocations. -/
theorem allocsTyped (h : Change u u') (hu : u.AllocsTyped) : u'.AllocsTyped := by
  have hgrows := h.grows
  cases h with
  | keep hnodes => exact hu.grows hgrows hnodes
  | addType r => exact hu.grows hgrows rfl
  | addNode r hr => exact hu.pushNode (hr hu)
  | mark t =>
    refine hu.grows hgrows ?_
    rw [markUnresolved]
    split <;> rfl

/-- Looking up a type or adding it is a change. -/
theorem internType (r : TypeRecord) (h0 : (0 : Int) ≤ r.elem)
    (hlt : 0 < u.types.size → (r.elem : Int) < u.types.size) : Change u (u.internType r).2 := by
  obtain ⟨id, -, heq⟩ | ⟨-, heq⟩ := u.internType_cases r
  · rw [heq]
    exact .keep rfl rfl
  · rw [heq]
    exact .addType _ h0 hlt

end Change

/-- What can be added to a universe. -/
inductive Addition where
  | method (name : String)
  | field (name : String)
  | type (name : String) (kind : TypeKind)
  | arrayType (elem : TypeId)
  | anySubtype (base : TypeId)
  | unresolved (t : TypeId)
  | var (name : String) (type : TypeId) (method : MethodId)
  | alloc (name : String) (type : TypeId) (method : MethodId)
  | classConstant (name : String) (type : TypeId)
  | objectSensitive (base : NodeId) (chain : List NodeId)
  | allocField (base : NodeId) (field : FieldId)
  deriving Repr

namespace Addition

/-- The universe after an addition; one that stops with a fault changes
nothing. -/
def orSame {α : Type} (u : Universe) : Except Fault (α × Universe) → Universe
  | .ok (_, u') => u'
  | .error _ => u

/-- Makes the addition. -/
def apply (u : Universe) : Addition → Universe
  | method name => (u.addMethod name).2
  | field name => (u.addField name).2
  | type name kind => (u.addType name kind).2
  | arrayType elem => orSame u (u.addArrayType elem)
  | anySubtype base => orSame u (u.addAnySubtype base)
  | unresolved t => u.markUnresolved t
  | var name t m => (u.addVariable name t m).2
  | alloc name t m => (u.addAlloc name t m).2
  | classConstant name t => (u.addClassConstant name t).2
  | objectSensitive base chain => orSame u (u.addObjectSensitive base chain)
  | allocField base f => orSame u (u.addAllocField base f)

/-- A new allocation has a known type. -/
def Typed (u : Universe) : Addition → Prop
  | alloc _ t _ | classConstant _ t => u.Knows t
  | _ => True

/-- **What an addition does.** -/
theorem change (a : Addition) (ha : a.Typed u) : Change u (a.apply u) := by
  cases a with
  | method name =>
    rw [apply, addMethod]
    split <;> exact .keep rfl rfl
  | field name =>
    rw [apply, addField]
    split <;> exact .keep rfl rfl
  | type name kind => exact .internType _ (Int.le_refl 0) Int.natCast_pos.2
  | arrayType elem =>
    rw [apply, addArrayType]
    match he : slot? u.types elem with
    | none => exact .keep rfl rfl
    | some e =>
      obtain ⟨h0, hlt⟩ := slot?_bounds he
      exact .internType _ h0 fun _ => hlt
  | anySubtype base =>
    rw [apply, addAnySubtype]
    match slot? u.types base with
    | none => exact .keep rfl rfl
    | some b => exact .internType _ (Int.le_refl 0) Int.natCast_pos.2
  | unresolved t => exact .mark t
  | var name t m => exact .addNode _ fun _ h => absurd h Bool.false_ne_true
  | alloc name t m => exact .addNode _ fun _ _ => ha
  | classConstant name t =>
    rw [apply, addClassConstant]
    split
    · exact .keep rfl rfl
    · exact .addNode _ fun _ _ => ha
  | objectSensitive base chain =>
    rw [apply, addObjectSensitive]
    match hb : u.node? base with
    | none => exact .keep rfl rfl
    | some b =>
      by_cases halloc : b.isAlloc
      · simp only [halloc, if_true]
        refine .addNode _ fun htyped _ => ?_
        -- the new allocation has the type of its base
        have hknows := htyped base ⟨b, hb, halloc⟩
        rwa [typeOf, hb] at hknows
      · simp only [halloc]
        exact .keep rfl rfl
  | allocField base f =>
    rw [apply, addAllocField]
    split
    · exact .keep rfl rfl
    · split
      · exact .addNode _ fun _ h => absurd h Bool.false_ne_true
      · exact .keep rfl rfl

/-- Makes the additions one after the other. -/
def applyAll (u : Universe) (as : List Addition) : Universe := as.foldl apply u

/-- Each addition is typed when its turn comes. -/
def AllTyped (u : Universe) : List Addition → Prop
  | [] => True
  | a :: as => a.Typed u ∧ AllTyped (a.apply u) as

instance (u : Universe) (t : TypeId) : Decidable (u.HasType t) :=
  inferInstanceAs (Decidable ((u.type? t).isSome = true))

instance (u : Universe) (t : TypeId) : Decidable (u.Knows t) :=
  inferInstanceAs (Decidable (t = noType ∨ u.HasType t))

instance (u : Universe) (a : Addition) : Decidable (a.Typed u) :=
  match a with
  | alloc _ t _ | classConstant _ t => inferInstanceAs (Decidable (u.Knows t))
  | method .. | field .. | type .. | arrayType .. | anySubtype .. | unresolved .. | var ..
  | objectSensitive .. | allocField .. => .isTrue trivial

instance decidableAllTyped : (u : Universe) → (as : List Addition) → Decidable (AllTyped u as)
  | _, [] => .isTrue trivial
  | u, a :: as =>
    haveI := decidableAllTyped (a.apply u) as
    inferInstanceAs (Decidable (a.Typed u ∧ AllTyped (a.apply u) as))

end Addition

/-- Also a node without a known type leaves a universe in order. -/
theorem InOrder.apply (hu : u.InOrder) (a : Addition) : (a.apply u).InOrder := by
  cases a with
  | alloc name t m => exact hu.pushNode _
  | classConstant name t =>
    rw [Addition.apply, addClassConstant]
    split
    · exact hu
    · exact hu.pushNode _
  | method | field | type | arrayType | anySubtype | unresolved | var | objectSensitive
  | allocField => exact (Addition.change (u := u) _ (by exact trivial)).inOrder hu

/-- **What additions build from nothing is in order.** -/
theorem inOrder_applyAll (as : List Addition) : (Addition.applyAll .empty as).InOrder :=
  foldl_run (fun _ (u : Universe) => u.InOrder) inOrder_empty fun _ a _ _ h => h.apply a

end Universe

end PointsTo
