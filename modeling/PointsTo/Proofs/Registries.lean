import PointsTo.Proofs.Accesses
import PointsTo.Proofs.Attempts
import PointsTo.Proofs.HeapTables
/-!
# Registries

A universe finds what it has by going through its tables. A registry has the
same tables, and beside them what a table is looked up by: an index for
each kind of name and for the nodes of fields, and the list of the
allocations. An addition writes the table first and the index after it, and
the record of an allocation is written twice.

`Inverse` says that an index leads back from each key to the one entry that has it.
All indexes are of this kind (`Indexed`), so that a look-up in the index finds
what going through the table finds, and a registry does what its universe
does (`call_does`). `after_coherent` collects what holds of a
registry after any calls, those that stop with a fault among them.
-/

namespace PointsTo

/-! ## Indexes -/

section Inverse

variable {α κ : Type} [BEq κ] [LawfulBEq κ] {start : Nat} {key : α → Option κ} {xs ys : Array α}
  {index : Assoc κ Int}

/-- **The index is the inverse of the table**, from a position on: it leads from a
key to the entry that has the key, and to no other. -/
def Inverse (start : Nat) (key : α → Option κ) (xs : Array α) (index : Assoc κ Int) : Prop :=
  ∀ (k : κ) (n : Int), index.get? k = some n ↔
    ∃ i : Nat, n = i ∧ start ≤ i ∧ (xs[i]?).bind key = some k

/-- Enters a key, if there is one. -/
def enter (index : Assoc κ Int) (key : Option κ) (n : Int) : Assoc κ Int :=
  match key with
  | some k => index.set k n
  | none => index

namespace Inverse

omit [LawfulBEq κ] in
/-- A table with no more than its blanks has an empty index. -/
theorem nil (hsize : xs.size ≤ start) : Inverse start key xs [] := by
  intro k n
  constructor
  · intro hn
    cases hn
  · rintro ⟨i, -, hi, hkey⟩
    rw [Array.getElem?_eq_none (Nat.le_trans hsize hi)] at hkey
    cases hkey

omit [LawfulBEq κ] in
/-- A key leads to the number of its entry, and nowhere else. -/
theorem get?_eq_some (h : Inverse start key xs index) {k : κ} {n : Int} :
    index.get? k = some n ↔ start ≤ n ∧ ∃ a, slot? xs n = some a ∧ key a = some k := by
  rw [h k n]
  constructor
  · rintro ⟨i, rfl, hi, hkey⟩
    obtain ⟨a, ha, hka⟩ := Option.bind_eq_some_iff.1 hkey
    exact ⟨by omega, a, slot?_eq_some.2 ⟨by omega, ha⟩, hka⟩
  · rintro ⟨hn, a, ha, hka⟩
    obtain ⟨h0, hget⟩ := slot?_eq_some.1 ha
    exact ⟨n.toNat, by omega, by omega, by rw [hget]; exact hka⟩

omit [LawfulBEq κ] in
/-- The index stays right if the entries keep their keys. -/
theorem congr (h : Inverse start key xs index)
    (hkeys : ∀ i : Nat, (ys[i]?).bind key = (xs[i]?).bind key) : Inverse start key ys index := by
  intro k n
  simp only [h k n, hkeys]

/-- **A new entry is entered under its key**, which has to be new. -/
theorem push (h : Inverse start key xs index) (hstart : start ≤ xs.size) {a : α}
    (hnew : ∀ k, key a = some k → index.get? k = none) :
    Inverse start key (xs.push a) (enter index (key a) xs.size) := by
  intro k n
  have hpush : (∃ i : Nat, n = i ∧ start ≤ i ∧ ((xs.push a)[i]?).bind key = some k) ↔
      (n = xs.size ∧ key a = some k) ∨ index.get? k = some n := by
    rw [h k n]
    constructor
    · rintro ⟨i, rfl, hi, hkey⟩
      rw [Array.getElem?_push] at hkey
      split at hkey
      · next hlast => exact .inl ⟨by rw [hlast], hkey⟩
      · exact .inr ⟨i, rfl, hi, hkey⟩
    · rintro (⟨rfl, hkey⟩ | ⟨i, rfl, hi, hkey⟩)
      · exact ⟨xs.size, rfl, hstart, by rw [Array.getElem?_push_size]; exact hkey⟩
      · refine ⟨i, rfl, hi, ?_⟩
        obtain ⟨b, hb, -⟩ := Option.bind_eq_some_iff.1 hkey
        have hlt := (Array.getElem?_eq_some_iff.1 hb).1
        rwa [Array.getElem?_push_lt hlt, ← Array.getElem?_eq_getElem hlt]
  rw [hpush]
  cases hkey : key a with
  | none => simp [enter]
  | some k' =>
    by_cases hk : k = k'
    · subst hk
      simp [enter, hnew k hkey, eq_comm]
    · have hne : ¬ k' = k := fun h => hk h.symm
      simp [enter, Assoc.get?_set_ne _ _ hk, hne]

omit [LawfulBEq κ] in
/-- **The index finds what going through the table finds.** -/
theorem position?_eq (h : Inverse start key xs index) {p : α → Bool} {k : κ}
    (hp : ∀ a, p a ↔ key a = some k) : Universe.position? xs start p = index.get? k := by
  cases hfound : Universe.position? xs start p with
  | some n =>
    obtain ⟨i, rfl, hi, a, ha, hpa⟩ := Universe.position?_eq_some hfound
    exact ((h k i).2 ⟨i, rfl, hi, by rw [ha]; exact (hp a).1 hpa⟩).symm
  | none =>
    symm
    rw [Option.eq_none_iff_forall_ne_some]
    intro n hn
    obtain ⟨i, rfl, hi, hkey⟩ := (h k n).1 hn
    obtain ⟨a, ha, hka⟩ := Option.bind_eq_some_iff.1 hkey
    have hmem : a ∈ xs.toList.drop start := by
      refine List.mem_of_getElem? (i := i - start) ?_
      rw [List.getElem?_drop, Array.getElem?_toList, Nat.add_sub_cancel' hi, ha]
    have hnot := List.findIdx?_eq_none_iff.1 (Option.map_eq_none_iff.1 hfound) a hmem
    rw [(hp a).2 hka] at hnot
    cases hnot

end Inverse

end Inverse

/-! ## Additions to a universe -/

namespace Universe

variable {u u' u'' : Universe}

/-- A new node is listed last if it is an allocation. -/
theorem allocs_pushNode (hpos : 0 < u.nodes.size) (r : Node) : (u.pushNode r).2.allocs =
    u.allocs ++ if r.isAlloc then [u.nextNode] else [] := by
  have hone : 1 ≤ u.nodes.toList.length := hpos
  rw [allocs, allocs, pushNode, Array.toList_push, List.drop_append_of_le_length hone,
    List.filter_append, List.map_append]
  by_cases halloc : r.isAlloc
  · rw [if_pos halloc, List.filter_cons_of_pos (by exact halloc)]
    rfl
  · rw [if_neg halloc, List.filter_cons_of_neg (by exact halloc)]
    rfl

/-- Allocations are listed in increasing order. -/
theorem InOrder.pairwise_allocs (h : u.InOrder) : u.allocs.Pairwise (· < ·) := by
  have hids : u.nodes.toList.map (·.id) = (List.range u.nodes.size).map Int.ofNat := by
    refine List.ext_getElem? fun i => ?_
    rw [List.getElem?_map, List.getElem?_map, Array.getElem?_toList]
    by_cases hi : i < u.nodes.size
    · have hget : u.nodes[i]? = some u.nodes[i] := Array.getElem?_eq_getElem hi
      rw [hget, List.getElem?_range hi, Option.map_some, Option.map_some, h.numbered i _ hget]
      rfl
    · rw [Array.getElem?_eq_none (Nat.le_of_not_lt hi), List.getElem?_eq_none (by simpa using hi)]
      rfl
  have hsub : u.allocs.Sublist (u.nodes.toList.map (·.id)) :=
    ((List.filter_sublist).trans (List.drop_sublist _ _)).map _
  refine List.Pairwise.sublist hsub ?_
  rw [hids, List.pairwise_map]
  exact List.pairwise_lt_range.imp fun hlt => Int.ofNat_lt.2 hlt

/-- What an index of the nodes finds. -/
theorem get?_node {κ : Type} [BEq κ] {key : Node → Option κ} {index : Assoc κ Int}
    (h : Inverse 1 key u.nodes index) {k : κ} {n : Int} :
    index.get? k = some n ↔ ∃ r, u.node? n = some r ∧ key r = some k := by
  rw [h.get?_eq_some]
  constructor
  · rintro ⟨hpos, r, hr, hkey⟩
    exact ⟨r, node?_eq_some.2 ⟨hpos, hr⟩, hkey⟩
  · rintro ⟨r, hr, hkey⟩
    obtain ⟨hpos, hslot⟩ := node?_eq_some.1 hr
    exact ⟨hpos, r, hslot, hkey⟩

/-- **Every record stays as it is**, except that a type may be marked. -/
structure Preserves (u u' : Universe) : Prop where
  methods : ∀ (i : Nat) name, u.methods[i]? = some name → u'.methods[i]? = some name
  fields : ∀ (i : Nat) name, u.fields[i]? = some name → u'.fields[i]? = some name
  nodes : ∀ (i : Nat) r, u.nodes[i]? = some r → u'.nodes[i]? = some r
  types : ∀ (i : Nat) r, u.types[i]? = some r → ∃ b, u'.types[i]? = some { r with unresolved := b }

theorem Preserves.refl (u : Universe) : Preserves u u :=
  ⟨fun _ _ h => h, fun _ _ h => h, fun _ _ h => h, fun _ r h => ⟨r.unresolved, h⟩⟩

theorem Preserves.trans (h : Preserves u u') (h' : Preserves u' u'') : Preserves u u'' where
  methods i name hi := h'.methods i name (h.methods i name hi)
  fields i name hi := h'.fields i name (h.fields i name hi)
  nodes i r hi := h'.nodes i r (h.nodes i r hi)
  types i r hi := by
    obtain ⟨b, hb⟩ := h.types i r hi
    obtain ⟨b', hb'⟩ := h'.types i _ hb
    exact ⟨b', hb'⟩

/-- Marking a type that is not there changes nothing. -/
theorem markUnresolved_of_size_le {t : Int} (hsize : u.types.size ≤ t.toNat) :
    u.markUnresolved t = u := by
  have hsame : u.types.modify t.toNat ({ · with unresolved := true }) = u.types := by
    refine Array.ext_getElem? fun i => ?_
    rw [Array.getElem?_modify]
    split
    · next hi =>
      rw [← hi, Array.getElem?_eq_none hsize]
      rfl
    · rfl
  rw [markUnresolved, hsame, ite_self]

/-- An entry stays where it is when another one is added. -/
theorem getElem?_push_of_eq_some {α : Type} {xs : Array α} {i : Nat} {a b : α}
    (h : xs[i]? = some a) : (xs.push b)[i]? = some a := by
  have hlt := (Array.getElem?_eq_some_iff.1 h).1
  rw [Array.getElem?_push_lt hlt, ← Array.getElem?_eq_getElem hlt, h]

/-- **An addition preserves what is there.** -/
theorem Made.preserves (h : Made u u') : Preserves u u' := by
  cases h with
  | keep => exact .refl u
  | method name =>
    exact { Preserves.refl u with methods := fun _ _ h => getElem?_push_of_eq_some h }
  | field name =>
    exact { Preserves.refl u with fields := fun _ _ h => getElem?_push_of_eq_some h }
  | type r =>
    exact { Preserves.refl u with
      types := fun _ r' h => ⟨r'.unresolved, getElem?_push_of_eq_some h⟩ }
  | node r => exact { Preserves.refl u with nodes := fun _ _ h => getElem?_push_of_eq_some h }
  | mark t =>
    unfold markUnresolved
    split
    · refine { Preserves.refl u with types := fun i r hr => ?_ }
      rw [Array.getElem?_modify, hr]
      split
      · exact ⟨true, rfl⟩
      · exact ⟨r.unresolved, rfl⟩
    · exact .refl u

namespace Addition

/-- **Additions preserve what there is**, any number of them. -/
theorem preserves_applyAll (as : List Addition) : Preserves u (applyAll u as) :=
  foldl_run (fun _ u' => Preserves u u') (.refl u) fun _ a _ _ h => h.trans a.made.preserves

/-- What an addition gives, with the universe after it. -/
def result (u : Universe) : Addition → Except Fault (Option Int × Universe)
  | method name => .ok ((u.addMethod name).map some id)
  | field name => .ok ((u.addField name).map some id)
  | type name kind => .ok ((u.addType name kind).map some id)
  | arrayType elem => (u.addArrayType elem).map (Prod.map some id)
  | anySubtype base => (u.addAnySubtype base).map (Prod.map some id)
  | unresolved t => .ok (none, u.markUnresolved t)
  | var name t m => .ok ((u.addVariable name t m).map some id)
  | alloc name t m => .ok ((u.addAlloc name t m).map some id)
  | classConstant name t => .ok ((u.addClassConstant name t).map some id)
  | objectSensitive base chain => (u.addObjectSensitive base chain).map (Prod.map some id)
  | allocField base f => (u.addAllocField base f).map (Prod.map some id)

/-- The universe after an addition is its result, or the same one if it stopped. -/
theorem orSame_result (a : Addition) : orSame u (a.result u) = a.apply u := by
  have hmap : ∀ x : Except Fault (Int × Universe),
      orSame u (x.map (Prod.map some id)) = orSame u x := by
    intro x
    cases x <;> rfl
  cases a with
  | arrayType | anySubtype | objectSensitive | allocField => exact hmap _
  | method | field | type | unresolved | var | alloc | classConstant => rfl

end Addition

end Universe

/-! ## The registry -/

namespace Node

/-- The name of the class constant that a node stands for. -/
def constantName? (n : Node) : Option String :=
  match n.role with
  | .alloc .classConstant _ _ => some n.name
  | _ => none

/-- The allocation and the field that a node stands for. -/
def fieldKey? (n : Node) : Option (NodeId × FieldId) :=
  match n.role with
  | .allocField base field => some (base, field)
  | _ => none

/-- The allocation with another site. -/
def withSite (n : Node) (site : NodeId) : Node :=
  match n.role with
  | .alloc kind _ context => { n with role := .alloc kind site context }
  | _ => n

end Node

/-- The tables of a universe, and what they are looked up by. -/
structure Registry where
  nodes : Array Node := #[{}]
  /-- The allocations, in the order they were made. -/
  allocs : List NodeId := []
  fieldNodes : Assoc (NodeId × FieldId) NodeId := []
  /-- The class constants, by their names. -/
  constants : Assoc String NodeId := []
  types : Array TypeRecord := #[{}]
  typeByName : Assoc String TypeId := []
  methods : Array String := #[rootMethodName]
  methodByName : Assoc String MethodId := [(rootMethodName, rootMethod)]
  fields : Array String := #[""]
  fieldByName : Assoc String FieldId := []

namespace Registry

open Universe (Addition)

/-- The tables without what they are looked up by. -/
def tables (s : Registry) : Universe where
  types := s.types
  methods := s.methods
  fields := s.fields
  nodes := s.nodes

/-! ## Calls -/

/-- The method of that name, numbered if it is new. -/
def addMethod (name : String) : Attempt Registry MethodId := do
  match (← get).methodByName.get? name with
  | some m => pure m
  | none =>
    let m : MethodId := (← get).methods.size
    modify fun s => { s with methods := s.methods.push name }
    modify fun s => { s with methodByName := s.methodByName.set name m }
    pure m

/-- The field of that name, numbered if it is new. -/
def addField (name : String) : Attempt Registry FieldId := do
  match (← get).fieldByName.get? name with
  | some f => pure f
  | none =>
    let f : FieldId := (← get).fields.size
    modify fun s => { s with fields := s.fields.push name }
    modify fun s => { s with fieldByName := s.fieldByName.set name f }
    pure f

/-- The type of the record's name, numbered if it is new. -/
def internType (r : TypeRecord) : Attempt Registry TypeId := do
  match (← get).typeByName.get? r.name with
  | some t => pure t
  | none =>
    let t : TypeId := (← get).types.size
    modify fun s => { s with types := s.types.push { r with id := t } }
    modify fun s => { s with typeByName := s.typeByName.set r.name t }
    pure t

/-- The array type of that element type. -/
def addArrayType (elem : TypeId) : Attempt Registry TypeId := do
  let e ← liftM (entryAt (← get).types elem)
  internType { name := Universe.arrayName e.name, kind := .array, elem }

/-- The type standing for any subtype of the bound. -/
def addAnySubtype (base : TypeId) : Attempt Registry TypeId := do
  let b ← liftM (entryAt (← get).types base)
  internType { name := Universe.anySubtypeName b.name, kind := .anySubtype, base }

/-- Notes that the hierarchy of the type is not available. -/
def markUnresolved (t : TypeId) : Attempt Registry Unit :=
  modify fun s =>
    if 0 < t ∧ t < s.types.size then
      { s with types := s.types.modify t.toNat ({ · with unresolved := true }) }
    else s

/-- Appends a node, numbering it, and lists it if it is an allocation. -/
def addNode (n : Node) : Attempt Registry NodeId := do
  let id : NodeId := (← get).nodes.size
  modify fun s => { s with nodes := s.nodes.push { n with id } }
  if n.isAlloc then
    modify fun s => { s with allocs := s.allocs ++ [id] }
  pure id

/-- Appends an allocation that is its own site: the site is written once the
number is known. -/
def addSite (kind : AllocKind) (n : Node) : Attempt Registry NodeId := do
  let id ← addNode { n with role := .alloc kind noNode [] }
  modify fun s => { s with nodes := s.nodes.modify id.toNat (·.withSite id) }
  pure id

/-- The allocation standing for the class constant of that name, made on
its first use. -/
def addClassConstant (name : String) (type : TypeId) : Attempt Registry NodeId := do
  match (← get).constants.get? name with
  | some n => pure n
  | none =>
    let n ← addSite .classConstant { name, type, method := noMethod }
    modify fun s => { s with constants := s.constants.set name n }
    pure n

/-- A new allocation qualifying the site of `base` by a chain. -/
def addObjectSensitive (base : NodeId) (chain : List NodeId) : Attempt Registry NodeId := do
  match (← get).tables.node? base with
  | some b =>
    if b.isAlloc then addNode { b with role := .alloc .objectSensitive b.site chain }
    else throw (.chainOnNonAllocation base)
  | none => throw (.chainOnNonAllocation base)

/-- The node of a field of an allocation, made on its first use. -/
def addAllocField (base : NodeId) (f : FieldId) : Attempt Registry NodeId := do
  match (← get).fieldNodes.get? (base, f) with
  | some n => pure n
  | none =>
    let b ← liftM (entryAt (← get).nodes base)
    let field ← liftM (entryAt (← get).fields f)
    let n ← addNode
      { name := b.name ++ "." ++ field, method := noMethod, role := .allocField base f }
    modify fun s => { s with fieldNodes := s.fieldNodes.set (base, f) n }
    pure n

/-- Makes an addition. What it gives is a number, unless it only marks a type. -/
def call : Addition → Attempt Registry (Option Int)
  | .method name => some <$> addMethod name
  | .field name => some <$> addField name
  | .type name kind => some <$> internType { name, kind }
  | .arrayType elem => some <$> addArrayType elem
  | .anySubtype base => some <$> addAnySubtype base
  | .unresolved t => (fun _ => none) <$> markUnresolved t
  | .var name type method => some <$> addNode { name, type, method }
  | .alloc name type method => some <$> addSite .insensitive { name, type, method }
  | .classConstant name type => some <$> addClassConstant name type
  | .objectSensitive base chain => some <$> addObjectSensitive base chain
  | .allocField base f => some <$> addAllocField base f

/-- The registry that has only the root method and the null type. -/
def new : Registry := ((internType { name := nullTypeName, kind := .null }).go {}).2

/-- The registry after calls, whether or not they stop with a fault. -/
def after (calls : List Addition) : Registry := calls.foldl (fun s a => ((call a).go s).2) new

/-! ## Registries are indexed -/

/-- **The indexes of a registry are those of its tables.** A type has its position as its
number. -/
structure Indexed (s : Registry) : Prop where
  nodes_pos : 0 < s.nodes.size
  types_pos : 0 < s.types.size
  fields_pos : 0 < s.fields.size
  typeIds : ∀ (i : Nat) r, s.types[i]? = some r → r.id = (i : Int)
  methodByName : Inverse 0 some s.methods s.methodByName
  fieldByName : Inverse 1 some s.fields s.fieldByName
  typeByName : Inverse 1 (fun r : TypeRecord => some r.name) s.types s.typeByName
  constants : Inverse 1 Node.constantName? s.nodes s.constants
  fieldNodes : Inverse 1 Node.fieldKey? s.nodes s.fieldNodes
  allocs : s.allocs = s.tables.allocs

/-- The registry with one more node, entered where nodes of its role are. -/
def withNode (s : Registry) (n : Node) : Registry :=
  { s with
    nodes := s.nodes.push { n with id := (s.nodes.size : Int) }
    allocs := if n.isAlloc then s.allocs ++ [(s.nodes.size : Int)] else s.allocs
    constants := enter s.constants n.constantName? s.nodes.size
    fieldNodes := enter s.fieldNodes n.fieldKey? s.nodes.size }

/-- The constants are the allocations that stand for a class. -/
theorem constantName?_eq_some {n : Node} {name : String} : n.constantName? = some name ↔
    n.isAlloc ∧ n.allocKind = .classConstant ∧ n.name = name := by
  obtain ⟨id, name', type, method, role⟩ := n
  cases role with
  | alloc kind site context =>
    cases kind <;> simp [Node.constantName?, Node.isAlloc, Node.allocKind]
  | var | allocField => simp [Node.constantName?, Node.isAlloc]

/-- A constant is found by its name. -/
theorem isConstant_iff {n : Node} {name : String} :
    Universe.isConstant name n ↔ n.constantName? = some name := by
  rw [constantName?_eq_some, Universe.isConstant]
  simp only [Bool.and_eq_true, beq_iff_eq]
  tauto

/-- Field nodes are found by their allocation and their field. -/
theorem fieldKey?_eq_some {n : Node} {base : NodeId} {f : FieldId} :
    n.fieldKey? = some (base, f) ↔ n.role = .allocField base f := by
  obtain ⟨id, name, type, method, role⟩ := n
  cases role <;> simp [Node.fieldKey?]

namespace Indexed

variable {s : Registry}

section LookUps

variable (h : s.Indexed)

include h

/-- **The index answers what a search of the table would.** -/
theorem lookupMethod (name : String) :
    s.tables.lookupMethod name = s.methodByName.get? name :=
  h.methodByName.position?_eq (by simp)

theorem lookupField (name : String) : s.tables.lookupField name = s.fieldByName.get? name :=
  h.fieldByName.position?_eq (by simp)

theorem lookupType (name : String) : s.tables.lookupType name = s.typeByName.get? name :=
  h.typeByName.position?_eq (by simp)

theorem lookupConstant (name : String) :
    Universe.position? s.tables.nodes 1 (Universe.isConstant name) = s.constants.get? name :=
  h.constants.position?_eq fun _ => isConstant_iff

theorem findAllocField (base : NodeId) (f : FieldId) :
    s.tables.findAllocField base f = s.fieldNodes.get? (base, f) :=
  h.fieldNodes.position?_eq fun n => by rw [fieldKey?_eq_some, beq_iff_eq]

end LookUps

/-- **A method with a new name** is indexed at the end. -/
theorem withMethod (h : s.Indexed) {name : String} (hnew : s.methodByName.get? name = none) :
    Indexed { s with
      methods := s.methods.push name
      methodByName := s.methodByName.set name s.methods.size } :=
  { h with
    methodByName := h.methodByName.push (Nat.zero_le _) (by rintro k ⟨⟩; exact hnew)
    allocs := h.allocs }

theorem withField (h : s.Indexed) {name : String} (hnew : s.fieldByName.get? name = none) :
    Indexed { s with
      fields := s.fields.push name
      fieldByName := s.fieldByName.set name s.fields.size } :=
  { h with
    fields_pos := by simp
    fieldByName := h.fieldByName.push h.fields_pos (by rintro k ⟨⟩; exact hnew)
    allocs := h.allocs }

theorem withType (h : s.Indexed) {r : TypeRecord} (hnew : s.typeByName.get? r.name = none) :
    Indexed { s with
      types := s.types.push { r with id := (s.types.size : Int) }
      typeByName := s.typeByName.set r.name s.types.size } :=
  { h with
    types_pos := by simp
    typeIds := fun i r' hr' => by
      rw [Array.getElem?_push] at hr'
      split at hr'
      · next hi =>
        cases hr'
        rw [hi]
      · exact h.typeIds i r' hr'
    typeByName := h.typeByName.push (a := { r with id := (s.types.size : Int) }) h.types_pos
      (by rintro k ⟨⟩; exact hnew)
    allocs := h.allocs }

/-- A mark does not change the name of a type. -/
theorem withMark (h : s.Indexed) (t : Int) :
    Indexed { s with types := s.types.modify t.toNat ({ · with unresolved := true }) } := by
  refine { h with types_pos := ?_, typeIds := ?_, typeByName := ?_, allocs := h.allocs }
  · rw [Array.size_modify]
    exact h.types_pos
  · intro i r hr
    rw [Array.getElem?_modify] at hr
    split at hr
    · obtain ⟨r', hr', rfl⟩ := Option.map_eq_some_iff.1 hr
      exact h.typeIds i r' hr'
    · exact h.typeIds i r hr
  · refine h.typeByName.congr fun i => ?_
    rw [Array.getElem?_modify]
    split
    · rw [Option.bind_map]
      rfl
    · rfl

/-- **A new node leaves a registry indexed**, if its keys are new. -/
theorem withNode (h : s.Indexed) {n : Node}
    (hconstant : ∀ name, n.constantName? = some name → s.constants.get? name = none)
    (hfield : ∀ k, n.fieldKey? = some k → s.fieldNodes.get? k = none) :
    (s.withNode n).Indexed :=
  { h with
    nodes_pos := by simp [Registry.withNode]
    constants := h.constants.push (a := { n with id := (s.nodes.size : Int) }) h.nodes_pos hconstant
    fieldNodes := h.fieldNodes.push (a := { n with id := (s.nodes.size : Int) }) h.nodes_pos hfield
    allocs := by
      have hallocs := Universe.allocs_pushNode (u := s.tables) h.nodes_pos n
      have htables : (s.withNode n).tables = (s.tables.pushNode n).2 := rfl
      rw [htables, hallocs, ← h.allocs]
      simp only [Registry.withNode]
      split
      · rfl
      · rw [List.append_nil] }

end Indexed

/-! ## Registries do what universes do -/

section Does

variable {s : Registry} {α : Type}

/-- **The call does what is done to the universe**: it gives the same, leaves the same tables
and indexes them, and where the one stops with a fault so does the other, and the
registry is as it was. -/
def Does (s : Registry) (x : Attempt Registry α) (r : Except Fault (α × Universe)) : Prop :=
  match r with
  | .ok (a, u) => ∃ s', x.go s = (.ok a, s') ∧ s'.tables = u ∧ s'.Indexed
  | .error f => x.go s = (.error f, s)

/-- What is made of the outcome does not matter. -/
theorem Does.map {β : Type} {x : Attempt Registry α} {r : Except Fault (α × Universe)}
    (h : Does s x r) (f : α → β) : Does s (f <$> x) (r.map (Prod.map f id)) := by
  cases r with
  | error e =>
    change x.go s = (.error e, s) at h
    change (f <$> x).go s = (.error e, s)
    rw [map_eq_pure_bind, Attempt.go_bind, h]
  | ok end₁ =>
    obtain ⟨s', hgo, htables, hs'⟩ := h
    exact ⟨s', by rw [map_eq_pure_bind, Attempt.go_bind, hgo]; rfl, htables, hs'⟩

/-- Only what a call does here counts. -/
theorem Does.congr {x y : Attempt Registry α} {r : Except Fault (α × Universe)}
    (hgo : x.go s = y.go s) (h : Does s y r) : Does s x r := by
  unfold Does at h ⊢
  rwa [hgo]

theorem Does.get_bind {f : Registry → Attempt Registry α} {r : Except Fault (α × Universe)}
    (h : Does s (f s) r) : Does s (get >>= f) r :=
  h.congr (by rw [Attempt.go_bind, Attempt.go_get])

section Entry

variable {β : Type} {xs : Array β} {i : Int} {f : β → Attempt Registry α}

theorem Does.entryAt_bind {r : Except Fault (α × Universe)} {b : β} (hslot : slot? xs i = some b)
    (h : Does s (f b) r) : Does s (liftM (entryAt xs i) >>= f) r :=
  h.congr (by rw [Attempt.go_bind, Attempt.go_liftM, entryAt_eq hslot])

/-- Reading an entry that is not there is where the call stops. -/
theorem does_entryAt_bind_of_none (hslot : slot? xs i = none) :
    Does s (liftM (entryAt xs i) >>= f) (.error .outOfRange) := by
  change (liftM (entryAt xs i) >>= f).go s = (.error .outOfRange, s)
  rw [Attempt.go_bind, Attempt.go_liftM, entryAt, hslot]

end Entry

/-- **Methods are added as to a universe**, and looked up by the index. -/
theorem addMethod_does (h : s.Indexed) (name : String) :
    Does s (addMethod name) (.ok (s.tables.addMethod name)) := by
  rw [Universe.addMethod, h.lookupMethod]
  cases hget : s.methodByName.get? name with
  | some m => exact ⟨s, by simp [addMethod, Attempt.go_bind, hget], rfl, h⟩
  | none => exact ⟨_, by simp [addMethod, Attempt.go_bind, hget]; rfl, rfl, h.withMethod hget⟩

theorem addField_does (h : s.Indexed) (name : String) :
    Does s (addField name) (.ok (s.tables.addField name)) := by
  rw [Universe.addField, h.lookupField]
  cases hget : s.fieldByName.get? name with
  | some f => exact ⟨s, by simp [addField, Attempt.go_bind, hget], rfl, h⟩
  | none => exact ⟨_, by simp [addField, Attempt.go_bind, hget]; rfl, rfl, h.withField hget⟩

/-- Types are told apart by their names, on both sides. -/
theorem internType_does (h : s.Indexed) (r : TypeRecord) :
    Does s (internType r) (.ok (s.tables.internType r)) := by
  rw [Universe.internType, h.lookupType]
  cases hget : s.typeByName.get? r.name with
  | some t => exact ⟨s, by simp [internType, Attempt.go_bind, hget], rfl, h⟩
  | none => exact ⟨_, by simp [internType, Attempt.go_bind, hget]; rfl, rfl, h.withType hget⟩

/-- It is a fault that there is no such element, and the same one. -/
theorem addArrayType_does (h : s.Indexed) (elem : TypeId) :
    Does s (addArrayType elem) (s.tables.addArrayType elem) := by
  refine .get_bind ?_
  rw [Universe.addArrayType, tables]
  dsimp only
  cases he : slot? s.types elem with
  | none => exact does_entryAt_bind_of_none he
  | some e => exact .entryAt_bind he (internType_does h _)

theorem addAnySubtype_does (h : s.Indexed) (base : TypeId) :
    Does s (addAnySubtype base) (s.tables.addAnySubtype base) := by
  refine .get_bind ?_
  rw [Universe.addAnySubtype, tables]
  dsimp only
  cases hb : slot? s.types base with
  | none => exact does_entryAt_bind_of_none hb
  | some b => exact .entryAt_bind hb (internType_does h _)

/-- Marks are put on types that are there. -/
theorem markUnresolved_does (h : s.Indexed) (t : Int) :
    Does s (markUnresolved t) (.ok ((), s.tables.markUnresolved t)) := by
  refine ⟨_, rfl, ?_, ?_⟩
  all_goals beta_reduce
  · by_cases hin : 0 < t ∧ t < s.types.size
    · rw [if_pos hin, Universe.markUnresolved, if_pos hin.1]
      rfl
    · rw [if_neg hin]
      by_cases hpos : 0 < t
      · -- there is no such type
        have hsize : s.tables.types.size ≤ t.toNat := by
          have hle : (s.types.size : Int) ≤ t := by omega
          have hsame : s.tables.types.size = s.types.size := rfl
          omega
        exact (Universe.markUnresolved_of_size_le hsize).symm
      · rw [Universe.markUnresolved, if_neg hpos]
  · split
    · exact h.withMark t
    · exact h

/-- A node goes to the end of the table and gets its place as its number. -/
theorem go_addNode (n : Node) : (addNode n).go s = (.ok (s.nodes.size : Int),
    { s with
      nodes := s.nodes.push { n with id := (s.nodes.size : Int) }
      allocs := if n.isAlloc then s.allocs ++ [(s.nodes.size : Int)] else s.allocs }) := by
  by_cases halloc : n.isAlloc
  · simp only [addNode, Attempt.go_bind, Attempt.go_get, Attempt.go_modify, Attempt.go_pure,
      if_pos halloc]
  · simp only [addNode, Attempt.go_bind, Attempt.go_get, Attempt.go_modify, Attempt.go_pure,
      if_neg halloc]

/-- Nodes that are found by no key are made in one step. -/
theorem addNode_does (h : s.Indexed) (n : Node) (hconstant : n.constantName? = none)
    (hfield : n.fieldKey? = none) : Does s (addNode n) (.ok (s.tables.pushNode n)) := by
  refine ⟨s.withNode n, ?_, rfl, h.withNode (by simp [hconstant]) (by simp [hfield])⟩
  rw [go_addNode, withNode, hconstant, hfield]
  rfl

/-- A change at the end changes what was just put there. -/
theorem modify_push {β : Type} (xs : Array β) (a : β) (f : β → β) :
    (xs.push a).modify xs.size f = xs.push (f a) := by
  refine Array.ext_getElem? fun i => ?_
  rw [Array.getElem?_modify, Array.getElem?_push, Array.getElem?_push]
  by_cases hi : xs.size = i
  · rw [if_pos hi, if_pos hi.symm, if_pos hi.symm, Option.map_some]
  · rw [if_neg hi, if_neg (Ne.symm hi), if_neg (Ne.symm hi)]

/-- **An allocation that is written twice** is its own site in the end. -/
theorem go_addSite (kind : AllocKind) (n : Node) :
    (addSite kind n).go s = (.ok (s.nodes.size : Int),
      { s with
        nodes := s.nodes.push
          { n with id := (s.nodes.size : Int), role := .alloc kind (s.nodes.size : Int) [] }
        allocs := s.allocs ++ [(s.nodes.size : Int)] }) := by
  rw [addSite, Attempt.go_bind, go_addNode]
  simp only [Attempt.go_bind, Attempt.go_modify, Attempt.go_pure, Int.toNat_natCast, modify_push]
  rfl

/-- **An allocation becomes its own site** after it has been put into the table, where a
universe makes it so at once. -/
theorem addAlloc_does (h : s.Indexed) (name : String) (type : TypeId) (method : MethodId) :
    Does s (addSite .insensitive { name, type, method })
      (.ok (s.tables.addAlloc name type method)) := by
  refine ⟨_, go_addSite _ _, rfl, ?_⟩
  exact h.withNode (n := { name, type, method, role := .alloc .insensitive s.tables.nextNode [] })
    (by rintro k ⟨⟩) (by rintro k ⟨⟩)

/-- A class constant is made once. -/
theorem addClassConstant_does (h : s.Indexed) (name : String) (type : TypeId) :
    Does s (addClassConstant name type) (.ok (s.tables.addClassConstant name type)) := by
  rw [Universe.addClassConstant, h.lookupConstant]
  cases hget : s.constants.get? name with
  | some n => exact ⟨s, by simp [addClassConstant, Attempt.go_bind, hget], rfl, h⟩
  | none =>
    refine ⟨s.withNode
      { name, type, method := noMethod, role := .alloc .classConstant s.tables.nextNode [] },
      ?_, rfl, h.withNode (by rintro k ⟨⟩; exact hget) (by rintro k ⟨⟩)⟩
    simp only [addClassConstant, Attempt.go_bind, Attempt.go_get, hget, go_addSite,
      Attempt.go_modify, Attempt.go_pure]
    rfl

/-- A chain on a node that is no allocation is a fault on both sides. -/
theorem addObjectSensitive_does (h : s.Indexed) (base : NodeId) (chain : List NodeId) :
    Does s (addObjectSensitive base chain) (s.tables.addObjectSensitive base chain) := by
  refine .get_bind ?_
  rw [Universe.addObjectSensitive]
  cases s.tables.node? base with
  | none => exact Attempt.go_throw _ _
  | some b =>
    by_cases halloc : b.isAlloc
    · simp only [halloc, if_true]
      exact addNode_does h _ rfl rfl
    · simp only [halloc]
      exact Attempt.go_throw _ _

/-- Names of the allocation and of the field are read first, and may be missing. -/
theorem addAllocField_does (h : s.Indexed) (base : NodeId) (f : FieldId) :
    Does s (addAllocField base f) (s.tables.addAllocField base f) := by
  refine .get_bind ?_
  rw [Universe.addAllocField, h.findAllocField]
  cases hget : s.fieldNodes.get? (base, f) with
  | some n => exact ⟨s, rfl, rfl, h⟩
  | none =>
    dsimp only [tables]
    refine .get_bind ?_
    cases hb : slot? s.nodes base with
    | none => exact does_entryAt_bind_of_none hb
    | some b =>
      refine .entryAt_bind hb (.get_bind ?_)
      cases hf : slot? s.fields f with
      | none => exact does_entryAt_bind_of_none hf
      | some field =>
        refine .entryAt_bind hf ⟨s.withNode
          { name := b.name ++ "." ++ field, method := noMethod, role := .allocField base f },
          ?_, rfl, h.withNode (by rintro k ⟨⟩) (by rintro k ⟨⟩; exact hget)⟩
        simp only [Attempt.go_bind, go_addNode, Attempt.go_modify, Attempt.go_pure]
        rfl

end Does

/-! ## Runs -/

/-- **Every call does what the addition does.** -/
theorem call_does {s : Registry} (h : s.Indexed) (a : Addition) :
    Does s (call a) (a.result s.tables) := by
  cases a with
  | method name => exact (addMethod_does h name).map some
  | field name => exact (addField_does h name).map some
  | type name kind => exact (internType_does h _).map some
  | arrayType elem => exact (addArrayType_does h elem).map some
  | anySubtype base => exact (addAnySubtype_does h base).map some
  | unresolved t => exact (markUnresolved_does h t).map fun _ => none
  | var name t m => exact (addNode_does h { name, type := t, method := m } rfl rfl).map some
  | alloc name t m => exact (addAlloc_does h name t m).map some
  | classConstant name t => exact (addClassConstant_does h name t).map some
  | objectSensitive base chain => exact (addObjectSensitive_does h base chain).map some
  | allocField base f => exact (addAllocField_does h base f).map some

/-- A call leaves a registry indexed, also if it stops with a fault. -/
theorem Indexed.call {s : Registry} (h : s.Indexed) (a : Addition) :
    ((call a).go s).2.Indexed ∧ ((call a).go s).2.tables = a.apply s.tables := by
  have hdoes := call_does h a
  rw [← Addition.orSame_result]
  cases hresult : a.result s.tables with
  | error f =>
    rw [hresult] at hdoes
    have hgo : (Registry.call a).go s = (.error f, s) := hdoes
    rw [hgo]
    exact ⟨h, rfl⟩
  | ok end₁ =>
    rw [hresult] at hdoes
    obtain ⟨s', hgo, htables, hs'⟩ := hdoes
    rw [hgo]
    exact ⟨hs', htables⟩

/-- **A new registry is an empty universe.** -/
theorem indexed_new : new.Indexed ∧ new.tables = .empty := by
  have hblank : Indexed {} := by
    have hempty : Inverse 0 some (#[] : Array String) [] := .nil (Nat.le_refl 0)
    have hroot : Inverse 0 some #[rootMethodName] [(rootMethodName, rootMethod)] :=
      hempty.push (Nat.le_refl 0) fun _ _ => rfl
    refine ⟨by decide, by decide, by decide, ?_, hroot, .nil (by decide), .nil (by decide),
      .nil (by decide), .nil (by decide), rfl⟩
    intro i r hr
    cases i with
    | zero => cases hr; rfl
    | succ i => simp at hr
  obtain ⟨s', hgo, htables, hs'⟩ := internType_does hblank { name := nullTypeName, kind := .null }
  have hnew : new = s' := by rw [new, hgo]
  rw [hnew]
  exact ⟨hs', htables⟩

/-- **After any calls a registry is indexed**, and its tables are those of the universe that the
additions make. -/
theorem indexed_after (calls : List Addition) :
    (after calls).Indexed ∧ (after calls).tables = Addition.applyAll .empty calls :=
  foldl_run₂ (fun _ (s : Registry) (u : Universe) => s.Indexed ∧ s.tables = u) indexed_new
    (by rintro done a s _ ⟨hs, rfl⟩; exact hs.call a) calls

/-- **What the clients of a registry rely on.** -/
structure Coherent (s : Registry) : Prop where
  /-- Nodes and types have their positions as their numbers. -/
  nodeIds : ∀ (i : Nat) r, s.nodes[i]? = some r → r.id = (i : Int)
  typeIds : ∀ (i : Nat) r, s.types[i]? = some r → r.id = (i : Int)
  /-- Each index of names is the inverse of its table. -/
  methodByName : ∀ name m, s.methodByName.get? name = some m ↔ slot? s.methods m = some name
  fieldByName : ∀ name f, s.fieldByName.get? name = some f ↔ 0 < f ∧ slot? s.fields f = some name
  typeByName : ∀ name t, s.typeByName.get? name = some t ↔
    ∃ r, s.tables.type? t = some r ∧ r.name = name
  constants : ∀ name n, s.constants.get? name = some n ↔
    ∃ r, s.tables.node? n = some r ∧ r.isAlloc ∧ r.allocKind = .classConstant ∧ r.name = name
  /-- The node found for a field of an allocation is the only one there is. -/
  fieldNodes : ∀ base f n, s.fieldNodes.get? (base, f) = some n ↔
    (∃ r, s.tables.node? n = some r ∧ r.role = .allocField base f) ∧
      ∀ n' r', s.tables.node? n' = some r' → r'.role = .allocField base f → n' = n
  allocs_increasing : s.allocs.Pairwise (· < ·)
  mem_allocs : ∀ n, n ∈ s.allocs ↔ ∃ r, s.tables.node? n = some r ∧ r.isAlloc
  /-- An allocation has a site: an allocation that is its own, with the same name, type and
  method. -/
  sites : ∀ n r, s.tables.node? n = some r → r.isAlloc → ∃ b, s.tables.node? r.site = some b ∧
    b.isAlloc ∧ b.site = r.site ∧ b.name = r.name ∧ b.type = r.type ∧ b.method = r.method

/-- **Indexed tables are what clients rely on**, if the tables are in order and sites are
allocations. -/
theorem Indexed.coherent {s : Registry} (h : s.Indexed) (hordered : s.tables.InOrder)
    (hsited : s.tables.Sited) : s.Coherent where
  nodeIds := hordered.numbered
  typeIds := h.typeIds
  methodByName name m := by
    rw [h.methodByName.get?_eq_some]
    constructor
    · rintro ⟨-, a, ha, ⟨⟩⟩
      exact ha
    · exact fun hm => ⟨(slot?_eq_some.1 hm).1, name, hm, rfl⟩
  fieldByName name f := by
    rw [h.fieldByName.get?_eq_some]
    constructor
    · rintro ⟨hpos, a, ha, ⟨⟩⟩
      exact ⟨hpos, ha⟩
    · exact fun hf => ⟨hf.1, name, hf.2, rfl⟩
  typeByName name t := by
    rw [h.typeByName.get?_eq_some]
    constructor
    · rintro ⟨hpos, r, hr, hname⟩
      exact ⟨r, Universe.type?_eq_some.2 ⟨hpos, hr⟩, Option.some.inj hname⟩
    · rintro ⟨r, hr, rfl⟩
      obtain ⟨hpos, hslot⟩ := Universe.type?_eq_some.1 hr
      exact ⟨hpos, r, hslot, rfl⟩
  constants name n := by
    rw [Universe.get?_node (u := s.tables) h.constants]
    simp only [constantName?_eq_some]
  fieldNodes base f n := by
    have hfind : ∀ n : Int, s.fieldNodes.get? (base, f) = some n ↔
        ∃ r, s.tables.node? n = some r ∧ r.role = .allocField base f := by
      intro n
      rw [Universe.get?_node (u := s.tables) h.fieldNodes]
      simp only [fieldKey?_eq_some]
    rw [hfind]
    refine ⟨fun hn => ⟨hn, fun n' r' hr' hrole => ?_⟩, And.left⟩
    have hn' := (hfind n').2 ⟨r', hr', hrole⟩
    exact Option.some.inj (hn'.symm.trans ((hfind n).2 hn))
  allocs_increasing := by
    rw [h.allocs]
    exact hordered.pairwise_allocs
  mem_allocs n := by
    rw [h.allocs]
    exact hordered.mem_allocs
  sites n r hr halloc := by
    obtain ⟨b, hb, hballoc, hkind, hsame⟩ := hsited.sites n r hr halloc
    exact ⟨b, hb, hballoc, (hsited.plain _ b hb hballoc hkind).1, hsame⟩

/-- **The registry answers what the universe answers.** -/
structure Mirrors (s : Registry) (u : Universe) : Prop where
  tables : s.tables = u
  lookupMethod : ∀ name, s.methodByName.get? name = u.lookupMethod name
  lookupField : ∀ name, s.fieldByName.get? name = u.lookupField name
  lookupType : ∀ name, s.typeByName.get? name = u.lookupType name
  findAllocField : ∀ base f, s.fieldNodes.get? (base, f) = u.findAllocField base f
  allocs : s.allocs = u.allocs

/-- **What holds of a registry after any calls**, those among them that stop with a fault. It is
coherent and answers what the universe with the same additions answers; what is there
stays as it is, except that a type may be marked; and the next call does what the next addition
does, or stops with the same fault and changes nothing. -/
theorem after_coherent (calls : List Addition) :
    (after calls).Coherent ∧ (after calls).Mirrors (Addition.applyAll .empty calls) ∧
      (∀ more, (after calls).tables.Preserves (after (calls ++ more)).tables) ∧
      ∀ a, Does (after calls) (call a) (a.result (Addition.applyAll .empty calls)) := by
  obtain ⟨h, htables⟩ := indexed_after calls
  refine ⟨h.coherent ?_ ?_, ?_, fun more => ?_, fun a => ?_⟩
  · rw [htables]
    exact Universe.inOrder_applyAll calls
  · rw [htables]
    exact Universe.sited_applyAll calls
  · rw [← htables]
    exact ⟨rfl, fun name => (h.lookupMethod name).symm, fun name => (h.lookupField name).symm,
      fun name => (h.lookupType name).symm, fun base f => (h.findAllocField base f).symm, h.allocs⟩
  · rw [htables, (indexed_after (calls ++ more)).2, Addition.applyAll, Addition.applyAll,
      List.foldl_append]
    exact Addition.preserves_applyAll more
  · rw [← htables]
    exact call_does h a

/-- Two of the calls stop with a fault. The others are as if these had not been made. -/
example :
    let s := after [.alloc "a" nullType rootMethod, .objectSensitive 2 [], .allocField 1 1,
      .field "f", .allocField 1 1, .allocField 1 1]
    s.allocs = [1] ∧ s.nodes.size = 3 ∧ s.fieldNodes.get? (1, 1) = some 2 := by
  decide +kernel

end Registry

end PointsTo
