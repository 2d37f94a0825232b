import PointsTo.Program.Build
import PointsTo.Proofs.HeapTables
import PointsTo.Proofs.Steps
import PointsTo.Proofs.Universes
/-!
# Programs that have been declared and built

Whatever a description says, and whether its program can be built or not,
the universe of the program is in order, and nothing is decided about its
casts before the first query (`Prepared.orderly`). Declarations and builds
are steps, and each of them keeps this. Declaring types and classes also
keeps what is known of all but the types and the hierarchy (`TypeFree`), and
declaring variables and allocations what is known of the methods and calls
(`Framed`).
-/

namespace PointsTo

namespace Universe

variable {u u' : Universe} {t n : Int}

/-- **What holds of the universe of a program**: it has grown from the empty one,
in order, and the types of its nodes are known. -/
structure Sane (u : Universe) : Prop where
  inOrder : u.InOrder
  started : empty.Grows u
  blank : u.types[0]? = some ({ } : TypeRecord)
  typed : ∀ n : Int, u.Knows (u.typeOf n)

/-- **The empty universe is sane**: it has no node whose type could be unknown. -/
theorem sane_empty : empty.Sane where
  inOrder := inOrder_empty
  started := .refl _
  blank := rfl
  typed n := by
    rw [typeOf]
    cases hn : empty.node? n with
    | none => exact .inl rfl
    | some r =>
      have hbounds := node?_bounds hn
      have hsize : empty.nodes.size = 1 := rfl
      exfalso
      omega

namespace Sane

/-- A change that makes no node. -/
theorem change (h : u.Sane) (hc : Change u u') (hnodes : u'.nodes = u.nodes)
    (hblank : u'.types[0]? = u.types[0]?) : u'.Sane where
  inOrder := hc.inOrder h.inOrder
  started := h.started.trans hc.grows
  blank := hblank.trans h.blank
  typed n := by
    have hsame : u'.typeOf n = u.typeOf n := by rw [typeOf, typeOf, node?, node?, hnodes]
    exact hsame ▸ hc.grows.knows (h.typed n)

/-- Methods and fields may be added. -/
theorem of_eq (h : u.Sane) (hnodes : u'.nodes = u.nodes) (htypes : u'.types = u.types) : u'.Sane :=
  h.change (.keep hnodes htypes) hnodes (by rw [htypes])

theorem size_pos (h : u.Sane) : 0 < u.types.size :=
  (Array.getElem?_eq_some_iff.1 h.blank).1

/-- Looking up a type or adding it, with elements of a type that is there. -/
theorem internType (h : u.Sane) (r : TypeRecord) (h0 : (0 : Int) ≤ r.elem)
    (hlt : (r.elem : Int) < u.types.size) : (u.internType r).2.Sane := by
  have hc : Change u (u.internType r).2 := .internType r h0 fun _ => hlt
  obtain ⟨id, -, heq⟩ | ⟨-, heq⟩ := u.internType_cases r <;> rw [heq] at hc ⊢
  · exact h
  · have hne : ¬ 0 = u.types.size := Nat.ne_of_lt h.size_pos
    exact h.change hc rfl (Array.getElem?_push.trans (if_neg hne))

/-- **A node of a known type may be made.** -/
theorem pushNode (h : u.Sane) {r : Node} (hr : u.Knows r.type) : (u.pushNode r).2.Sane where
  inOrder := h.inOrder.pushNode r
  started := h.started.trans (grows_pushNode r)
  blank := h.blank
  typed n := by
    rw [typeOf, node?_pushNode]
    by_cases hn : n = u.nextNode ∧ n ≠ noNode
    · rw [if_pos hn]
      exact (grows_pushNode r).knows hr
    · rw [if_neg hn]
      exact (grows_pushNode r).knows (h.typed n)

/-- A mark is put on types only, and not on the blank one. -/
theorem markUnresolved (h : u.Sane) (t : TypeId) : (u.markUnresolved t).Sane := by
  have hc : Change u (u.markUnresolved t) := .mark t
  refine h.change hc ?_ ?_
  · rw [Universe.markUnresolved]
    split <;> rfl
  · rw [Universe.markUnresolved]
    split
    · next hpos =>
      have hne : t.toNat ≠ 0 := by
        have : (0 : Int) < t := hpos
        omega
      simp [Array.getElem?_modify, hne]
    · rfl

end Sane

/-- A type is there once it has been made. -/
theorem knows_internType (u : Universe) (r : TypeRecord) (hpos : 0 < u.types.size) :
    (u.internType r).2.Knows (u.internType r).1 := by
  obtain ⟨id, hid, heq⟩ | ⟨-, heq⟩ := u.internType_cases r <;> rw [heq]
  · obtain ⟨r', hr', -⟩ := type?_of_lookupType hid
    exact .inr (hasType_of_eq hr')
  · refine .inr (hasType_iff.2 ⟨Int.natCast_pos.2 hpos, ?_⟩)
    simp only [Array.size_push]
    omega

/-- **What naming an array type does.** -/
theorem addArrayType_eq_ok {elem : TypeId} {out : TypeId × Universe}
    (h : u.addArrayType elem = .ok out) : ∃ e, slot? u.types elem = some e ∧
      out = u.internType { name := arrayName e.name, kind := .array, elem } := by
  rw [addArrayType] at h
  cases he : slot? u.types elem with
  | none => simp [he] at h
  | some e =>
    rw [he] at h
    exact ⟨e, rfl, (Except.ok.inj h).symm⟩

/-- Naming the type of any subtype of a type that is there. -/
theorem addAnySubtype_eq_ok {base : TypeId} {out : TypeId × Universe}
    (h : u.addAnySubtype base = .ok out) : ∃ b, slot? u.types base = some b ∧
      out = u.internType { name := anySubtypeName b.name, kind := .anySubtype, base } := by
  rw [addAnySubtype] at h
  cases hb : slot? u.types base with
  | none => simp [hb] at h
  | some b =>
    rw [hb] at h
    exact ⟨b, rfl, (Except.ok.inj h).symm⟩

end Universe

/-! ## Heap contexts -/

/-- Without a table the allocation is the base itself. -/
theorem heapContext_none {u u' : Universe} {base receiver n : NodeId} {table : Option HeapTable}
    (h : heapContext none u base receiver = .ok (n, table, u')) :
    n = base ∧ table = none ∧ u' = u := by
  obtain ⟨hn, htable, hu⟩ := by simpa [heapContext] using h
  exact ⟨hn.symm, htable.symm, hu.symm⟩

/-- A receiver that is no node stands for a method without one. -/
theorem heapContext_some (t : HeapTable) (u : Universe) (base receiver : NodeId) :
    heapContext (some t) u base receiver =
      (HeapTable.run (HeapTable.Call.step ⟨base, if receiver = noNode then none else some receiver⟩)
        t u).map fun out => (out.1, some out.2.1, out.2.2) := by
  by_cases hno : receiver = noNode
  · simp only [heapContext, if_pos hno]
    rfl
  · simp only [heapContext, if_neg hno]
    rfl

/-! ## Programs -/

namespace Program

open Steps

/-- **What holds of a program before its queries are run.** -/
structure Orderly (p : Program) : Prop where
  nodes : p.nodes.Sane
  root : p.nodes.Knows p.hierarchy.root
  casting : p.casting = .empty

variable {p : Program} {u : Universe} {E P : Program → Prop}

/-- A description that can be used is gone through to its end. -/
theorem ofDescription_eq_ok {file : String} {d : Description} (h : ofDescription file d = .ok p) :
    declare.go { name := file, description := d } = (.ok (), p) := by
  unfold ofDescription at h
  split at h <;> cases h
  assumption

namespace Orderly

/-- **The universe may grow.** The hierarchy and what is decided about casts do not
change with it. -/
theorem withNodes (h : p.Orderly) (hu : u.Sane) (hg : p.nodes.Grows u) :
    Orderly { p with nodes := u } :=
  ⟨hu, hg.knows h.root, h.casting⟩

/-- The type is known then, whether it is new or not. -/
theorem internType (h : p.Orderly) (r : TypeRecord) (h0 : (0 : Int) ≤ r.elem)
    (hlt : (r.elem : Int) < p.nodes.types.size) :
    Orderly { p with nodes := (p.nodes.internType r).2 } ∧
      (p.nodes.internType r).2.Knows (p.nodes.internType r).1 :=
  ⟨h.withNodes (h.nodes.internType r h0 hlt) (Universe.Change.internType r h0 fun _ => hlt).grows,
    p.nodes.knows_internType r h.nodes.size_pos⟩

theorem pushNode (h : p.Orderly) {r : Node} (hr : p.nodes.Knows r.type) :
    Orderly { p with nodes := (p.nodes.pushNode r).2 } :=
  h.withNodes (h.nodes.pushNode hr) (Universe.grows_pushNode r)

theorem addMethod (h : p.Orderly) (name : String) :
    Orderly { p with nodes := (p.nodes.addMethod name).2 } := by
  rw [Universe.addMethod]
  split
  · exact h
  · exact h.withNodes (h.nodes.of_eq rfl rfl) (.of_eq rfl rfl)

theorem addField (h : p.Orderly) (name : String) :
    Orderly { p with nodes := (p.nodes.addField name).2 } := by
  rw [Universe.addField]
  split
  · exact h
  · exact h.withNodes (h.nodes.of_eq rfl rfl) (.of_eq rfl rfl)

/-- A qualified allocation has the type of its base. -/
theorem addObjectSensitive (h : p.Orderly) {base n : NodeId} {chain : List NodeId}
    (hu : p.nodes.addObjectSensitive base chain = .ok (n, u)) : Orderly { p with nodes := u } := by
  rw [Universe.addObjectSensitive] at hu
  have htyped := h.nodes.typed base
  rw [Universe.typeOf] at htyped
  cases hb : p.nodes.node? base with
  | none => simp [hb] at hu
  | some b =>
    simp only [hb] at hu htyped
    split at hu
    · cases hu
      exact h.pushNode htyped
    · cases hu

/-- A field node has no type. -/
theorem addAllocField (h : p.Orderly) {base n : NodeId} {f : FieldId}
    (hu : p.nodes.addAllocField base f = .ok (n, u)) : Orderly { p with nodes := u } := by
  rw [Universe.addAllocField] at hu
  split at hu
  · cases hu
    exact h
  · split at hu
    · cases hu
      exact h.pushNode (.inl rfl)
    · cases hu

end Orderly

/-- The property makes a program orderly, and declaring types and classes is no matter
of it. -/
structure TypeFree (P : Program → Prop) : Prop where
  orderly : ∀ p, P p → p.Orderly
  frame : ∀ p p', P p → p'.Orderly → p'.description = p.description →
    p'.nodes.methods = p.nodes.methods → p'.calls = p.calls → p'.names = p.names →
    p'.nodes.nodes = p.nodes.nodes → P p'

/-- The property makes a program orderly, and speaks of nothing else but its description,
its methods and its calls. -/
structure Framed (P : Program → Prop) : Prop where
  orderly : ∀ p, P p → p.Orderly
  frame : ∀ p p', P p → p'.Orderly → p'.description = p.description →
    p'.nodes.methods = p.nodes.methods → p'.calls = p.calls → P p'

theorem framed_orderly : Framed Orderly := ⟨fun _ hp => hp, fun _ _ _ hp' _ _ _ => hp'⟩

/-- What does not depend on the nodes and names does not depend on the types either. -/
theorem Framed.typeFree (hP : Framed P) : TypeFree P where
  orderly := hP.orderly
  frame p p' hp ho hdescription hmethods hcalls _ _ :=
    hP.frame p p' hp ho hdescription hmethods hcalls

namespace TypeFree

variable (hP : TypeFree P)

include hP

/-- The hierarchy is extended below its root. -/
theorem withHierarchy (hp : P p) (h : ClassHierarchy) (hroot : h.root = p.hierarchy.root) :
    P { p with hierarchy := h } := by
  have ho := hP.orderly p hp
  exact hP.frame p _ hp ⟨ho.nodes, hroot ▸ ho.root, ho.casting⟩ rfl rfl rfl rfl rfl

/-- Naming a type keeps such a property, and the type is known then. -/
theorem internType (hp : P p) (r : TypeRecord) (h0 : (0 : Int) ≤ r.elem)
    (hlt : (r.elem : Int) < p.nodes.types.size) :
    P { p with nodes := (p.nodes.internType r).2 } ∧
      (p.nodes.internType r).2.Knows (p.nodes.internType r).1 := by
  obtain ⟨ho, hknows⟩ := (hP.orderly p hp).internType r h0 hlt
  have hc : (p.nodes.internType r).2.methods = p.nodes.methods ∧
      (p.nodes.internType r).2.nodes = p.nodes.nodes := by
    rw [Universe.internType]
    split <;> exact ⟨rfl, rfl⟩
  exact ⟨hP.frame p _ hp ho rfl hc.1 rfl rfl hc.2, hknows⟩

/-- The types of a description have no elements. -/
theorem addType (hp : P p) (name : String) (kind : TypeKind) :
    P { p with nodes := (p.nodes.addType name kind).2 } :=
  (hP.internType hp _ (Int.le_refl 0) (Int.natCast_pos.2 (hP.orderly p hp).nodes.size_pos)).1

theorem markUnresolved (hp : P p) (t : TypeId) :
    P { p with nodes := p.nodes.markUnresolved t } := by
  have ho := hP.orderly p hp
  have hc : (p.nodes.markUnresolved t).methods = p.nodes.methods ∧
      (p.nodes.markUnresolved t).nodes = p.nodes.nodes := by
    rw [Universe.markUnresolved]
    split <;> exact ⟨rfl, rfl⟩
  exact hP.frame p _ hp (ho.withNodes (ho.nodes.markUnresolved t)
    (Universe.grows_markUnresolved t)) rfl hc.1 rfl rfl hc.2

end TypeFree

namespace Framed

variable (hP : Framed P)

include hP

theorem pushNode (hp : P p) {r : Node} (hr : p.nodes.Knows r.type) :
    P { p with nodes := (p.nodes.pushNode r).2 } :=
  hP.frame p _ hp ((hP.orderly p hp).pushNode hr) rfl rfl rfl

/-- A class constant is made once, and looked up after that. -/
theorem addClassConstant (hp : P p) (name : String) {t : TypeId} (ht : p.nodes.Knows t) :
    P { p with nodes := (p.nodes.addClassConstant name t).2 } := by
  rw [Universe.addClassConstant]
  split
  · exact hp
  · exact hP.pushNode hp ht

end Framed

/-! ## Steps that only read -/

/-- **An optional value is there, or the step fails** where it is. -/
theorem meets_orFail {α : Type} {e : ProgramError} {o : Option α} (hP : ∀ p, P p → E p) :
    Meets E P (orFail e o) fun a p => o = some a ∧ P p := by
  cases o with
  | none => exact meets_throw hP
  | some a => exact meets_pure fun _ hp => ⟨rfl, hp⟩

theorem keeps_orFail {α : Type} (e : ProgramError) (o : Option α) : Keeps P (orFail e o) :=
  (meets_orFail fun _ hp => hp).mono (fun _ hp => hp) fun _ _ h => h.2

theorem keeps_method (name : String) : Keeps P (method name) :=
  meets_read fun _ => keeps_orFail _ _

theorem keeps_node (name : String) : Keeps P (node name) :=
  meets_read fun _ => keeps_orFail _ _

theorem keeps_callSite (e : EdgeDecl) : Keeps P (callSite e) :=
  (keeps_method _).bind fun _ => (keeps_method _).bind fun _ => keeps_pure _

/-! ## Declarations -/

/-- A step of the universe. -/
theorem meets_onNodes {α : Type} {f : Universe → Except Fault (α × Universe)}
    {Q : α → Program → Prop} (hP : ∀ p, P p → E p)
    (h : ∀ p a u, P p → f p.nodes = .ok (a, u) → Q a { p with nodes := u }) :
    Meets E P (onNodes f) Q := by
  refine meets_get_bind fun p hp => ?_
  split
  · next a u hf =>
    exact (meets_set fun _ _ => h p a u hp hf).bind fun _ => meets_pure fun _ hq => hq
  · exact meets_throw fun _ heq => heq ▸ hP p hp

/-- A name stands for a type that is there then. -/
def Resolved (P : Program → Prop) (t : TypeId) (p : Program) : Prop := P p ∧ p.nodes.Knows t

/-- A name is given if it stands for nothing yet. -/
theorem meets_bindName (name : String) (n : NodeId) :
    Meets (fun _ => True) (· = p) (bindName name n) fun _ p' => p.names.get? name = none ∧
      p' = { p with names := p.names.set name n, nodeNames := p.nodeNames.set n name } := by
  unfold bindName
  refine .after_check (fun _ _ => trivial) fun _ => meets_get_bind ?_
  rintro p rfl
  refine .after_check (fun _ _ => trivial) fun hfree => meets_set fun _ _ => ⟨?_, rfl⟩
  simpa [Assoc.has] using hfree

section TypeFree

variable (hP : TypeFree P)

include hP

/-- **Naming a type keeps such a property**, and the type is known then. The induction
is on the parts of the name. -/
theorem meets_typeWithin : ∀ (fuel : Nat) (name : String),
    Meets P P (typeWithin fuel name) (Resolved P) := by
  intro fuel
  induction fuel with
  | zero => exact fun name => meets_pure fun p hp => ⟨hp, .inl rfl⟩
  | succ fuel ih =>
    intro name
    unfold typeWithin
    split
    · exact meets_pure fun p hp => ⟨hp, .inl rfl⟩
    split
    · exact meets_pure fun p hp =>
        ⟨hp, (hP.orderly p hp).nodes.started.knows (.inr (by decide))⟩
    split
    · refine (ih _).bind fun t => meets_onNodes (fun p hp => hp.1) fun p a u hp hu => ?_
      obtain ⟨e, he, hout⟩ := Universe.addArrayType_eq_ok hu
      obtain ⟨h0, hlt⟩ := slot?_bounds he
      obtain ⟨rfl, rfl⟩ := Prod.mk.inj hout
      exact hP.internType hp.1 _ h0 hlt
    · refine (ih _).bind fun t => meets_onNodes (fun p hp => hp.1) fun p a u hp hu => ?_
      obtain ⟨b, -, hout⟩ := Universe.addAnySubtype_eq_ok hu
      obtain ⟨rfl, rfl⟩ := Prod.mk.inj hout
      have hpos := (hP.orderly p hp.1).nodes.size_pos
      exact hP.internType hp.1 _ (Int.le_refl 0) (Int.natCast_pos.2 hpos)
    · refine meets_get_bind fun p hp => (meets_orFail fun _ h => h ▸ hp).mono (fun _ h => h) ?_
      rintro t _ ⟨ht, rfl⟩
      obtain ⟨r, hr, -⟩ := Universe.type?_of_lookupType ht
      exact ⟨hp, .inr (Universe.hasType_of_eq hr)⟩

theorem meets_type (name : String) : Meets P P (type name) (Resolved P) :=
  meets_typeWithin hP _ name

/-- Primitive types come first, and then the classes. -/
theorem keeps_declareTypes : Keeps P declareTypes := by
  refine meets_read fun p => ?_
  refine (keeps_forIn (fun prim _ => ?_) _).bind fun _ => ?_
  · exact (meets_modify fun p hp => hP.addType hp prim .primitive).bind fun _ => keeps_pure _
  refine (keeps_forIn (fun c _ => ?_) _).bind fun _ => keeps_pure _
  refine .after_ite (fun _ => keeps_throw _) ?_
  exact (meets_modify fun p hp => hP.addType hp c.name .ref).bind fun _ => keeps_pure _

/-- **Declaring a class** extends the hierarchy and may mark a type. -/
theorem keeps_declareClass (c : ClassDecl) : Keeps P (declareClass c) := by
  refine meets_read fun p => ?_
  refine (keeps_mapM fun _ => keeps_orFail _ _).bind fun supers => ?_
  dsimp only
  generalize (p.nodes.lookupType c.name).getD noType = t
  -- the marks come last, whatever the class extends
  have hmarks : Keeps P (do
      if c.isAbstract then
        modify fun p => { p with hierarchy := p.hierarchy.setAbstract t }
      if c.isUnresolved then
        modify fun p => { p with nodes := p.nodes.markUnresolved t } : Step Unit) := by
    refine .after_ite (fun _ => meets_modify fun p hp => hP.withHierarchy hp _ rfl) ?_
    dsimp only
    split
    · exact meets_modify fun p hp => hP.markUnresolved hp t
    · exact keeps_pure _
  split
  · exact (meets_modify fun p hp =>
      hP.withHierarchy hp (p.hierarchy.addInterface t supers) rfl).bind fun _ => hmarks
  · split
    · refine (keeps_pure _).bind fun super => ?_
      exact (meets_modify fun p hp =>
        hP.withHierarchy hp (p.hierarchy.addClass t super supers) rfl).bind fun _ => hmarks
    · refine (keeps_orFail _ _).bind fun super => ?_
      exact (meets_modify fun p hp =>
        hP.withHierarchy hp (p.hierarchy.addClass t super supers) rfl).bind fun _ => hmarks

/-- The root of the hierarchy is a type that is there. -/
theorem keeps_declareRoot : Keeps P declareRoot := by
  refine meets_get_bind fun p hp => ?_
  dsimp only
  split
  · exact meets_pure fun _ heq => heq ▸ hp
  · refine (meets_orFail fun _ heq => heq ▸ hp).bind fun t => meets_set fun _ h => ?_
    obtain ⟨r, hr, -⟩ := Universe.type?_of_lookupType h.1
    have ho := hP.orderly p hp
    exact hP.frame p _ hp ⟨ho.nodes, .inr (Universe.hasType_of_eq hr), ho.casting⟩
      rfl rfl rfl rfl rfl

end TypeFree

section Framed

variable (hP : Framed P)

include hP

/-- A name for a node is no matter of such a property. -/
theorem keeps_bindName (name : String) (n : NodeId) : Keeps P (bindName name n) := by
  unfold bindName
  refine .after_ite (fun _ => keeps_throw _) ?_
  refine meets_get_bind fun p hp => ?_
  refine .after_ite (fun _ => meets_throw fun _ heq => heq ▸ hp) ?_
  have ho := hP.orderly p hp
  exact meets_set fun _ _ => hP.frame p _ hp ⟨ho.nodes, ho.root, ho.casting⟩ rfl rfl rfl

/-- A variable is a node of the type that its declaration names. -/
theorem keeps_declareVariable (v : VariableDecl) : Keeps P (declareVariable v) := by
  refine (keeps_method _).bind fun m => (meets_type hP.typeFree _).bind fun t => ?_
  refine Meets.bind (meets_onNodes (fun _ h => h.1) fun p n u h hu => ?_) fun n =>
    keeps_bindName hP v.name n
  cases hu
  exact hP.pushNode h.1 h.2

theorem keeps_declareAlloc (a : AllocDecl) : Keeps P (declareAlloc a) := by
  refine (meets_type hP.typeFree _).bind fun t => ?_
  dsimp only
  split
  · refine Meets.bind (meets_onNodes (fun _ h => h.1) fun p n u h hu => ?_) fun n =>
      keeps_bindName hP a.name n
    obtain rfl : u = (p.nodes.addClassConstant a.name t).2 := by rw [Except.ok.inj hu]
    exact hP.addClassConstant h.1 a.name h.2
  · refine ((keeps_method _).mono (fun _ h => h.1) fun _ _ h => h).bind fun m => ?_
    refine Meets.bind (meets_onNodes (fun _ h => h.1) fun p n u h hu => ?_) fun n =>
      keeps_bindName hP a.name n
    cases hu
    exact hP.pushNode h.1 h.2

end Framed

theorem keeps_declareMethod (name : String) : Keeps Orderly (declareMethod name) := by
  unfold declareMethod
  refine .after_ite (fun _ => keeps_throw _) ?_
  exact meets_modify fun p hp => hp.addMethod name

theorem keeps_declareEdge (e : EdgeDecl) : Keeps Orderly (declareEdge e) :=
  (keeps_callSite e).bind fun _ => meets_modify fun _ hp => ⟨hp.nodes, hp.root, hp.casting⟩

/-- Reading a description. -/
theorem keeps_declare : Keeps Orderly declare := by
  have hP := framed_orderly
  refine meets_read fun p => (keeps_declareTypes hP.typeFree).bind fun _ => ?_
  refine (keeps_forM (keeps_declareClass hP.typeFree)).bind fun _ => ?_
  refine (keeps_declareRoot hP.typeFree).bind fun _ => ?_
  refine (keeps_forM keeps_declareMethod).bind fun _ => ?_
  refine (keeps_forM keeps_declareEdge).bind fun _ => ?_
  exact (keeps_forM (keeps_declareVariable hP)).bind fun _ => keeps_forM (keeps_declareAlloc hP)

/-! ## Building -/

/-- **A qualified allocation is as its base is**, so that one more is no matter. -/
theorem Orderly.internChain (h : p.Orderly) (table : HeapTable) (base : Node)
    (chain : List NodeId) :
    Orderly { p with nodes := ((HeapTable.internChain base chain).go (table, p.nodes)).2.2 } := by
  obtain ⟨f, hgo⟩ | ⟨r, -, hgo⟩ | ⟨n, u, hmade, hgo⟩ :=
    HeapTable.go_internChain_cases base chain (table, p.nodes) <;> rw [hgo]
  · exact h
  · exact h
  · exact h.addObjectSensitive hmade

/-- Nothing but the allocation itself is made, whatever the table answers. -/
theorem Orderly.call (h : p.Orderly) (table : HeapTable) (c : HeapTable.Call) :
    Orderly { p with nodes := (c.step.go (table, p.nodes)).2.2 } := by
  obtain ⟨b, chain, hgo⟩ | ⟨f, hgo⟩ := c.go_step_cases (table, p.nodes) <;> rw [hgo]
  · exact h.internChain table b chain
  · exact h

/-- **Heap contexts keep a program orderly**, with a table and without one. -/
theorem Orderly.heapContext (h : p.Orderly) {table table' : Option HeapTable}
    {base enclosing n : NodeId}
    (hu : PointsTo.heapContext table p.nodes base enclosing = .ok (n, table', u)) :
    Orderly { p with nodes := u } := by
  cases table with
  | none =>
    obtain ⟨-, -, rfl⟩ := heapContext_none hu
    exact h
  | some t =>
    rw [heapContext_some, HeapTable.run] at hu
    generalize HeapTable.Call.mk base _ = c at hu
    have hcall := h.call t c
    match hgo : c.step.go (t, p.nodes) with
    | (.ok _, _, _) =>
      rw [hgo] at hu hcall
      cases hu
      exact hcall
    | (.error _, _) =>
      rw [hgo] at hu
      cases hu

theorem keeps_addHeapContext (table : Option HeapTable) (d : HeapContextDecl) :
    Keeps Orderly (addHeapContext table d) := by
  unfold addHeapContext
  refine (keeps_node _).bind fun base => ?_
  extract_lets rest
  have hrest : ∀ receiver, Keeps Orderly (rest receiver) := by
    intro receiver
    refine Meets.bind (meets_onNodes (Q := fun _ => Orderly) (fun _ hp => hp)
      fun p a u hp hu => ?_) fun a => ?_
    · cases hmade : PointsTo.heapContext table p.nodes base receiver with
      | error f => simp [hmade, Except.map] at hu
      | ok made =>
        rw [hmade] at hu
        cases hu
        exact hp.heapContext hmade
    · obtain ⟨n, table⟩ := a
      dsimp only
      split
      · exact Meets.bind (meets_modify fun p hp => ⟨hp.nodes, hp.root, hp.casting⟩) fun _ =>
          keeps_pure _
      · exact meets_read fun _ => .after_ite (fun _ => keeps_bindName framed_orderly _ _)
          (keeps_pure _)
  split
  · exact (keeps_pure _).bind hrest
  · exact (keeps_node _).bind hrest

theorem keeps_isAlloc (n : NodeId) : Keeps P (isAlloc n) :=
  meets_read fun _ => keeps_pure _

/-- A field node is an addition to the universe. -/
theorem keeps_addFieldNode (d : FieldDecl) : Keeps Orderly (addFieldNode d) := by
  refine (keeps_node _).bind fun alloc => (keeps_isAlloc alloc).bind fun b => ?_
  refine .after_ite (fun _ => keeps_throw _) ?_
  refine Meets.bind (meets_onNodes (Q := fun _ => Orderly) (fun _ hp => hp)
    fun p f u hp hu => ?_) fun f => ?_
  · obtain rfl : u = (p.nodes.addField d.field).2 := by rw [Except.ok.inj hu]
    exact hp.addField d.field
  refine Meets.bind (meets_onNodes (Q := fun _ => Orderly) (fun _ hp => hp)
    fun p n u hp hu => hp.addAllocField hu) fun n => meets_read fun p => ?_
  split
  · exact keeps_bindName framed_orderly _ n
  · exact keeps_pure _

/-- Facts are read off the names of the program, and kept elsewhere. -/
theorem keeps_recordFacts : Keeps P recordFacts := by
  refine meets_read fun p => (keeps_foldlM (fun s d => ?_) _).bind fun s => ?_
  · refine (keeps_node _).bind fun ptr => (keeps_node _).bind fun obj => ?_
    refine (keeps_isAlloc obj).bind fun b => ?_
    exact .after_ite (fun _ => keeps_throw _) (keeps_pure _)
  refine (keeps_foldlM (fun s d => ?_) _).bind fun s => keeps_foldlM (fun s name => ?_) _
  · exact (keeps_node _).bind fun n => (keeps_node _).bind fun into => keeps_pure _
  · exact (keeps_node _).bind fun n => keeps_pure _

end Program

namespace Workbench

open Steps

/-- The program on the bench has the property. -/
def Holds (R : Program → Prop) (w : Workbench) : Prop := R w.program

/-- The program on the bench is in order. -/
abbrev Orderly : Workbench → Prop := Holds Program.Orderly

variable {α : Type} {R : Program → Prop}

/-- A step of the program does to it what it does off the bench. -/
theorem meets_onProgram {E : Program → Prop} {s : Program.Step α} {Q : α → Program → Prop}
    (h : Meets E R s Q) : Meets (Holds E) (Holds R) (onProgram s) fun a => Holds (Q a) := by
  intro w hw
  have hgo : (StateT.run (ExceptT.run (onProgram s)) w : Except ProgramError α × Workbench) =
    ((s.go w.program).1, { w with program := (s.go w.program).2 }) := rfl
  rw [hgo, Program.Step.go]
  obtain ⟨a, p, hrun, hend⟩ | ⟨e, p, hrun, hend⟩ := h.cases (s := w.program) hw <;> rw [hrun] <;>
    exact hend

/-- A step of the builder leaves the program alone. -/
theorem meets_mustBuild (wrap : ProgramError → ProgramError) (s : Builder.Step α) (b : Builder) :
    Meets (Holds R) (Holds R) (mustBuild wrap s b)
      fun b' w => (∃ a, s.go b = (.ok a, b')) ∧ Holds R w := by
  unfold mustBuild onBuilder
  generalize s.go b = run
  obtain ⟨r, b'⟩ := run
  refine Meets.bind (Q := fun out w => out = (r, b') ∧ Holds R w) ?_ fun out => ?_
  · exact Meets.bind (Q := fun _ => Holds R) (meets_modify fun _ hw => hw) fun _ =>
      meets_pure fun _ hw => ⟨rfl, hw⟩
  · refine meets_of_and fun hout => ?_
    subst hout
    cases r with
    | ok a => exact meets_pure fun _ hw => ⟨⟨a, rfl⟩, hw⟩
    | error e => exact meets_throw fun _ hw => hw

/-- Steps of the builder change the log only. -/
theorem keeps_mustBuild (wrap : ProgramError → ProgramError) (s : Builder.Step α) (b : Builder) :
    Keeps (Holds R) (mustBuild wrap s b) :=
  (meets_mustBuild wrap s b).mono (fun _ hw => hw) fun _ _ h => h.2

/-- Entry points are added to the builder, not to the program. -/
theorem keeps_addEntryPoints (b : Builder) : Keeps Orderly (addEntryPoints b) := by
  refine meets_read fun w => ?_
  have hgo : ∀ (names : List String) (b : Builder),
      Keeps Orderly (addEntryPoints.go w.program names b) := by
    intro names
    induction names with
    | nil => exact fun b => keeps_pure _
    | cons name names ih =>
      intro b
      unfold addEntryPoints.go
      split
      · exact keeps_throw _
      · exact (keeps_mustBuild _ _ _).bind ih
  dsimp only
  split
  · exact keeps_mustBuild _ _ _
  · exact hgo _ b

/-- Freezing the graph reads the methods of the program. -/
theorem meets_freeze (b : Builder) : Meets (Holds R) (Holds R) (freeze b)
    fun out w => (∃ p disk disk', R p ∧ (Builder.freeze p.nodes).go (b, disk) =
      (.ok out.2, out.1, disk')) ∧ Holds R w := by
  refine meets_get_bind fun w hw => ?_
  dsimp only
  generalize hgo : (Builder.freeze w.program.nodes).go (b, w.disk) = run
  obtain ⟨r, b', disk'⟩ := run
  refine Meets.bind (Q := fun _ => Holds R) (meets_set fun _ _ => hw) fun _ => ?_
  cases r with
  | ok f => exact meets_pure fun _ hw' => ⟨⟨w.program, w.disk, disk', hw, hgo⟩, hw'⟩
  | error e => exact meets_throw fun _ hw => hw

theorem keeps_applyEncoding (g : CallGraph) (f : Frozen) : Keeps Orderly (applyEncoding g f) := by
  refine meets_read fun w => ?_
  split
  · exact keeps_pure _
  · refine (keeps_foldlM (fun f d => ?_) f).bind fun f =>
      (keeps_foldlM (fun g d => ?_) g).bind fun g => keeps_pure _
    · refine (meets_onProgram (Program.keeps_method _)).bind fun m => ?_
      refine .after_ite (fun _ => keeps_throw _) ?_
      dsimp only
      split
      · exact keeps_pure _
      · exact keeps_throw _
    · refine (meets_onProgram (Program.keeps_callSite _)).bind fun cs => ?_
      split
      · exact keeps_pure _
      · exact keeps_throw _

/-- **Building keeps a program in order**, also when it fails. -/
theorem keeps_build (cfg : Config) : Keeps Orderly (build cfg) := by
  refine meets_get_bind fun w hw => ?_
  refine .after_ite (fun _ => meets_throw fun _ heq => heq ▸ hw) ?_
  dsimp only
  generalize Builder.new cfg w.log w.program.nodes (some w.program.hierarchyView) = made
  obtain ⟨b, table⟩ := made
  refine Meets.bind (meets_set (Q := fun _ => Orderly) fun _ _ => hw) fun _ => ?_
  refine (keeps_addEntryPoints b).bind fun b => (keeps_mustBuild _ _ b).bind fun b => ?_
  refine ((meets_freeze b).mono (fun _ hw => hw) fun _ _ h => h.2).bind fun ⟨b, f⟩ => ?_
  refine (keeps_applyEncoding _ f).bind fun ⟨g, f⟩ => ?_
  refine (meets_onProgram (keeps_foldlM Program.keeps_addHeapContext table)).bind fun _ => ?_
  refine (meets_onProgram (keeps_forM Program.keeps_addFieldNode)).bind fun _ => ?_
  refine (meets_onProgram Program.keeps_recordFacts).bind fun facts => ?_
  exact Meets.bind (meets_modify fun w hw => ⟨hw.nodes, hw.root, hw.casting⟩) fun _ =>
    keeps_pure _

end Workbench

/-- The program has been declared by a description, and there may have been attempts
to build it since. -/
inductive Program.Prepared : Program → Prop
  | declared {file : String} {d : Description} {p : Program}
      (h : Program.declare.go { name := file, description := d } = (.ok (), p)) : Prepared p
  | build {p : Program} (hp : Prepared p) (cfg : Config) (log : Log) (disk : Disk) :
      Prepared ((Workbench.build cfg).go ⟨p, log, disk⟩).2.program

namespace Program

/-- A program is declared once its description has been gone through. -/
theorem prepared_of_isOk {file : String} {d : Description}
    (h : (declare.go { name := file, description := d }).1.isOk) :
    (declare.go { name := file, description := d }).2.Prepared := by
  obtain ⟨_, hok⟩ := Steps.isOk_iff.1 h
  exact .declared (Prod.ext hok rfl)

/-- **A program that has been declared and built is in order.** -/
theorem Prepared.orderly {p : Program} (h : p.Prepared) : p.Orderly := by
  induction h with
  | @declared file d p h =>
    have hstart : Orderly { name := file, description := d } :=
      ⟨Universe.sane_empty, .inl rfl, rfl⟩
    have hend : (declare.go { name := file, description := d }).2.Orderly :=
      keeps_declare.run (fun _ _ hp => hp) hstart
    rwa [h] at hend
  | @build p _ cfg log disk ih =>
    exact (Workbench.keeps_build cfg).run (fun _ _ hw => hw) (s := ⟨p, log, disk⟩) ih

end Program

end PointsTo
