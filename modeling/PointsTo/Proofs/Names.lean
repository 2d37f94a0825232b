import PointsTo.Proofs.Builds
/-!
# Nodes by name

A description names the variables and allocations of its program. Reading it
makes one node for each of them, and every name stands for the node that was
made with it (`Naming`). Building the program gives more names, those of
heap contexts and of fields, and refuses a name that stands for another node
already, with one exception: a heap context that qualifies nothing makes its
name one more name of its base, whatever it stood for before.
`build_keeps_names_iff` says which of the declared names still stand for
their nodes after a build.
-/

namespace PointsTo

/-! ## Declared nodes -/

/-- A node that a description declares: a variable, or an allocation. -/
structure NodeDecl where
  name : String
  type : String
  /-- The method it belongs to, unless it is a class constant. -/
  method : Option String
  /-- The abstraction of an allocation. -/
  kind : Option AllocKind

/-- The node of a variable. -/
def VariableDecl.node (v : VariableDecl) : NodeDecl := ⟨v.name, v.type, some v.method, none⟩

/-- The node of an allocation. -/
def AllocDecl.node (a : AllocDecl) : NodeDecl :=
  if a.isConstant then ⟨a.name, a.type, none, some .classConstant⟩
  else ⟨a.name, a.type, some a.method, some .insensitive⟩

/-- The variables and the allocations, in the order they are declared. -/
def Description.declaredNodes (d : Description) : List NodeDecl :=
  d.vars.map (·.node) ++ d.allocs.map (·.node)

/-- **The node is the declared one**: it has the name, the type and the method that it
is declared with, and an allocation is its own site. -/
structure NodeDecl.Describes (x : NodeDecl) (u : Universe) (n : NodeId) (r : Node) : Prop where
  name : r.name = x.name
  type : u.Names (Program.typeName (x.type.length + 1) x.type) r.type
  method : x.method.elim (some noMethod) u.lookupMethod = some r.method
  role : r.role = x.kind.elim .var fun kind => .alloc kind n []

namespace NodeDecl.Describes

variable {x : NodeDecl} {u u' : Universe} {n : NodeId} {r : Node}

/-- A node stays what it was declared to be while types are made. -/
theorem mono (h : x.Describes u n r) (htypes : u.types.toList <+: u'.types.toList)
    (hmethods : u'.methods = u.methods) : x.Describes u' n r where
  name := h.name
  type := h.type.mono htypes
  method := by
    rw [← h.method]
    cases x.method with
    | none => rfl
    | some name => simp only [Option.elim_some, Universe.lookupMethod, hmethods]
  role := h.role

/-- What is declared is not qualified. -/
theorem allocKind_ne (h : x.Describes u n r) (hkind : x.kind ≠ some .objectSensitive) :
    r.allocKind ≠ .objectSensitive := by
  rw [Node.allocKind, h.role]
  cases hk : x.kind with
  | none => simp
  | some kind => exact fun heq => hkind (hk.trans (congrArg some heq))

end NodeDecl.Describes

namespace Program

open Steps

variable {p p' : Program} {u : Universe} {made : List NodeDecl} {x : NodeDecl} {n : NodeId}

/-! ## Reading a description -/

/-- **The names of a program are those of its nodes**, and the nodes of `made` have been
declared. A name stands for the node that was made with it, and nothing is qualified. -/
structure Naming (made : List NodeDecl) (p : Program) : Prop where
  orderly : p.Orderly
  names : ∀ (x : String) (n : NodeId),
    p.names.get? x = some n ↔ ∃ r, p.nodes.node? n = some r ∧ r.name = x
  made : ∀ x ∈ made, ∃ n r, p.nodes.node? n = some r ∧ x.Describes p.nodes n r
  plain : ∀ (n : NodeId) r, p.nodes.node? n = some r → r.allocKind ≠ .objectSensitive

/-- No two names stand for one node. -/
theorem Naming.eq_of_get? (h : Naming made p) {x y : String} (hx : p.names.get? x = some n)
    (hy : p.names.get? y = some n) : x = y := by
  obtain ⟨r, hr, rfl⟩ := (h.names x n).1 hx
  obtain ⟨r', hr', rfl⟩ := (h.names y n).1 hy
  rw [Option.some.inj (hr.symm.trans hr')]

/-- Making types names nothing. -/
theorem Naming.interned (h : Naming made p) (hu : p.nodes.Interned u) :
    Naming made { p with nodes := u } := by
  have hnode : ∀ n : NodeId, u.node? n = p.nodes.node? n := fun n => by
    rw [Universe.node?, Universe.node?, hu.nodes]
  refine ⟨h.orderly.withNodes hu.sane hu.grows, ?_, fun x hx => ?_, ?_⟩
  · simpa only [hnode] using h.names
  · obtain ⟨n, r, hr, hx⟩ := h.made x hx
    exact ⟨n, r, (hnode n).trans hr, hx.mono hu.types hu.methods⟩
  · simpa only [hnode] using h.plain

/-- The next node is where it is made. -/
theorem Naming.node?_nextNode (h : Naming made p) (r : Node) :
    (p.nodes.pushNode r).2.node? p.nodes.nextNode = some { r with id := p.nodes.nextNode } := by
  have hpos : 0 < p.nodes.nodes.size := h.orderly.nodes.started.nodes.length_le
  have hne : p.nodes.nextNode ≠ noNode := Int.natCast_ne_zero.2 (by omega)
  rw [Universe.node?_pushNode, if_pos ⟨rfl, hne⟩]

/-- A free name is given to a node that is made with it. -/
theorem Naming.names_pushNode (h : Naming made p) {r : Node} (hfree : p.names.get? r.name = none)
    (y : String) (n : NodeId) : (p.names.set r.name p.nodes.nextNode).get? y = some n ↔
      ∃ r', (p.nodes.pushNode r).2.node? n = some r' ∧ r'.name = y := by
  by_cases hn : n = p.nodes.nextNode
  · subst hn
    rw [h.node?_nextNode]
    by_cases hy : y = r.name
    · simp [hy]
    · -- the next number belongs to no name yet
      rw [Assoc.get?_set_ne _ _ hy, h.names]
      refine iff_of_false ?_ (by simpa using Ne.symm hy)
      rintro ⟨r', hr', -⟩
      exact Universe.node?_ne_nextNode hr' rfl
  · rw [Universe.node?_pushNode_of_ne r hn]
    by_cases hy : y = r.name
    · rw [hy, Assoc.get?_set_self, Option.some.injEq, ← h.names, hfree]
      exact iff_of_false (Ne.symm hn) (Option.some_ne_none n).symm
    · rw [Assoc.get?_set_ne _ _ hy, h.names]

/-- The name of the declared node is free, or giving it to the number ends the
declaration. -/
def Offers (made : List NodeDecl) (x : NodeDecl) (n : NodeId) (p : Program) : Prop :=
  p.names.get? x.name = none → Naming (made ++ [x])
    { p with names := p.names.set x.name n, nodeNames := p.nodeNames.set n x.name }

/-- **A node is made.** Its name is free, so no other node was made with it. -/
theorem Naming.offers (h : Naming made p) {r : Node}
    (hx : x.Describes p.nodes p.nodes.nextNode r) (hkind : x.kind ≠ some .objectSensitive) :
    Offers made x p.nodes.nextNode { p with nodes := (p.nodes.pushNode r).2 } := by
  intro hfree
  have ho := h.orderly.pushNode (r := r) hx.type.knows
  have hnew := h.node?_nextNode r
  refine ⟨⟨ho.nodes, ho.root, ho.casting⟩, ?_, fun y hy => ?_, fun n r' hr' => ?_⟩
  · rw [← hx.name] at hfree ⊢
    exact h.names_pushNode hfree
  · obtain hy | hy := List.mem_append.1 hy
    · obtain ⟨n, r', hr', hdescribes⟩ := h.made y hy
      refine ⟨n, r', ?_, hdescribes.mono (List.prefix_refl _) rfl⟩
      exact (Universe.node?_pushNode_of_ne r (Universe.node?_ne_nextNode hr')).trans hr'
    · obtain rfl := List.mem_singleton.1 hy
      exact ⟨_, _, hnew, hx.name, hx.type, hx.method, hx.role⟩
  · by_cases hn : n = p.nodes.nextNode
    · subst hn
      obtain rfl := Option.some.inj (hnew.symm.trans hr')
      exact hx.allocKind_ne hkind
    · exact h.plain n r' ((Universe.node?_pushNode_of_ne r hn).symm.trans hr')

/-- The declaration of a node ends with its name. -/
theorem meets_offers (x : NodeDecl) (n : NodeId) :
    Meets (fun _ => True) (Offers made x n) (bindName x.name n) fun _ => Naming (made ++ [x]) := by
  refine meets_at fun p hp => (meets_bindName x.name n).mono (fun _ h => h) ?_
  rintro _ _ ⟨hfree, rfl⟩
  exact hp hfree

/-- A variable that is declared is one more node with a name. -/
theorem meets_declareVariable (made : List NodeDecl) (v : VariableDecl) :
    Meets (fun _ => True) (Naming made) (declareVariable v)
      fun _ => Naming (made ++ [v.node]) := by
  refine (meets_method v.method fun _ _ => trivial).bind fun m => meets_at fun p hp => ?_
  refine (meets_typeWithin_names hp.2.orderly.nodes _ v.type).bind fun t => ?_
  refine Meets.bind (Q := Offers made v.node) (meets_onNodes (fun _ _ => trivial) ?_)
    fun n => meets_offers v.node n
  rintro _ n _ ⟨u, rfl, hu, ht⟩ ⟨⟩
  refine (hp.2.interned hu).offers ⟨rfl, ht, ?_, rfl⟩ (by simp [VariableDecl.node])
  exact (congrArg (Universe.position? · 0 _) hu.methods).trans hp.1

/-- A class constant that is there already has its name. -/
theorem Naming.offers_classConstant (h : Naming made p) {t : TypeId}
    (hx : x.kind = some .classConstant) (hmethod : x.method = none)
    (ht : p.nodes.Names (typeName (x.type.length + 1) x.type) t) :
    Offers made x (p.nodes.addClassConstant x.name t).1
      { p with nodes := (p.nodes.addClassConstant x.name t).2 } := by
  rw [Universe.addClassConstant]
  split
  · next n hn =>
    obtain ⟨k, rfl, hk, r, hr, hconstant⟩ := Universe.position?_eq_some hn
    have hname : r.name = x.name := by
      simp only [Universe.isConstant, Bool.and_eq_true, beq_iff_eq] at hconstant
      exact hconstant.1.1
    have hnode : p.nodes.node? (k : Int) = some r := by
      have hne : (k : Int) ≠ noNode := Int.natCast_ne_zero.2 (by omega)
      rw [Universe.node?_of_ne hne, slot?_eq_some]
      exact ⟨Int.natCast_nonneg k, hr⟩
    have htaken : p.names.get? x.name = some (k : Int) := (h.names _ _).2 ⟨r, hnode, hname⟩
    intro hfree
    cases htaken.symm.trans hfree
  · exact h.offers ⟨rfl, ht, by rw [hmethod]; rfl, by rw [hx]; rfl⟩ (by simp [hx])

/-- An allocation that is declared is one more node with a name, and a class constant
one that no other has. -/
theorem meets_declareAlloc (made : List NodeDecl) (a : AllocDecl) :
    Meets (fun _ => True) (Naming made) (declareAlloc a) fun _ => Naming (made ++ [a.node]) := by
  refine meets_at fun p hp => ?_
  refine (meets_typeWithin_names hp.orderly.nodes _ a.type).bind fun t => ?_
  dsimp only
  rw [AllocDecl.node]
  split
  · refine Meets.bind (Q := Offers made ⟨a.name, a.type, none, some .classConstant⟩)
      (meets_onNodes (fun _ _ => trivial) ?_) fun n => meets_offers ⟨a.name, _, _, _⟩ n
    rintro _ n u' ⟨u, rfl, hu, ht⟩ hmade
    have hoffers := (hp.interned hu).offers_classConstant
      (x := ⟨a.name, a.type, none, some .classConstant⟩) rfl rfl ht
    rwa [Except.ok.inj hmade] at hoffers
  · refine (meets_method a.method fun _ _ => trivial).bind fun m => ?_
    refine Meets.bind (Q := Offers made ⟨a.name, a.type, some a.method, some .insensitive⟩)
      (meets_onNodes (fun _ _ => trivial) ?_) fun n => meets_offers ⟨a.name, _, _, _⟩ n
    rintro _ n _ ⟨hm, u, rfl, hu, ht⟩ ⟨⟩
    exact (hp.interned hu).offers ⟨rfl, ht, hm, rfl⟩ (by simp)

/-- Nothing has been named yet. -/
structure Bare (p : Program) : Prop where
  orderly : p.Orderly
  names : p.names = []
  nodes : p.nodes.nodes = #[{}]

theorem typeFree_bare : TypeFree Bare where
  orderly _ h := h.orderly
  frame _ _ h ho _ _ _ hnames hnodes := ⟨ho, hnames.trans h.names, hnodes.trans h.nodes⟩

theorem keeps_declareMethod_bare (name : String) : Keeps Bare (declareMethod name) := by
  unfold declareMethod
  refine .after_check (fun _ hp => hp) fun _ => meets_modify fun p hp => ?_
  refine ⟨hp.orderly.addMethod name, hp.names, ?_⟩
  dsimp only
  rw [Universe.addMethod]
  split <;> exact hp.nodes

theorem keeps_declareEdge_bare (e : EdgeDecl) : Keeps Bare (declareEdge e) :=
  (keeps_callSite e).bind fun _ => meets_modify fun _ hp =>
    ⟨⟨hp.orderly.nodes, hp.orderly.root, hp.orderly.casting⟩, hp.names, hp.nodes⟩

/-- A program without nodes names what has been made, which is nothing. -/
theorem Bare.naming (h : p.Bare) : Naming [] p := by
  have hnone : ∀ (n : NodeId) r, p.nodes.node? n ≠ some r := fun n r hr => by
    have hbounds := Universe.node?_bounds hr
    rw [h.nodes] at hbounds
    have hsize : (#[{}] : Array Node).size = 1 := rfl
    omega
  refine ⟨h.orderly, fun x n => ?_, fun x hx => absurd hx List.not_mem_nil,
    fun n r hr => absurd hr (hnone n r)⟩
  rw [h.names]
  exact iff_of_false (Option.some_ne_none n).symm fun h => h.elim fun r hr => hnone n r hr.1

/-- **Every declared node is made, and its name stands for it.** -/
theorem meets_declare_naming (d : Description) :
    Meets (fun _ => True) (fun p => p.description = d ∧ p.Bare) declare
      fun _ => Naming d.declaredNodes := by
  refine meets_get_bind fun p hp => ?_
  obtain ⟨rfl, hbare⟩ := hp
  refine Meets.pre (P := Bare) ?_ fun _ heq => heq ▸ hbare
  refine (keeps_declareTypes typeFree_bare).loosen.bind fun _ => ?_
  refine (keeps_forM (keeps_declareClass typeFree_bare)).loosen.bind fun _ => ?_
  refine (keeps_declareRoot typeFree_bare).loosen.bind fun _ => ?_
  refine (keeps_forM keeps_declareMethod_bare).loosen.bind fun _ => ?_
  refine (keeps_forM keeps_declareEdge_bare).loosen.bind fun _ => ?_
  refine Meets.bind (Q := fun _ => Naming (p.description.vars.map VariableDecl.node)) ?_ fun _ => ?_
  · refine (meets_forM (P := fun done => Naming (done.map VariableDecl.node)) ?_).pre
      fun _ h => Bare.naming h
    intro done v
    rw [List.map_append, List.map_singleton]
    exact meets_declareVariable _ v
  · have hallocs : ∀ (done : List AllocDecl) (a : AllocDecl), Meets (fun _ => True)
        (Naming (p.description.vars.map VariableDecl.node ++ done.map AllocDecl.node))
        (declareAlloc a) fun _ => Naming
          (p.description.vars.map VariableDecl.node ++ (done ++ [a]).map AllocDecl.node) := by
      intro done a
      rw [List.map_append, List.map_singleton, ← List.append_assoc]
      exact meets_declareAlloc _ a
    exact (meets_forM hallocs).pre fun _ h => by rwa [List.map_nil, List.append_nil]

/-- **Reading a description names all of its nodes.** -/
theorem naming_of_ofDescription {file : String} {d : Description}
    (h : ofDescription file d = .ok p) : Naming d.declaredNodes p := by
  have hstart : Bare { name := file, description := d } :=
    ⟨⟨Universe.sane_empty, .inl rfl, rfl⟩, rfl, rfl⟩
  exact (meets_declare_naming d).of_ok ⟨rfl, hstart⟩ (ofDescription_eq_ok h)

end Program

/-! ## Qualified allocations -/

namespace Universe

/-- The node is a qualified allocation. -/
def IsQualified (u : Universe) (n : NodeId) : Prop :=
  ∃ r, u.node? n = some r ∧ r.allocKind = .objectSensitive

/-- A qualified allocation stays one. -/
theorem Within.isQualified {u u' : Universe} {n : NodeId} (h : Within u u')
    (hn : u.IsQualified n) : u'.IsQualified n := by
  obtain ⟨r, hr, hkind⟩ := hn
  exact ⟨r, h n r hr, hkind⟩

/-- What is made for a site and a chain is a qualified allocation. -/
theorem isQualified_of_addObjectSensitive {u u' : Universe} {base n : NodeId}
    {chain : List NodeId} (hpos : 0 < u.nodes.size)
    (h : u.addObjectSensitive base chain = .ok (n, u')) :
    0 < u'.nodes.size ∧ u'.IsQualified n := by
  rw [addObjectSensitive] at h
  split at h
  · split at h
    · have hmade := Except.ok.inj h
      obtain rfl : u.nextNode = n := congrArg Prod.fst hmade
      obtain rfl : (u.pushNode _).2 = u' := congrArg Prod.snd hmade
      have hne : u.nextNode ≠ noNode := Int.natCast_ne_zero.2 (Nat.ne_of_gt hpos)
      exact ⟨by simp [pushNode], _, by rw [node?_pushNode, if_pos ⟨rfl, hne⟩], rfl⟩
    · cases h
  · cases h

end Universe

namespace HeapTable

open Universe

variable {t : HeapTable} {u u' : Universe} {st st' : HeapTable × Universe} {n : NodeId}

/-- What the table has made are qualified allocations. -/
structure Qualifying (st : HeapTable × Universe) : Prop where
  size_pos : 0 < st.2.nodes.size
  records : ∀ r ∈ st.1.records, st.2.IsQualified r.node

/-- **An answer is a qualified allocation**, whether it was made before or not. -/
theorem Qualifying.internChain (h : Qualifying st) {b : Node} {chain : List NodeId}
    (hgo : (HeapTable.internChain b chain).go st = (.ok n, st')) :
    Qualifying st' ∧ st'.2.IsQualified n := by
  have hlater := later_internChain st b chain
  rw [hgo] at hlater
  obtain ⟨f, hcase⟩ | ⟨r, hr, hcase⟩ | ⟨m, u', hmade, hcase⟩ := go_internChain_cases b chain st <;>
    rw [hcase] at hgo <;> cases hgo
  · exact ⟨h, h.records r hr⟩
  · obtain ⟨hpos, hnew⟩ := isQualified_of_addObjectSensitive h.size_pos hmade
    refine ⟨⟨hpos, fun r hr => ?_⟩, hnew⟩
    obtain hold | hr := List.mem_append.1 hr
    · exact hlater.within.isQualified (h.records r hold)
    · obtain rfl := List.mem_singleton.1 hr
      exact hnew

/-- The node of a heap context is a qualified allocation, and those made before still
are. -/
theorem Qualifying.heapContext (h : Qualifying (t, u)) {base receiver : NodeId}
    {table : Option HeapTable}
    (hmade : PointsTo.heapContext (some t) u base receiver = .ok (n, table, u')) :
    ∃ t', table = some t' ∧ Qualifying (t', u') ∧ u.Within u' ∧ u'.IsQualified n := by
  rw [heapContext_some, HeapTable.run] at hmade
  generalize Call.mk base (if receiver = noNode then none else some receiver) = c at hmade
  have hlater := c.later_step (t, u)
  obtain ⟨b, chain, hgo⟩ | ⟨f, hgo⟩ := c.go_step_cases (t, u)
  · rw [hgo] at hmade hlater
    generalize hrun : (HeapTable.internChain b chain).go (t, u) = out at hmade hlater
    obtain ⟨r, t', u''⟩ := out
    cases r with
    | error f => cases hmade
    | ok n' =>
      cases hmade
      obtain ⟨hqualifying, hn⟩ := h.internChain hrun
      exact ⟨t', rfl, hqualifying, hlater.within, hn⟩
  · rw [hgo] at hmade
    cases hmade

end HeapTable

/-! ## Building -/

/-- The name that `x` is one more name of, where each heap context in turn makes its name
one more name of its base. -/
def HeapContextDecl.origin (l : List HeapContextDecl) (x : String) : String :=
  l.foldr (fun h x => if h.name = x then h.base else x) x

namespace Program

open Steps HeapContextDecl

variable {p p₁ p' : Program} {d : HeapContextDecl} {done : List HeapContextDecl} {x : String}

/-- Heap contexts that qualify nothing are names of other nodes. -/
structure Aliased (p : Program) (done : List HeapContextDecl) (p' : Program) : Prop where
  nodes : p'.nodes = p.nodes
  names : ∀ x, p'.names.get? x = p.names.get? (origin done x)
  bound : ∀ x, (p.names.get? x).isSome → (p'.names.get? x).isSome

/-- Without a table, one more heap context makes one more name of its base. -/
theorem meets_addHeapContext_aliased (done : List HeapContextDecl) (table : Option HeapTable)
    (d : HeapContextDecl) :
    Meets (fun _ => True) (fun p' => table = none ∧ Aliased p done p') (addHeapContext table d)
      fun table' p' => table' = none ∧ Aliased p (done ++ [d]) p' := by
  refine meets_at ?_
  rintro q ⟨rfl, h⟩
  refine (meets_addHeapContext none d).mono (fun _ h => h) ?_
  rintro table' p' ⟨base, receiver, n, hbase, hmade, hname, hothers⟩
  obtain ⟨rfl, rfl, hnodes⟩ := heapContext_none hmade
  refine ⟨rfl, hnodes.trans h.nodes, fun x => ?_, fun x hx => ?_⟩
  · rw [origin, List.foldr_append, List.foldr_cons, List.foldr_nil]
    by_cases hx : d.name = x
    · subst hx
      rw [if_pos rfl, hname, ← hbase]
      exact h.names d.base
    · rw [if_neg hx, hothers x (Ne.symm hx)]
      exact h.names x
  · by_cases hd : x = d.name
    · rw [hd, hname]
      rfl
    · rw [hothers x hd]
      exact h.bound x hx

/-- Heap contexts that qualify their bases have names of their own. -/
structure Requalified (p : Program) (done : List HeapContextDecl) (t : HeapTable) (p' : Program) :
    Prop where
  qualifying : HeapTable.Qualifying (t, p'.nodes)
  within : p.nodes.Within p'.nodes
  others : ∀ x, (∀ h ∈ done, h.name ≠ x) → p'.names.get? x = p.names.get? x
  named : ∀ h ∈ done, ∃ n, p'.names.get? h.name = some n ∧ p'.nodes.IsQualified n

/-- With a table, one more heap context has a qualified allocation by its name. -/
theorem meets_addHeapContext_requalified (done : List HeapContextDecl) (table : Option HeapTable)
    (d : HeapContextDecl) :
    Meets (fun _ => True) (fun p' => ∃ t, table = some t ∧ Requalified p done t p')
      (addHeapContext table d)
      fun table' p' => ∃ t, table' = some t ∧ Requalified p (done ++ [d]) t p' := by
  refine meets_at ?_
  rintro q ⟨t, rfl, h⟩
  refine (meets_addHeapContext (some t) d).mono (fun _ h => h) ?_
  rintro table' p' ⟨base, receiver, n, hbase, hmade, hname, hothers⟩
  obtain ⟨t', rfl, hqualifying, hwithin, hn⟩ := h.qualifying.heapContext hmade
  refine ⟨t', rfl, hqualifying, h.within.trans hwithin, fun x hx => ?_, fun h' hh' => ?_⟩
  · obtain ⟨hdone, hd⟩ := List.forall_mem_append.1 hx
    rw [hothers x (Ne.symm (hd d List.mem_cons_self))]
    exact h.others x hdone
  · obtain hold | hnew := List.mem_append.1 hh'
    · by_cases hd : h'.name = d.name
      · exact ⟨n, hd ▸ hname, hn⟩
      · obtain ⟨m, hm, hqualified⟩ := h.named h' hold
        exact ⟨m, (hothers _ hd).trans hm, hwithin.isQualified hqualified⟩
    · obtain rfl := List.mem_singleton.1 hnew
      exact ⟨n, hname, hn⟩

/-- What a step gives is what it gives. -/
theorem meets_go {α : Type} (s : Step α) :
    Meets (fun _ => True) (· = p) s fun a p' => s.go p = (.ok a, p') := by
  rintro p rfl
  split
  · next hrun => exact hrun
  · trivial

/-- What the one program knows by name, the other one knows by that name. -/
structure Extends (p p' : Program) : Prop where
  within : p.nodes.Within p'.nodes
  names : ∀ x n, p.names.get? x = some n → p'.names.get? x = some n

theorem Extends.refl (p : Program) : Extends p p := ⟨.refl _, fun _ _ h => h⟩

theorem Extends.withNodes (h : p.Extends p') {u : Universe} (hu : p'.nodes.Within u) :
    p.Extends { p' with nodes := u } :=
  ⟨h.within.trans hu, h.names⟩

/-- **A field node gets a name that stands for nothing yet**, or has its name already. -/
theorem meets_addFieldNode (d : FieldDecl) :
    Meets (fun _ => True) p.Extends (addFieldNode d) fun _ => p.Extends := by
  refine (keeps_node _).loosen.bind fun alloc => (keeps_isAlloc alloc).loosen.bind fun b => ?_
  refine .after_check (fun _ _ => trivial) fun _ => ?_
  refine Meets.bind (Q := fun _ => p.Extends) (meets_onNodes (fun _ _ => trivial) ?_) fun f => ?_
  · intro p' f u hp hu
    obtain rfl : u = (p'.nodes.addField d.field).2 := by rw [Except.ok.inj hu]
    exact hp.withNodes (.of_nodes (addField_spec p'.nodes d.field).1)
  refine Meets.bind (Q := fun _ => p.Extends) (meets_onNodes (fun _ _ => trivial) ?_) fun n => ?_
  · intro p' n u hp hu
    have hwithin := Universe.within_apply (u := p'.nodes) (.allocField alloc f)
    rw [Universe.Addition.apply, hu] at hwithin
    exact hp.withNodes hwithin
  refine meets_get_bind fun p' hp => ?_
  split
  · refine (meets_bindName _ n).mono (fun _ h => h) ?_
    rintro _ _ ⟨hfree, rfl⟩
    refine ⟨hp.within, fun x m hx => ?_⟩
    have hne : x ≠ d.alloc ++ "." ++ d.field := by
      rintro rfl
      cases hfree.symm.trans (hp.names _ m hx)
    exact (Assoc.get?_set_ne _ _ hne).trans (hp.names x m hx)
  · exact meets_pure fun _ heq => heq ▸ hp

end Program

namespace Workbench

open Steps

variable {p : Program} {w : Workbench} {cfg : Config} {log : Log} {disk : Disk}
  {built : BuiltProgram}

/-- The heap contexts come first, and what has a name after them keeps it. -/
theorem meets_finish (g : CallGraph) (fr : Frozen) :
    Meets (fun _ => True) (Holds (· = p)) (finish cfg p g fr) fun _ w => ∃ table p₁,
      (p.description.heapContexts.foldlM Program.addHeapContext
        (heapAbstraction cfg p.nodes (some p.hierarchyView)).table).go p = (.ok table, p₁) ∧
      p₁.Extends w.program := by
  refine (meets_onProgram (Program.meets_go _)).bind fun table => meets_at fun w₁ hheap => ?_
  refine Meets.pre (P := Holds w₁.program.Extends) ?_ fun _ heq => heq ▸ .refl w₁.program
  refine (meets_onProgram (meets_forM (P := fun _ => w₁.program.Extends) fun _ d =>
    Program.meets_addFieldNode d)).bind fun _ => ?_
  refine (meets_onProgram Program.keeps_recordFacts.loosen).bind fun facts => ?_
  refine Meets.bind (Q := fun _ => Holds w₁.program.Extends)
    (meets_modify fun w hw => ⟨hw.within, hw.names⟩) fun _ => ?_
  exact meets_pure fun w hw => ⟨table, w₁.program, hheap, hw⟩

/-- **A build names the heap contexts**, and the names there are then stay what they are. -/
theorem exists_heapContexts_of_build
    (h : (build cfg).go ⟨p, log, disk⟩ = (.ok built, w)) : ∃ table p₁,
      (p.description.heapContexts.foldlM Program.addHeapContext
        (heapAbstraction cfg p.nodes (some p.hierarchyView)).table).go p = (.ok table, p₁) ∧
      p₁.Extends w.program := by
  rw [go_build] at h
  obtain ⟨out, w₁, hground, hfinish⟩ := run_bind_eq_ok.1 h
  have hsame := ((steady_ground cfg).meets.of_ok (s := ⟨p, log, disk⟩) rfl hground).2
  exact (meets_finish out.1 out.2).of_ok hsame hfinish

end Workbench

/-! ## Which names stay -/

namespace Program

open Steps HeapContextDecl

variable {p p₁ p₂ : Program} {l : List HeapContextDecl} {t : HeapTable} {x : String} {n : NodeId}

/-- All the heap contexts together, where nothing is qualified. -/
theorem aliased_of_run {table : Option HeapTable}
    (h : (l.foldlM addHeapContext none).go p = (.ok table, p₁)) : Aliased p l p₁ :=
  ((meets_foldlM_done (fun done table d => meets_addHeapContext_aliased done table d) none).of_ok
    ⟨rfl, rfl, fun _ => rfl, fun _ hx => hx⟩ h).2

/-- All the heap contexts together, where their bases are qualified. -/
theorem requalified_of_run {table : Option HeapTable} (s : HeapTable.Setup)
    (hpos : 0 < p.nodes.nodes.size)
    (h : (l.foldlM addHeapContext (some s.table)).go p = (.ok table, p₁)) :
    ∃ t, table = some t ∧ Requalified p l t p₁ := by
  refine (meets_foldlM_done (fun done table d => meets_addHeapContext_requalified done table d)
    (some s.table)).of_ok ⟨s.table, rfl, ?_⟩ h
  exact ⟨⟨hpos, fun _ hr => absurd hr List.not_mem_nil⟩, .refl _, fun _ _ => rfl,
    fun _ hh => absurd hh List.not_mem_nil⟩

/-- Where nothing is qualified a name stands for what its origin was made for. -/
theorem Aliased.names_eq (h : Aliased p l p₁) (hext : p₁.Extends p₂)
    (hx : p.names.get? x = some n) : p₂.names.get? x = p.names.get? (origin l x) := by
  obtain ⟨m, hm⟩ := Option.isSome_iff_exists.1 (h.bound x (Option.isSome_of_eq_some hx))
  rw [hext.names x m hm, ← hm, h.names x]

/-- Where allocations are qualified no heap context has a name that stays. -/
theorem Requalified.names_iff (h : Requalified p l t p₁) (hext : p₁.Extends p₂)
    (hx : p.names.get? x = some n) {r : Node} (hr : p.nodes.node? n = some r)
    (hkind : r.allocKind ≠ .objectSensitive) :
    p₂.names.get? x = some n ↔ ∀ d ∈ l, d.name ≠ x := by
  constructor
  · rintro hstays d hd rfl
    obtain ⟨m, hm, r', hr', hqualified⟩ := h.named d hd
    -- the name stands for a qualified allocation, and the node is none
    obtain rfl := Option.some.inj (hstays.symm.trans (hext.names _ m hm))
    obtain rfl := Option.some.inj ((h.within _ _ hr).symm.trans hr')
    exact hkind hqualified
  · exact fun hothers => hext.names x n ((h.others x hothers).trans hx)

/-- **Which declared names still stand for their nodes after a build.** Reading a
description makes the node of every variable and allocation, and its name stands for
it. Building keeps the node. Where allocations are qualified it keeps the name
unless a heap context has it as well. Where they are not, the name stands for the
node of its origin, and so for its own node iff it is its own origin. -/
theorem build_keeps_names_iff {file : String} {d : Description} {p : Program}
    (hp : ofDescription file d = .ok p) {cfg : Config} {log : Log} {disk : Disk}
    {built : BuiltProgram} {w : Workbench}
    (hbuilt : (Workbench.build cfg).go ⟨p, log, disk⟩ = (.ok built, w)) :
    p.description = d ∧
    (∀ x ∈ d.declaredNodes, ∃ n r, p.names.get? x.name = some n ∧
      p.nodes.node? n = some r ∧ x.Describes p.nodes n r ∧ w.program.nodes.node? n = some r ∧
      (w.program.names.get? x.name = some n ↔
        if cfg.objectSensitive then ∀ h ∈ d.heapContexts, h.name ≠ x.name
        else origin d.heapContexts x.name = x.name)) ∧
    (¬ cfg.objectSensitive → ∀ x ∈ d.declaredNodes,
      w.program.names.get? x.name = p.names.get? (origin d.heapContexts x.name)) := by
  have hnaming := naming_of_ofDescription hp
  obtain rfl := (declared_of_ofDescription hp).description
  obtain ⟨table, p₁, hrun, hext⟩ := Workbench.exists_heapContexts_of_build hbuilt
  have hnode : ∀ x ∈ p.description.declaredNodes, ∃ n r, p.names.get? x.name = some n ∧
      p.nodes.node? n = some r ∧ x.Describes p.nodes n r := by
    intro x hx
    obtain ⟨n, r, hr, hdescribes⟩ := hnaming.made x hx
    exact ⟨n, r, (hnaming.names _ _).2 ⟨r, hr, hdescribes.name⟩, hr, hdescribes⟩
  refine ⟨rfl, ?_⟩
  by_cases hos : cfg.objectSensitive
  · rw [heapAbstraction, if_pos hos] at hrun
    have hpos : 0 < p.nodes.nodes.size := hnaming.orderly.nodes.started.nodes.length_le
    obtain ⟨t, -, hheap⟩ := requalified_of_run (p.heapSetup cfg) hpos hrun
    refine ⟨fun x hx => ?_, fun hno => absurd hos hno⟩
    obtain ⟨n, r, hn, hr, hdescribes⟩ := hnode x hx
    refine ⟨n, r, hn, hr, hdescribes, hext.within _ _ (hheap.within _ _ hr), ?_⟩
    rw [if_pos hos]
    exact hheap.names_iff hext hn hr (hnaming.plain n r hr)
  · rw [heapAbstraction, if_neg hos] at hrun
    have hheap := aliased_of_run hrun
    have hnames : ∀ x ∈ p.description.declaredNodes, w.program.names.get? x.name =
        p.names.get? (origin p.description.heapContexts x.name) := by
      intro x hx
      obtain ⟨n, -, hn, -⟩ := hnode x hx
      exact hheap.names_eq hext hn
    refine ⟨fun x hx => ?_, fun _ => hnames⟩
    obtain ⟨n, r, hn, hr, hdescribes⟩ := hnode x hx
    refine ⟨n, r, hn, hr, hdescribes, hext.within _ _ ?_, ?_⟩
    · rwa [Universe.node?, hheap.nodes]
    · rw [if_neg hos, hnames x hx]
      exact ⟨fun horigin => hnaming.eq_of_get? horigin hn, fun heq => by rw [heq, hn]⟩

/-- What a name stands for before and after a build where nothing is configured. -/
def meanings (x : String) : Program × BuiltProgram → Option NodeId × Option NodeId
  | (p, _) => (p.names.get? x,
      ((Workbench.build {}).go ⟨p, .new 0 true, {}⟩).2.program.names.get? x)

/-- One heap context has a new name, and the next one gives the allocation its own name. -/
def aliasDeclared : Description where
  methods := ["main"]
  entryPoints := ["main"]
  vars := [{ name := "v", method := "main" }]
  allocs := [{ name := "o", method := "main" }]
  heapContexts := [{ name := "h", base := "o" }, { name := "o", base := "h" }]

theorem build_keeps_names_alias : ∃ (p : Program) (built : BuiltProgram) (w : Workbench),
    ofDescription "p.yaml" aliasDeclared = .ok p ∧
      (Workbench.build {}).go ⟨p, .new 0 true, {}⟩ = (.ok built, w) ∧
      aliasDeclared.declaredNodes.map (·.name) = ["v", "o"] ∧
      ∀ x ∈ aliasDeclared.declaredNodes, ∃ n, p.names.get? x.name = some n ∧
        w.program.names.get? x.name = some n := by
  have hsome : (builtFrom? aliasDeclared).isSome := by decide +kernel
  obtain ⟨⟨p, built⟩, hfrom⟩ := Option.isSome_iff_exists.1 hsome
  obtain ⟨hp, w, hbuilt⟩ := builtFrom?_eq_some hfrom
  obtain ⟨-, hkept, -⟩ := build_keeps_names_iff hp hbuilt
  have horigin : ∀ x ∈ aliasDeclared.declaredNodes,
      origin aliasDeclared.heapContexts x.name = x.name := by decide
  refine ⟨p, built, w, hp, hbuilt, rfl, fun x hx => ?_⟩
  obtain ⟨n, r, hn, -, -, -, hiff⟩ := hkept x hx
  refine ⟨n, hn, hiff.2 ?_⟩
  rw [if_neg (by decide)]
  exact horigin x hx

/-- The heap context has the name of the variable. -/
def clashDeclared : Description where
  methods := ["main"]
  entryPoints := ["main"]
  vars := [{ name := "v", method := "main" }]
  allocs := [{ name := "o", method := "main" }]
  heapContexts := [{ name := "v", base := "o" }]

/-- **The name of a variable stands for an allocation.** -/
theorem build_redirects_name : ∃ (p : Program) (built : BuiltProgram) (w : Workbench),
    ofDescription "p.yaml" clashDeclared = .ok p ∧
      (Workbench.build {}).go ⟨p, .new 0 true, {}⟩ = (.ok built, w) ∧
      ¬ ∀ x ∈ clashDeclared.declaredNodes, ∃ n, p.names.get? x.name = some n ∧
        w.program.names.get? x.name = some n := by
  have hmeanings : (builtFrom? clashDeclared).map (meanings "v") = some (some 1, some 2) := by
    decide +kernel
  obtain ⟨⟨p, built⟩, hfrom, heq⟩ := Option.map_eq_some_iff.1 hmeanings
  obtain ⟨hp, w, hbuilt⟩ := builtFrom?_eq_some hfrom
  rw [meanings, hbuilt, Prod.mk.injEq] at heq
  refine ⟨p, built, w, hp, hbuilt, fun hall => ?_⟩
  obtain ⟨n, hbefore, hafter⟩ := hall _ List.mem_cons_self
  obtain rfl := Option.some.inj (heq.1.symm.trans hbefore)
  exact absurd (heq.2.symm.trans hafter) (by decide)

end Program

end PointsTo
