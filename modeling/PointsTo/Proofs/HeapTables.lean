import Mathlib.Algebra.Ring.Int.Defs
import Mathlib.Algebra.Ring.Nat
import PointsTo.HeapContext
import PointsTo.Proofs.Attempts
import PointsTo.Proofs.Universes
/-!
# Qualified allocations are canonical

A table finds a qualified allocation by a key of bytes and knows it again by
its node. `recordKey_inj` says that a key determines the site and the
chain it was made of, and `Consistent` that the list of records, the two
indexes and the universe speak of the same allocations. Each call keeps
that, so that over any sequence of calls and additions two answers are one
node exactly if they are for one site and one chain: `answers_canonical`.
-/

namespace PointsTo

/-- The number fits a machine word. -/
def IsWord (n : Int) : Prop := -2 ^ 63 ≤ n ∧ n < 2 ^ 63

instance (n : Int) : Decidable (IsWord n) :=
  inferInstanceAs (Decidable (-2 ^ 63 ≤ n ∧ n < 2 ^ 63))

/-! ## Keys -/

namespace HeapTable

section Keys

variable {more m n : Nat} {rest rest' : List UInt8}

/-- Numbers below 256 are told apart by their bytes. -/
theorem toUInt8_inj (hm : m < 256) (hn : n < 256) (h : m.toUInt8 = n.toUInt8) : m = n := by
  have hval := congrArg UInt8.toNat h
  simpa [Nat.mod_eq_of_lt hm, Nat.mod_eq_of_lt hn] using hval

/-- **Groups say where they end.** A number of at most so many groups is read back
from them whatever follows. -/
theorem groups_append_inj (hm : m < 2 ^ (7 * (more + 1))) (hn : n < 2 ^ (7 * (more + 1)))
    (h : groups more m ++ rest = groups more n ++ rest') : m = n ∧ rest = rest' := by
  induction more generalizing m n with
  | zero =>
    obtain ⟨hhead, hrest⟩ := List.cons.inj h
    exact ⟨toUInt8_inj (by omega) (by omega) hhead, hrest⟩
  | succ more ih =>
    have hpow : 2 ^ (7 * (more + 1 + 1)) = 128 * 2 ^ (7 * (more + 1)) := by
      rw [Nat.mul_add, Nat.pow_add, Nat.mul_comm]
    rw [groups, groups] at h
    -- the top bit of the first group decides whether another one follows
    split at h <;> split at h <;> obtain ⟨hhead, hrest⟩ := List.cons.inj h <;>
      have heq := toUInt8_inj (by omega) (by omega) hhead
    · exact ⟨heq, hrest⟩
    · omega
    · omega
    · obtain ⟨hdiv, hrest⟩ := ih (by omega) (by omega) hrest
      exact ⟨by omega, hrest⟩

/-- The groups of a word end before what follows them. -/
theorem groupsOf_append_inj {x y : UInt64} (h : groupsOf x ++ rest = groupsOf y ++ rest') :
    x = y ∧ rest = rest' := by
  have hbound : ∀ z : UInt64, z.toNat < 2 ^ (7 * (9 + 1)) := fun z =>
    Nat.lt_trans z.toNat_lt (by decide)
  obtain ⟨heq, hrest⟩ := groups_append_inj (hbound x) (hbound y) h
  exact ⟨UInt64.toNat_inj.1 heq, hrest⟩

theorem groups_ne_nil : groups more n ≠ [] := by
  cases more with
  | zero => exact List.cons_ne_nil _ _
  | succ more =>
    rw [groups]
    split <;> exact List.cons_ne_nil _ _

/-- A list of words is read back from its groups, as each word has one at least. -/
theorem flatMap_groupsOf_inj {xs ys : List UInt64} (h : xs.flatMap groupsOf = ys.flatMap groupsOf) :
    xs = ys := by
  induction xs generalizing ys with
  | nil =>
    cases ys with
    | nil => rfl
    | cons y ys => exact absurd (List.append_eq_nil_iff.1 h.symm).1 groups_ne_nil
  | cons x xs ih =>
    cases ys with
    | nil => exact absurd (List.append_eq_nil_iff.1 h).1 groups_ne_nil
    | cons y ys =>
      obtain ⟨rfl, hrest⟩ := groupsOf_append_inj h
      rw [ih hrest]

end Keys

/-- A word is read back from its bits. -/
theorem toInt_word {n : Int} (hn : IsWord n) : (Int64.ofInt n).toUInt64.toInt64.toInt = n := by
  unfold IsWord at hn
  have hsize : Int64.size = 2 ^ 64 := rfl
  rw [Int64.toInt64_toUInt64, Int64.toInt_ofInt]
  exact Int.bmod_eq_of_le (by omega) (by omega)

/-- Words are read back from their bits all at once. -/
theorem map_toInt_word {ns : List Int} (h : ∀ n ∈ ns, IsWord n) :
    (ns.map fun n => (Int64.ofInt n).toUInt64).map (·.toInt64.toInt) = ns := by
  rw [List.map_map]
  exact (List.map_congr_left fun n hn => toInt_word (h n hn)).trans (List.map_id ns)

/-- **A key determines its site and its chain**, if their numbers are words. -/
theorem recordKey_inj {site site' : NodeId} {chain chain' : List NodeId}
    (hs : ∀ n ∈ site :: chain, IsWord n) (hs' : ∀ n ∈ site' :: chain', IsWord n)
    (h : recordKey site chain = recordKey site' chain') : site = site' ∧ chain = chain' := by
  have hwords : (site :: chain).map (fun n : Int => (Int64.ofInt n).toUInt64) =
      (site' :: chain').map fun n : Int => (Int64.ofInt n).toUInt64 := by
    refine flatMap_groupsOf_inj ?_
    rw [List.flatMap_map, List.flatMap_map]
    exact h
  have hlist := congrArg (List.map (·.toInt64.toInt)) hwords
  rw [map_toInt_word hs, map_toInt_word hs'] at hlist
  exact List.cons.inj hlist

end HeapTable

/-! ## Sites in a universe -/

namespace Universe

variable {u u' : Universe} {n : NodeId}

/-- The allocation site of an allocation. -/
def siteOf (u : Universe) (n : NodeId) : NodeId := ((u.node? n).map (·.site)).getD noNode

/-- The site of an allocation before those of its chain. -/
def lineage (u : Universe) (n : NodeId) : List NodeId :=
  ((u.node? n).map fun r => r.site :: r.context).getD []

/-- **The node is the allocation at `site` under the chain**: it is called as the
site is, has its type and belongs to its method. -/
def Qualifies (u : Universe) (n site : NodeId) (chain : List NodeId) : Prop :=
  ∃ b, u.node? site = some b ∧ b.isAlloc ∧ b.allocKind ≠ .objectSensitive ∧
    u.node? n = some { b with id := n, role := .alloc .objectSensitive site chain }

/-- What is there in one universe is there in the other, as it was. -/
def Within (u u' : Universe) : Prop := ∀ n r, u.node? n = some r → u'.node? n = some r

theorem Within.refl (u : Universe) : Within u u := fun _ _ h => h

theorem Within.trans {u'' : Universe} (h : Within u u') (h' : Within u' u'') : Within u u'' :=
  fun n r hr => h' n r (h n r hr)

theorem Within.of_nodes (h : u'.nodes = u.nodes) : Within u u' := fun n r hr => by
  rwa [node?, h]

/-- A new node is behind all others. -/
theorem within_pushNode (r : Node) : Within u (u.pushNode r).2 := fun _ _ hr =>
  (grows_pushNode r).node? hr

/-- A node that is there is not the next one to be made. -/
theorem node?_ne_nextNode {n : Int} {r : Node} (hr : u.node? n = some r) : n ≠ u.nextNode :=
  Int.ne_of_lt (node?_bounds hr).2

/-- A qualified allocation stays one. -/
theorem Within.qualifies {site : NodeId} {chain : List NodeId} (h : Within u u')
    (hq : u.Qualifies n site chain) : u'.Qualifies n site chain := by
  obtain ⟨b, hb, halloc, hkind, hn⟩ := hq
  exact ⟨b, h _ _ hb, halloc, hkind, h _ _ hn⟩

/-- A node that may be made next: no allocation, one that is its own site, or one
that qualifies the site of an allocation. -/
inductive Fits (u : Universe) : Node → Prop
  | other (r : Node) (hr : ¬ r.isAlloc) : Fits u r
  | site (r : Node) (kind : AllocKind) (hkind : kind ≠ .objectSensitive)
      (hrole : r.role = .alloc kind u.nextNode []) : Fits u r
  | qualified (base : NodeId) (b : Node) (chain : List NodeId) (hb : u.node? base = some b)
      (halloc : b.isAlloc) : Fits u { b with role := .alloc .objectSensitive b.site chain }

/-- **What an addition does to the tables**: one of them gets an entry, a type is
marked, or nothing changes. -/
inductive Made (u : Universe) : Universe → Prop
  | keep : Made u u
  | method (name : String) : Made u { u with methods := u.methods.push name }
  | field (name : String) : Made u { u with fields := u.fields.push name }
  | type (r : TypeRecord) : Made u { u with types := u.types.push r }
  | mark (t : TypeId) : Made u (u.markUnresolved t)
  | node (r : Node) (hr : u.Fits r) : Made u (u.pushNode r).2

/-- A type that is there already is not added. -/
theorem made_internType (r : TypeRecord) : Made u (u.internType r).2 := by
  obtain ⟨id, -, heq⟩ | ⟨-, heq⟩ := u.internType_cases r
  · rw [heq]
    exact .keep
  · rw [heq]
    exact .type _

/-- **Every addition is of one of these kinds.** -/
theorem Addition.made (a : Addition) : Made u (a.apply u) := by
  cases a with
  | method name =>
    rw [apply, addMethod]
    split
    · exact .keep
    · exact .method name
  | field name =>
    rw [apply, addField]
    split
    · exact .keep
    · exact .field name
  | type name kind => exact made_internType _
  | arrayType elem =>
    rw [apply, addArrayType]
    split
    · exact made_internType _
    · exact .keep
  | anySubtype base =>
    rw [apply, addAnySubtype]
    split
    · exact made_internType _
    · exact .keep
  | unresolved t => exact .mark t
  | var name t m => exact .node { name, type := t, method := m } (.other _ Bool.false_ne_true)
  | alloc name t m => exact .node _ (.site _ .insensitive (by decide) rfl)
  | classConstant name t =>
    rw [apply, addClassConstant]
    split
    · exact .keep
    · exact .node _ (.site _ .classConstant (by decide) rfl)
  | objectSensitive base chain =>
    rw [apply, addObjectSensitive]
    cases hb : u.node? base with
    | none => exact .keep
    | some b =>
      by_cases halloc : b.isAlloc
      · simp only [halloc, if_true]
        exact .node _ (.qualified base b chain hb halloc)
      · simp only [halloc]
        exact .keep
  | allocField base f =>
    rw [apply, addAllocField]
    split
    · exact .keep
    · split
      · exact .node _ (.other _ (by simp [Node.isAlloc]))
      · exact .keep

/-- An addition makes one node at most. -/
theorem Made.nodes (h : Made u u') :
    u'.nodes = u.nodes ∨ ∃ r, u.Fits r ∧ u'.nodes = (u.pushNode r).2.nodes := by
  cases h with
  | keep | method | field | type => exact .inl rfl
  | mark t =>
    refine .inl ?_
    rw [markUnresolved]
    split <;> rfl
  | node r hr => exact .inr ⟨r, hr, rfl⟩

/-- Additions keep what is there. -/
theorem within_apply (a : Addition) : Within u (a.apply u) := by
  obtain h | ⟨r, -, h⟩ := (a.made (u := u)).nodes
  · exact .of_nodes h
  · exact (within_pushNode r).trans (.of_nodes h)

/-- **What holds of the allocations of every universe**: nodes carry their numbers, an
allocation that is not qualified is its own site, and every site is such an
allocation, with the name, the type and the method of those that are at it. -/
structure Sited (u : Universe) : Prop where
  size_pos : 0 < u.nodes.size
  numbered : ∀ n r, u.node? n = some r → r.id = n
  plain : ∀ n r, u.node? n = some r → r.isAlloc → r.allocKind ≠ .objectSensitive →
    r.site = n ∧ r.context = []
  sites : ∀ n r, u.node? n = some r → r.isAlloc → ∃ b, u.node? r.site = some b ∧ b.isAlloc ∧
    b.allocKind ≠ .objectSensitive ∧ b.name = r.name ∧ b.type = r.type ∧ b.method = r.method

namespace Sited

theorem of_nodes (h : u.Sited) (hnodes : u'.nodes = u.nodes) : u'.Sited := by
  have hnode : ∀ n, u'.node? n = u.node? n := fun n => by rw [node?, node?, hnodes]
  constructor
  · rw [hnodes]
    exact h.size_pos
  all_goals simp only [hnode]
  · exact h.numbered
  · exact h.plain
  · exact h.sites

theorem nextNode_ne (h : u.Sited) : u.nextNode ≠ noNode := by
  have hpos := h.size_pos
  exact Int.natCast_ne_zero.2 (by omega)

/-- The new node is found under its number. -/
theorem node?_pushNode_self (h : u.Sited) (r : Node) :
    (u.pushNode r).2.node? u.nextNode = some { r with id := u.nextNode } := by
  rw [node?_pushNode, if_pos ⟨rfl, h.nextNode_ne⟩]

/-- **A node that fits may be made**: its number is new, and its site is itself or the
site of an allocation. -/
theorem pushNode (h : u.Sited) {r : Node} (hr : u.Fits r) : (u.pushNode r).2.Sited := by
  have hwithin : Within u (u.pushNode r).2 := within_pushNode r
  have hself := h.node?_pushNode_self r
  -- a node is the new one or an old one
  have hcases : ∀ n r', (u.pushNode r).2.node? n = some r' →
      n = u.nextNode ∧ r' = { r with id := u.nextNode } ∨ u.node? n = some r' := by
    intro n r' hr'
    rw [node?_pushNode] at hr'
    split at hr'
    · next heq => exact .inl ⟨heq.1, (Option.some.inj hr').symm⟩
    · exact .inr hr'
  refine ⟨by simp [Universe.pushNode], fun n r' hr' => ?_, fun n r' hr' halloc hkind => ?_,
    fun n r' hr' halloc => ?_⟩
  · obtain ⟨rfl, rfl⟩ | hold := hcases n r' hr'
    · rfl
    · exact h.numbered n r' hold
  · obtain ⟨rfl, rfl⟩ | hold := hcases n r' hr'
    · cases hr with
      | other _ hr => exact absurd halloc hr
      | site _ kind _ hrole => simp [Node.site, Node.context, hrole]
      | qualified => exact absurd rfl hkind
    · exact h.plain n r' hold halloc hkind
  · obtain ⟨rfl, rfl⟩ | hold := hcases n r' hr'
    · cases hr with
      | other _ hr => exact absurd halloc hr
      | site _ kind hkind hrole =>
        have hsite : r.site = u.nextNode := by simp [Node.site, hrole]
        refine ⟨{ r with id := u.nextNode }, ?_, halloc, ?_, rfl, rfl, rfl⟩
        · exact (congrArg _ hsite).trans hself
        · simpa [Node.allocKind, hrole] using hkind
      | qualified base b chain hb hbase =>
        obtain ⟨s, hs, hsite⟩ := h.sites base b hb hbase
        exact ⟨s, hwithin _ _ hs, hsite⟩
    · obtain ⟨s, hs, hsite⟩ := h.sites n r' hold halloc
      exact ⟨s, hwithin _ _ hs, hsite⟩

/-- Every addition makes nodes that fit, if it makes any. -/
theorem apply (h : u.Sited) (a : Addition) : (a.apply u).Sited := by
  obtain hnodes | ⟨r, hr, hnodes⟩ := (a.made (u := u)).nodes
  · exact h.of_nodes hnodes
  · exact (h.pushNode hr).of_nodes hnodes

end Sited

theorem sited_empty : empty.Sited := by
  have hnone : ∀ (n : Int) r, empty.node? n ≠ some r := by
    intro n r hr
    have hbounds := node?_bounds hr
    have hsize : empty.nodes.size = 1 := rfl
    omega
  exact ⟨by decide, fun n r hr => absurd hr (hnone n r), fun n r hr => absurd hr (hnone n r),
    fun n r hr => absurd hr (hnone n r)⟩

/-- **What additions build from nothing is in order.** -/
theorem sited_applyAll (as : List Addition) : (Addition.applyAll .empty as).Sited :=
  foldl_run (fun _ (u : Universe) => u.Sited) sited_empty fun _ a _ _ h => h.apply a

/-- The numbers of the nodes and of their chains are words. -/
def Words (u : Universe) : Prop :=
  ∀ n r, u.node? n = some r → IsWord n ∧ ∀ s ∈ r.context, IsWord s

/-- It is enough that the nodes are not too many, and that their chains hold words. -/
theorem words_of_nodes (hsize : (u.nodes.size : Int) ≤ 2 ^ 63)
    (h : ∀ r ∈ u.nodes.toList, ∀ s ∈ r.context, IsWord s) : u.Words := by
  intro n r hr
  obtain ⟨-, hslot⟩ := node?_eq_some.1 hr
  obtain ⟨h0, hlt⟩ := slot?_bounds hslot
  have hmem := List.mem_of_getElem? ((Array.getElem?_toList).trans (slot?_eq_some.1 hslot).2)
  exact ⟨⟨Int.le_trans (by decide) h0, Int.lt_of_lt_of_le hlt hsize⟩, h r hmem⟩

/-- What has become of the universe bounds what was there before. -/
theorem Words.of_within (h : u'.Words) (hw : Within u u') : u.Words := fun n r hr =>
  h n r (hw n r hr)

end Universe

/-! ## Records -/

namespace HeapTable

open Universe

variable {t t' : HeapTable} {u u' : Universe} {b : Node} {chain : List NodeId}

section Indexes

variable {κ : Type} [BEq κ] [LawfulBEq κ] {index : Assoc κ Nat} {f : ContextRecord → κ}
  {rs : List ContextRecord} {r r' : ContextRecord}

/-- The index leads from a value to the place of the record that has it, and to
nowhere if no record has it. -/
def Indexes (index : Assoc κ Nat) (f : ContextRecord → κ) (rs : List ContextRecord) : Prop :=
  ∀ k i, index.get? k = some i ↔ ∃ r, rs[i]? = some r ∧ f r = k

omit [LawfulBEq κ] in
theorem indexes_nil (f : ContextRecord → κ) : Indexes [] f [] := by
  intro k i
  constructor
  · intro hi
    cases hi
  · rintro ⟨r, hr, -⟩
    cases hr

/-- **A record at the end is indexed** by its value, if no other record has that. -/
theorem Indexes.append (h : Indexes index f rs) (hnew : index.get? (f r) = none) :
    Indexes (index.set (f r) rs.length) f (rs ++ [r]) := by
  intro k i
  by_cases hk : k = f r
  · subst hk
    rw [Assoc.get?_set_self]
    constructor
    · intro hi
      obtain rfl := Option.some.inj hi
      exact ⟨r, List.getElem?_concat_length, rfl⟩
    · rintro ⟨r', hr', heq⟩
      obtain hlt | hge := Nat.lt_or_ge i rs.length
      · -- an older record has another value
        rw [List.getElem?_append_left hlt] at hr'
        rw [(h (f r) i).2 ⟨r', hr', heq⟩] at hnew
        cases hnew
      · have hlen := (List.getElem?_eq_some_iff.1 hr').1
        rw [List.length_append, List.length_singleton] at hlen
        rw [Option.some.injEq]
        omega
  · rw [Assoc.get?_set_ne _ _ hk, h]
    constructor
    · rintro ⟨r', hr', heq⟩
      have hlt := (List.getElem?_eq_some_iff.1 hr').1
      exact ⟨r', by rw [List.getElem?_append_left hlt, hr'], heq⟩
    · rintro ⟨r', hr', rfl⟩
      refine ⟨r', ?_, rfl⟩
      obtain hlt | hge := Nat.lt_or_ge i rs.length
      · rwa [List.getElem?_append_left hlt] at hr'
      · rw [List.getElem?_append_right hge, List.getElem?_singleton] at hr'
        split at hr'
        · cases hr'
          exact absurd rfl hk
        · cases hr'

omit [LawfulBEq κ] in
/-- Every record is found by its value. -/
theorem Indexes.exists_of_mem (h : Indexes index f rs) (hr : r ∈ rs) :
    ∃ i, index.get? (f r) = some i ∧ rs[i]? = some r := by
  obtain ⟨i, hi⟩ := List.getElem?_of_mem hr
  exact ⟨i, (h _ i).2 ⟨r, hi, rfl⟩, hi⟩

omit [LawfulBEq κ] in
/-- An index tells records apart by their values. -/
theorem Indexes.eq_of_mem (h : Indexes index f rs) (hr : r ∈ rs) (hr' : r' ∈ rs)
    (heq : f r = f r') : r = r' := by
  obtain ⟨i, hi, hget⟩ := h.exists_of_mem hr
  obtain ⟨i', hi', hget'⟩ := h.exists_of_mem hr'
  obtain rfl : i = i' := Option.some.inj (hi.symm.trans (heq ▸ hi'))
  exact Option.some.inj (hget.symm.trans hget')

omit [LawfulBEq κ] in
/-- A value of no record leads nowhere. -/
theorem Indexes.eq_none (h : Indexes index f rs) {k : κ} (hk : ∀ r ∈ rs, f r ≠ k) :
    index.get? k = none := by
  rw [Option.eq_none_iff_forall_ne_some]
  intro i hi
  obtain ⟨r, hr, heq⟩ := (h k i).1 hi
  exact hk r (List.mem_of_getElem? hr) heq

end Indexes

/-- The key a record is found by. -/
def keyOf (r : ContextRecord) : List UInt8 := recordKey r.site r.context

/-- **The records, the two indexes and the universe speak of the same
allocations.** -/
structure Consistent (t : HeapTable) (u : Universe) : Prop where
  byKey : Indexes t.byKey keyOf t.records
  byNode : Indexes t.byNode (·.node) t.records
  qualified : ∀ r ∈ t.records, u.Qualifies r.node r.site r.context

namespace Consistent

theorem within (h : t.Consistent u) (hw : Within u u') : t.Consistent u' :=
  ⟨h.byKey, h.byNode, fun r hr => hw.qualifies (h.qualified r hr)⟩

/-- The record of a node is the one that was made with it. -/
theorem record?_eq_some (h : t.Consistent u) {n : NodeId} {r : ContextRecord} :
    t.record? n = some r ↔ r ∈ t.records ∧ r.node = n := by
  constructor
  · intro hr
    obtain ⟨i, hi, hget⟩ := Option.bind_eq_some_iff.1 hr
    obtain ⟨r', hr', hnode⟩ := (h.byNode n i).1 hi
    obtain rfl := Option.some.inj (hget.symm.trans hr')
    exact ⟨List.mem_of_getElem? hget, hnode⟩
  · rintro ⟨hr, rfl⟩
    obtain ⟨i, hi, hget⟩ := h.byNode.exists_of_mem hr
    exact Option.bind_eq_some_iff.2 ⟨i, hi, hget⟩

/-- A new record with a new key, at a new node, keeps them consistent. -/
theorem note (h : t.Consistent u) {r : ContextRecord} (hkey : t.byKey.get? (keyOf r) = none)
    (hnode : ∀ r' ∈ t.records, r'.node ≠ r.node) (hr : u.Qualifies r.node r.site r.context) :
    (t.note (keyOf r) r).Consistent u where
  byKey := h.byKey.append hkey
  byNode := h.byNode.append (h.byNode.eq_none hnode)
  qualified r' hr' := by
    obtain hold | hnew := List.mem_append.1 hr'
    · exact h.qualified r' hold
    · obtain rfl := List.mem_singleton.1 hnew
      exact hr

/-- The numbers in a record are words if those of the universe are. -/
theorem isWord (h : t.Consistent u) (hw : u.Words) {r : ContextRecord} (hr : r ∈ t.records) :
    ∀ n ∈ r.site :: r.context, IsWord n := by
  obtain ⟨s, hs, -, -, hnode⟩ := h.qualified r hr
  intro n hn
  obtain rfl | hn := List.mem_cons.1 hn
  · exact (hw _ _ hs).1
  · exact (hw _ _ hnode).2 n hn

end Consistent

/-- A table that was reset has no record. -/
theorem consistent_reset (h : Option Hierarchy) (k : Int) (types : List TypeId) (u : Universe) :
    (reset h k types).Consistent u :=
  ⟨indexes_nil _, indexes_nil _, fun _ hr => absurd hr List.not_mem_nil⟩

/-! ## Making an allocation -/

section Room

variable {α : Type} {entries width : Nat} {f : Unit → Step α} {st : HeapTable × Universe}

/-- Where there is room the step goes on. -/
theorem go_room_bind (h : entries * width ≤ addressable) :
    (room entries width >>= f).go st = (f ()).go st := by
  rw [Attempt.go_bind, room, if_pos h, Attempt.go_pure]

/-- Where there is none it stops there, and changes nothing. -/
theorem go_room_bind_of_not (h : ¬ entries * width ≤ addressable) :
    (room entries width >>= f).go st = (.error .sliceTooLong, st) := by
  rw [Attempt.go_bind, room, if_neg h, Attempt.go_throw]

end Room

/-- The key of a site and that chain can be made. -/
def KeyFits (chain : List NodeId) : Prop := (chain.length + 1) * 10 ≤ addressable

/-- What is known by its key is looked up. -/
theorem go_internChain_of_mem (hfits : KeyFits chain) (h : Indexes t.byKey keyOf t.records)
    {r : ContextRecord} (hr : r ∈ t.records) (hkey : keyOf r = recordKey b.site chain) :
    (internChain b chain).go (t, u) = (.ok r.node, (t, u)) := by
  obtain ⟨i, hi, hget⟩ := h.exists_of_mem hr
  rw [hkey] at hi
  rw [internChain, go_room_bind hfits]
  simp [Attempt.go_bind, hi, hget]

/-- What is not gets a node and a record. -/
theorem go_internChain_of_new (hfits : KeyFits chain)
    (hnew : t.byKey.get? (recordKey b.site chain) = none) (hb : u.node? b.id = some b)
    (halloc : b.isAlloc) : (internChain b chain).go (t, u) =
      (.ok u.nextNode, (t.note (keyOf ⟨u.nextNode, b.site, chain⟩) ⟨u.nextNode, b.site, chain⟩,
        (u.pushNode { b with role := .alloc .objectSensitive b.site chain }).2)) := by
  rw [internChain, go_room_bind hfits, Attempt.go_bind, Attempt.go_get]
  dsimp only
  rw [hnew]
  dsimp only
  rw [Attempt.go_bind, Attempt.go_liftM, addObjectSensitive, hb]
  simp only [halloc, if_true]
  rfl

/-- An allocation is looked up or made, whatever is in the chain. -/
theorem exists_go_internChain (hfits : KeyFits chain) (h : Indexes t.byKey keyOf t.records)
    (hb : u.node? b.id = some b) (halloc : b.isAlloc) : ∃ n t' u',
      (internChain b chain).go (t, u) = (.ok n, (t', u')) ∧ t'.depth = t.depth ∧
        t'.optedOut = t.optedOut ∧ Indexes t'.byKey keyOf t'.records := by
  match hkey : t.byKey.get? (recordKey b.site chain) with
  | none =>
    refine ⟨_, _, _, go_internChain_of_new hfits hkey hb halloc, rfl, rfl, ?_⟩
    exact Indexes.append (r := ⟨u.nextNode, b.site, chain⟩) h hkey
  | some i =>
    obtain ⟨r, hr, heq⟩ := (h _ i).1 hkey
    exact ⟨_, _, _, go_internChain_of_mem hfits h (List.mem_of_getElem? hr) heq, rfl, rfl, h⟩

/-- **What looking up or making an allocation can do**: stop and change nothing, find a
record, or make a node and note it. -/
theorem go_internChain_cases (b : Node) (chain : List NodeId) (st : HeapTable × Universe) :
    (∃ f, (internChain b chain).go st = (.error f, st)) ∨
      (∃ r ∈ st.1.records, (internChain b chain).go st = (.ok r.node, st)) ∨
      ∃ n u', st.2.addObjectSensitive b.id chain = .ok (n, u') ∧ (internChain b chain).go st =
        (.ok n, (st.1.note (recordKey b.site chain) ⟨n, b.site, chain⟩, u')) := by
  by_cases hfits : KeyFits chain
  swap
  · exact .inl ⟨_, by rw [internChain, go_room_bind_of_not hfits]⟩
  rw [internChain, go_room_bind hfits, Attempt.go_bind, Attempt.go_get]
  dsimp only
  split
  · split
    · next r hr => exact .inr (.inl ⟨r, List.mem_of_getElem? hr, rfl⟩)
    · exact .inl ⟨_, rfl⟩
  · rw [Attempt.go_bind, Attempt.go_liftM]
    match st.2.addObjectSensitive b.id chain with
    | .ok (n, u') => exact .inr (.inr ⟨n, u', rfl, rfl⟩)
    | .error f => exact .inl ⟨f, rfl⟩

/-- A table and a universe, and what became of them: no record is lost, and no node. -/
structure Later (s s' : HeapTable × Universe) : Prop where
  records : s.1.records ⊆ s'.1.records
  within : Within s.2 s'.2
  depth : s'.1.depth = s.1.depth
  optedOut : s'.1.optedOut = s.1.optedOut

theorem Later.refl (s : HeapTable × Universe) : Later s s :=
  ⟨List.Subset.refl _, .refl _, rfl, rfl⟩

/-- Nothing is lost in between. -/
theorem Later.trans {s s' s'' : HeapTable × Universe} (h : Later s s') (h' : Later s' s'') :
    Later s s'' :=
  ⟨List.Subset.trans h.records h'.records, h.within.trans h'.within, h'.depth.trans h.depth,
    h'.optedOut.trans h.optedOut⟩

/-- **Looking up or making an allocation loses nothing**, whatever comes of it. -/
theorem later_internChain (s : HeapTable × Universe) (b : Node) (chain : List NodeId) :
    Later s ((internChain b chain).go s).2 := by
  obtain ⟨f, hgo⟩ | ⟨r, -, hgo⟩ | ⟨n, u', hmade, hgo⟩ := go_internChain_cases b chain s <;> rw [hgo]
  · exact .refl s
  · exact .refl s
  · have hwithin := within_apply (u := s.2) (.objectSensitive b.id chain)
    rw [Addition.apply, hmade] at hwithin
    exact ⟨List.subset_append_left _ _, hwithin, rfl, rfl⟩

/-- **One node for one site and one chain.** An allocation is looked up by its key;
if it is new it gets a new node, and the table stays consistent. -/
theorem Consistent.internChain (h : t.Consistent u) (hs : u.Sited) (hw : u.Words) {n : NodeId}
    (hb : u.node? n = some b) (halloc : b.isAlloc) (hchain : ∀ s ∈ chain, IsWord s)
    (hfits : KeyFits chain) :
    ∃ m t' u', (HeapTable.internChain b chain).go (t, u) = (.ok m, (t', u')) ∧
      ⟨m, b.site, chain⟩ ∈ t'.records ∧ t'.Consistent u' ∧ u'.Sited := by
  obtain ⟨s, hsite, hsalloc, hskind, hname, htype, hmethod⟩ := hs.sites n b hb halloc
  have hwords : ∀ x ∈ b.site :: chain, IsWord x := by
    intro x hx
    obtain rfl | hx := List.mem_cons.1 hx
    · exact (hw _ _ hsite).1
    · exact hchain x hx
  obtain ⟨r, hr, hkey⟩ | hnone : (∃ r ∈ t.records, keyOf r = recordKey b.site chain) ∨
      ∀ r ∈ t.records, keyOf r ≠ recordKey b.site chain := by
    by_cases hex : ∃ r ∈ t.records, keyOf r = recordKey b.site chain
    · exact .inl hex
    · exact .inr fun r hr heq => hex ⟨r, hr, heq⟩
  · obtain ⟨hrsite, hrchain⟩ := recordKey_inj (h.isWord hw hr) hwords hkey
    refine ⟨r.node, t, u, go_internChain_of_mem hfits h.byKey hr hkey, ?_, h, hs⟩
    rw [← hrsite, ← hrchain]
    exact hr
  · have hnew := h.byKey.eq_none hnone
    obtain rfl : b.id = n := hs.numbered n b hb
    have hwithin : Within u
        (u.pushNode { b with role := .alloc .objectSensitive b.site chain }).2 :=
      within_pushNode _
    refine ⟨_, _, _, go_internChain_of_new hfits hnew hb halloc,
      List.mem_append_right _ List.mem_cons_self,
      (h.within hwithin).note hnew (fun r hr => ?_) ?_,
      hs.pushNode (.qualified _ b chain hb halloc)⟩
    · obtain ⟨_, -, -, -, hnode⟩ := h.qualified r hr
      exact node?_ne_nextNode hnode
    · refine ⟨s, hwithin _ _ hsite, hsalloc, hskind, ?_⟩
      rw [hs.node?_pushNode_self, hname, htype, hmethod]

end HeapTable

/-! ## Calls -/

namespace HeapTable

open Universe

variable {t t' : HeapTable} {u u' : Universe} {b : Node}

/-- What a table is reset to. -/
structure Setup where
  hierarchy : Option Hierarchy
  depth : Int
  /-- The types whose allocations are never qualified, nor those of their subtypes. -/
  types : List TypeId

namespace Setup

/-- The table after the reset. -/
def table (s : Setup) : HeapTable := reset s.hierarchy s.depth s.types

/-- The length of the chains. -/
def slots (s : Setup) : Nat := (s.depth - 1).toNat

/-- Allocations of the type are never qualified. -/
def OptsOut (s : Setup) (type : TypeId) : Prop :=
  ∃ o ∈ s.types, type = o ∨ ∃ h, s.hierarchy = some h ∧ type ∈ h.subtypes o

/-- Inserting the elements of a list one after the other. -/
theorem mem_foldl_insert {x : TypeId} {l out : List TypeId} :
    x ∈ l.foldl (fun out t => out.insert t) out ↔ x ∈ out ∨ x ∈ l := by
  induction l generalizing out with
  | nil => simp
  | cons y l ih =>
    rw [List.foldl_cons, ih, List.mem_insert_iff, List.mem_cons]
    exact ⟨fun h => by tauto, fun h => by tauto⟩

/-- **The table opts out what it was told to**, and the subtypes of that in its
hierarchy. -/
theorem optsOut_table {s : Setup} {type : TypeId} : s.table.optsOut type ↔ s.OptsOut type := by
  rw [HeapTable.optsOut, List.contains_iff_mem, table, reset]
  refine foldl_run (fun done out => type ∈ out ↔
    ∃ o ∈ done, type = o ∨ ∃ h, s.hierarchy = some h ∧ type ∈ h.subtypes o) (by simp) ?_
  intro done o out _ ih
  rw [mem_foldl_insert, List.mem_insert_iff, ih]
  cases s.hierarchy <;> simp <;> grind

instance (s : Setup) (type : TypeId) : Decidable (s.OptsOut type) :=
  decidable_of_iff _ optsOut_table

/-- The chains are one shorter than the depth, and empty where that is not positive. -/
theorem depth_table (s : Setup) : s.table.depth - 1 = s.slots := by
  show (max s.depth 1).toNat - 1 = (s.depth - 1).toNat
  omega

/-- Chains of that length can be made. -/
def ChainsFit (s : Setup) : Prop := s.slots * 8 ≤ addressable

/-- The keys of such chains can be made. -/
def KeysFit (s : Setup) : Prop := (s.slots + 1) * 10 ≤ addressable

instance (s : Setup) : Decidable s.ChainsFit :=
  inferInstanceAs (Decidable (s.slots * 8 ≤ addressable))

instance (s : Setup) : Decidable s.KeysFit :=
  inferInstanceAs (Decidable ((s.slots + 1) * 10 ≤ addressable))

/-- A key takes more than its chain. -/
theorem KeysFit.chainsFit {s : Setup} (h : s.KeysFit) : s.ChainsFit := by
  unfold KeysFit at h
  unfold ChainsFit
  omega

theorem keyFits_iff {s : Setup} {chain : List NodeId} (h : chain.length = s.slots) :
    KeyFits chain ↔ s.KeysFit := by
  rw [KeyFits, h, KeysFit]

end Setup

/-- A request for a qualified allocation of the site of `base`, made by a method
whose receiver is the allocation `enclosing`, if it has a receiver. -/
structure Call where
  base : NodeId
  enclosing : Option NodeId
  deriving DecidableEq, Repr

namespace Call

/-- What the table does. -/
def step (c : Call) : Step NodeId :=
  match c.enclosing with
  | some e => qualify c.base e
  | none => qualifyContextless c.base

/-- What is qualified is an allocation, and so is what qualifies it, unless it does
not matter. -/
def Proper (c : Call) (s : Setup) (u : Universe) : Prop :=
  u.HasAlloc c.base ∧
    ∀ e, c.enclosing = some e → s.OptsOut (u.typeOf c.base) ∨ u.HasAlloc e

/-- The table has an answer: it is asked for something proper, and is not too deep to
make a chain and its key. -/
def Valid (c : Call) (s : Setup) (u : Universe) : Prop := c.Proper s u ∧ s.KeysFit

/-- The sites that enclose the allocation, closest first. -/
def sites (c : Call) (s : Setup) (u : Universe) : List NodeId :=
  match c.enclosing with
  | some e => if s.OptsOut (u.typeOf c.base) then [] else u.lineage e
  | none => []

/-- The chain the allocation is made under: the closest sites, and empty slots
where there are not so many. -/
def chain (c : Call) (s : Setup) (u : Universe) : List NodeId :=
  (List.range s.slots).map fun i => (c.sites s u).getD i noNode

end Call

/-- A chain that was made to fit has all slots of the table. -/
theorem length_fit (t : HeapTable) (sites : List NodeId) :
    (t.fit sites).length = t.depth - 1 := by
  simp [fit]
  omega

theorem length_chainOf (t : HeapTable) (e : Node) : (t.chainOf e).length = t.depth - 1 := by
  rw [chainOf]
  split <;> exact t.length_fit _

/-- **Slot by slot**: the sites there are, and empty slots after them. -/
theorem fit_eq (t : HeapTable) (sites : List NodeId) :
    t.fit sites = (List.range (t.depth - 1)).map fun i => sites.getD i noNode := by
  refine List.ext_getElem (by simp [length_fit]) fun i hi hi' => ?_
  simp only [fit, List.getElem_map, List.getElem_range, List.getElem_append, List.getElem_take,
    List.getElem_replicate, List.getD_eq_getElem?_getD]
  rw [List.length_map, List.length_range] at hi'
  split
  · next hlt =>
    rw [List.length_take] at hlt
    rw [List.getElem?_eq_getElem (by omega), Option.getD_some]
  · next hge =>
    rw [List.length_take] at hge
    rw [List.getElem?_eq_none (by omega), Option.getD_none]

/-- The chain under a receiver starts with the receiver's own site. -/
theorem chainOf_eq (hs : u.Sited) {n : NodeId} {e : Node} (he : u.node? n = some e)
    (halloc : e.isAlloc) : t.chainOf e = t.fit (u.lineage n) := by
  rw [lineage, he, Option.map_some, Option.getD_some, chainOf]
  split
  · rfl
  all_goals
    next hkind =>
    obtain ⟨-, hcontext⟩ := hs.plain n e he halloc (by simp [hkind])
    rw [hcontext]

/-- A step on an allocation goes on with its node. -/
theorem go_allocation_bind {α : Type} {n : NodeId} {f : Node → Step α} (hb : u.node? n = some b)
    (halloc : b.isAlloc) : (allocation n >>= f).go (t, u) = (f b).go (t, u) := by
  simp [Attempt.go_bind, allocation, hb, halloc]

/-- A step on anything else stops there. -/
theorem go_allocation_bind_of_not {α : Type} {n : NodeId} {f : Node → Step α}
    (h : ¬ u.HasAlloc n) :
    (allocation n >>= f).go (t, u) = (.error (.notAllocation n), (t, u)) := by
  rw [hasAlloc_iff] at h
  match hb : u.node? n with
  | none => simp [Attempt.go_bind, allocation, hb]
  | some b =>
    have halloc : ¬ b.isAlloc := by simpa [hb] using h
    simp [Attempt.go_bind, allocation, hb, halloc]

/-- The table has the depth and the types that it was reset to. -/
def SetTo (t : HeapTable) (s : Setup) : Prop :=
  t.depth = s.table.depth ∧ t.optedOut = s.table.optedOut

/-- What is never qualified is a matter of the reset. -/
theorem SetTo.optsOut {s : Setup} (h : t.SetTo s) {type : TypeId} :
    t.optsOut type ↔ s.OptsOut type := by
  rw [HeapTable.optsOut, h.2]
  exact Setup.optsOut_table

theorem SetTo.slots {s : Setup} (h : t.SetTo s) : t.depth - 1 = s.slots := by
  rw [h.1, s.depth_table]

theorem SetTo.fit_eq {s : Setup} (h : t.SetTo s) (sites : List NodeId) :
    t.fit sites = (List.range s.slots).map fun i => sites.getD i noNode := by
  rw [HeapTable.fit_eq, h.slots]

namespace Call

variable {c : Call} {s : Setup}

section Chain

variable {α : Type} {f : HeapTable × Universe → Step α} {n : NodeId}

/-- A chain is made before anything else is looked at. -/
theorem go_chain_bind (ht : t.SetTo s) (hfit : s.ChainsFit) :
    (get >>= fun st => room (st.1.depth - 1) 8 >>= fun _ => f st).go (t, u) =
      (f (t, u)).go (t, u) := by
  rw [Attempt.go_bind, Attempt.go_get]
  exact go_room_bind (ht.slots.symm ▸ hfit)

/-- Without room for it the step stops, whatever would come next. -/
theorem go_chain_bind_of_not (ht : t.SetTo s) (hfit : ¬ s.ChainsFit) :
    (get >>= fun st => room (st.1.depth - 1) 8 >>= fun _ => f st).go (t, u) =
      (.error .sliceTooLong, (t, u)) := by
  rw [Attempt.go_bind, Attempt.go_get]
  exact go_room_bind_of_not (ht.slots.symm ▸ hfit)

end Chain

/-- A proper call looks its site and its chain up, if the chain can be made. -/
theorem go_step (ht : t.SetTo s) (hc : c.Proper s u) (hfit : s.ChainsFit) :
    ∃ b chain, u.node? c.base = some b ∧ b.isAlloc ∧ chain.length = s.slots ∧
      c.step.go (t, u) = (internChain b chain).go (t, u) ∧ (u.Sited → chain = c.chain s u) := by
  obtain ⟨⟨b, hb, halloc⟩, hencl⟩ := hc
  have htype : u.typeOf c.base = b.type := by rw [typeOf, hb]
  obtain ⟨base, _ | e⟩ := c
  · refine ⟨b, t.fit [], hb, halloc, (t.length_fit _).trans ht.slots, ?_, fun _ => ht.fit_eq []⟩
    show (qualifyContextless base).go (t, u) = _
    rw [qualifyContextless, go_allocation_bind hb halloc]
    exact go_chain_bind ht hfit
  · have hgo : (Call.mk base (some e)).step.go (t, u) = (qualify base e).go (t, u) := rfl
    rw [qualify, go_allocation_bind hb halloc] at hgo
    replace hgo := hgo.trans (go_chain_bind ht hfit)
    by_cases hout : s.OptsOut b.type
    · refine ⟨b, t.fit [], hb, halloc, (t.length_fit _).trans ht.slots, ?_, fun _ => ?_⟩
      · simpa only [ht.optsOut.2 hout, if_true] using hgo
      · rw [ht.fit_eq, chain, sites]
        simp only [htype, hout, if_true]
    · obtain ⟨r, hr, hrealloc⟩ := (hencl e rfl).resolve_left (htype ▸ hout)
      have hin : t.optsOut b.type = false := Bool.eq_false_iff.2 (mt ht.optsOut.1 hout)
      refine ⟨b, t.chainOf r, hb, halloc, (t.length_chainOf r).trans ht.slots, ?_, fun hs => ?_⟩
      · simpa only [hin, Bool.false_eq_true, if_false, hr, hrealloc, if_true] using hgo
      · rw [chainOf_eq hs hr hrealloc, ht.fit_eq, chain, sites]
        simp only [htype, hout, if_false]

/-- The table has no answer, for that reason. -/
inductive Refused (c : Call) (s : Setup) (u : Universe) : Fault → Prop
  /-- What should be qualified is no allocation. -/
  | base (h : ¬ u.HasAlloc c.base) : Refused c s u (.notAllocation c.base)
  /-- The table is so deep that no chain can be made. -/
  | chains (h : u.HasAlloc c.base) (hfit : ¬ s.ChainsFit) : Refused c s u .sliceTooLong
  /-- What should qualify it is no allocation, and matters. -/
  | enclosing {b : Node} {e : NodeId} (hb : u.node? c.base = some b) (halloc : b.isAlloc)
      (hfit : s.ChainsFit) (he : c.enclosing = some e) (hin : ¬ s.OptsOut b.type)
      (hno : ¬ u.HasAlloc e) : Refused c s u (.notEnclosing e b.text)
  /-- A chain can be made, but not its key. -/
  | keys (h : c.Proper s u) (hfit : s.ChainsFit) (hkeys : ¬ s.KeysFit) :
      Refused c s u .sliceTooLong

/-- Whatever is proper is refused where the table is too deep. -/
theorem Proper.refused (hc : c.Proper s u) (hkeys : ¬ s.KeysFit) :
    c.Refused s u .sliceTooLong := by
  by_cases hfit : s.ChainsFit
  · exact .keys hc hfit hkeys
  · exact .chains hc.1 hfit

/-- **Every call is valid or there is a reason.** -/
theorem valid_or_refused (c : Call) (s : Setup) (u : Universe) :
    c.Valid s u ∨ ∃ f, c.Refused s u f := by
  by_cases hc : c.Proper s u
  · by_cases hkeys : s.KeysFit
    · exact .inl ⟨hc, hkeys⟩
    · exact .inr ⟨_, hc.refused hkeys⟩
  by_cases hbase : u.HasAlloc c.base
  swap
  · exact .inr ⟨_, .base hbase⟩
  by_cases hfit : s.ChainsFit
  swap
  · exact .inr ⟨_, .chains hbase hfit⟩
  obtain ⟨e, he, hin, hno⟩ : ∃ e, c.enclosing = some e ∧
      ¬ s.OptsOut (u.typeOf c.base) ∧ ¬ u.HasAlloc e := by simpa [Proper, hbase] using hc
  obtain ⟨b, hb, halloc⟩ := hbase
  have htype : u.typeOf c.base = b.type := by rw [typeOf, hb]
  exact .inr ⟨_, .enclosing hb halloc hfit he (htype ▸ hin) hno⟩

/-- A call that is refused stops and changes nothing. -/
theorem go_step_of_refused (ht : t.SetTo s) {f : Fault} (hf : c.Refused s u f) :
    c.step.go (t, u) = (.error f, (t, u)) := by
  cases hf with
  | base h =>
    unfold step
    split <;> exact go_allocation_bind_of_not h
  | chains h hfit =>
    obtain ⟨b, hb, halloc⟩ := h
    unfold step
    split
    · rw [qualify, go_allocation_bind hb halloc]
      exact go_chain_bind_of_not ht hfit
    · rw [qualifyContextless, go_allocation_bind hb halloc]
      exact go_chain_bind_of_not ht hfit
  | @enclosing b e hb halloc hfit he hin hno =>
    have hout : t.optsOut b.type = false := Bool.eq_false_iff.2 (mt ht.optsOut.1 hin)
    simp only [step, he]
    rw [qualify, go_allocation_bind hb halloc]
    refine (go_chain_bind ht hfit).trans ?_
    simp only [hout, Bool.false_eq_true, if_false]
    match hr : u.node? e with
    | none => rfl
    | some r =>
      have hralloc : ¬ r.isAlloc := fun hralloc => hno ⟨r, hr, hralloc⟩
      simp only [hralloc]
      rfl
  | keys h hfit hkeys =>
    obtain ⟨b, chain, -, -, hlength, hgo, -⟩ := go_step ht h hfit
    rw [hgo, internChain]
    exact go_room_bind_of_not (mt (Setup.keyFits_iff hlength).1 hkeys)

/-- So a call that is not valid has no answer, and leaves everything as it was. -/
theorem go_step_of_not_valid (ht : t.SetTo s) (hv : ¬ c.Valid s u) :
    ∃ f, c.step.go (t, u) = (.error f, (t, u)) := by
  obtain ⟨f, hf⟩ := (c.valid_or_refused s u).resolve_left hv
  exact ⟨f, go_step_of_refused ht hf⟩

/-- A call that has an answer is valid. -/
theorem valid_of_go (ht : t.SetTo s) {n : NodeId} (h : (c.step.go (t, u)).1 = .ok n) :
    c.Valid s u := by
  by_contra hv
  obtain ⟨f, hf⟩ := go_step_of_not_valid ht hv
  rw [hf] at h
  cases h

/-- The numbers in a chain are words if those of the universe are. -/
theorem isWord_chain (hs : u.Sited) (hw : u.Words) (hc : c.Proper s u) :
    ∀ n ∈ c.chain s u, IsWord n := by
  have hno : IsWord noNode := by decide
  have hsites : ∀ n ∈ c.sites s u, IsWord n := by
    intro n hn
    unfold sites at hn
    split at hn
    · next e he =>
      split at hn
      · cases hn
      · next hout =>
        obtain ⟨r, hr, halloc⟩ := (hc.2 e he).resolve_left hout
        rw [lineage, hr] at hn
        obtain rfl | hn := List.mem_cons.1 hn
        · obtain ⟨b, hb, -⟩ := hs.sites e r hr halloc
          exact (hw _ _ hb).1
        · exact (hw _ _ hr).2 n hn
    · cases hn
  intro n hn
  obtain ⟨i, -, rfl⟩ := List.mem_map.1 hn
  obtain hlt | hge := Nat.lt_or_ge i (c.sites s u).length
  · rw [List.getD_eq_getElem?_getD, List.getElem?_eq_getElem hlt]
    exact hsites _ (List.getElem_mem hlt)
  · rwa [List.getD_eq_getElem?_getD, List.getElem?_eq_none hge]

/-- A call looks up or makes one allocation, or it stops and changes nothing. -/
theorem go_step_cases (c : Call) (st : HeapTable × Universe) :
    (∃ b chain, c.step.go st = (internChain b chain).go st) ∨
      ∃ f, c.step.go st = (.error f, st) := by
  obtain ⟨t, u⟩ := st
  by_cases hbase : u.HasAlloc c.base
  · obtain ⟨b, hb, halloc⟩ := hbase
    unfold step
    split
    · rw [qualify, go_allocation_bind hb halloc, Attempt.go_bind, Attempt.go_get]
      dsimp only
      by_cases hfit : (t.depth - 1) * 8 ≤ addressable
      swap
      · exact .inr ⟨_, go_room_bind_of_not hfit⟩
      rw [go_room_bind hfit]
      split
      · exact .inl ⟨b, _, rfl⟩
      · split
        · split
          · exact .inl ⟨b, _, rfl⟩
          · exact .inr ⟨_, rfl⟩
        · exact .inr ⟨_, rfl⟩
    · rw [qualifyContextless, go_allocation_bind hb halloc, Attempt.go_bind, Attempt.go_get]
      dsimp only
      by_cases hfit : (t.depth - 1) * 8 ≤ addressable
      · exact .inl ⟨b, _, go_room_bind hfit⟩
      · exact .inr ⟨_, go_room_bind_of_not hfit⟩
  · unfold step
    split
    · exact .inr ⟨_, go_allocation_bind_of_not hbase⟩
    · exact .inr ⟨_, go_allocation_bind_of_not hbase⟩

/-- A call loses nothing. -/
theorem later_step (c : Call) (st : HeapTable × Universe) : Later st (c.step.go st).2 := by
  obtain ⟨b, chain, hgo⟩ | ⟨f, hgo⟩ := c.go_step_cases st <;> rw [hgo]
  · exact later_internChain st b chain
  · exact .refl st

end Call

/-! ## Runs -/

/-- What happens to a table and its universe. -/
inductive Event where
  | call (c : Call)
  | add (a : Addition)

/-- The table and the universe after an event. -/
def Event.next (st : HeapTable × Universe) : Event → HeapTable × Universe
  | call c => (c.step.go st).2
  | add a => (st.1, a.apply st.2)

/-- The table and the universe after the events, one after the other. -/
def after (st : HeapTable × Universe) (es : List Event) : HeapTable × Universe :=
  es.foldl Event.next st

theorem later_next (st : HeapTable × Universe) (e : Event) : Later st (e.next st) := by
  cases e with
  | call c => exact c.later_step st
  | add a => exact ⟨List.Subset.refl _, within_apply a, rfl, rfl⟩

/-- **Nothing is lost in a run.** -/
theorem later_after (st : HeapTable × Universe) (es : List Event) : Later st (after st es) :=
  foldl_run (fun _ st' => Later st st') (.refl st) fun _ e st' _ h => h.trans (later_next st' e)

/-- **What holds of a table and its universe all the time.** -/
structure Sound (s : Setup) (st : HeapTable × Universe) : Prop where
  setTo : st.1.SetTo s
  consistent : st.1.Consistent st.2
  sited : st.2.Sited

variable {s : Setup} {st : HeapTable × Universe}

/-- **What a call that has an answer does.** -/
theorem Sound.call (h : Sound s st) (hw : st.2.Words) {c : Call} (hv : c.Valid s st.2) :
    ∃ n, (c.step.go st).1 = .ok n ∧ Sound s (c.step.go st).2 ∧
      ⟨n, st.2.siteOf c.base, c.chain s st.2⟩ ∈ (c.step.go st).2.1.records := by
  have hlater := c.later_step st
  obtain ⟨t, u⟩ := st
  obtain ⟨hc, hkeys⟩ := hv
  obtain ⟨b, chain, hb, halloc, hlength, hgo, hchain⟩ := c.go_step h.setTo hc hkeys.chainsFit
  obtain rfl := hchain h.sited
  obtain ⟨n, t', u', hmade, hmem, hcons, hsited⟩ :=
    h.consistent.internChain h.sited hw hb halloc (c.isWord_chain h.sited hw hc)
      ((Setup.keyFits_iff hlength).2 hkeys)
  have hsite : u.siteOf c.base = b.site := by rw [siteOf, hb, Option.map_some, Option.getD_some]
  rw [hgo, hmade] at hlater ⊢
  exact ⟨n, rfl, ⟨⟨hlater.depth.trans h.setTo.1, hlater.optedOut.trans h.setTo.2⟩, hcons, hsited⟩,
    hsite ▸ hmem⟩

/-- **Every event keeps it**, if the numbers in the universe are words. -/
theorem Sound.next (h : Sound s st) (hw : st.2.Words) (e : Event) : Sound s (e.next st) := by
  cases e with
  | call c =>
    by_cases hv : c.Valid s st.2
    · obtain ⟨-, -, hnext, -⟩ := h.call hw hv
      exact hnext
    · obtain ⟨f, hf⟩ := c.go_step_of_not_valid h.setTo hv
      rw [Event.next, hf]
      exact h
  | add a => exact ⟨h.setTo, h.consistent.within (within_apply a), h.sited.apply a⟩

/-- It holds all along, as long as the numbers at the end are words. -/
theorem Sound.after (h : Sound s st) {es : List Event} (hw : (after st es).2.Words) :
    Sound s (after st es) := by
  induction es using List.reverseRecOn with
  | nil => exact h
  | append_singleton es e ih =>
    rw [HeapTable.after, List.foldl_append] at hw ⊢
    have hlast := hw.of_within (later_next _ e).within
    exact (ih hlast).next hlast e

/-- It holds after the reset. -/
theorem sound_start (s : Setup) (made : List Addition) :
    Sound s (s.table, Addition.applyAll .empty made) :=
  ⟨⟨rfl, rfl⟩, consistent_reset _ _ _ _, sited_applyAll made⟩

/-- The call is one of the events, and is made in that state. -/
def MadeIn (start : HeapTable × Universe) (es : List Event) (c : Call)
    (st : HeapTable × Universe) : Prop :=
  ∃ done rest, es = done ++ .call c :: rest ∧ st = after start done

/-- **Qualified allocations are canonical.** A call has an answer exactly if it is valid,
and one that has none changes nothing. Every answer is a qualified allocation of
the site and under the chain that the call asked for, and two answers are one
node exactly if they are for one site and one chain. -/
theorem answers_canonical (s : Setup) (made : List Addition) (es : List Event)
    (hw : (after (s.table, Addition.applyAll .empty made) es).2.Words) :
    let start := (s.table, Addition.applyAll .empty made)
    let last := after start es
    (∀ c st, MadeIn start es c st →
      (c.Valid s st.2 → ∃ n, (c.step.go st).1 = .ok n ∧
        last.2.Qualifies n (st.2.siteOf c.base) (c.chain s st.2) ∧
        last.1.record? n = some ⟨n, st.2.siteOf c.base, c.chain s st.2⟩) ∧
      (¬ c.Valid s st.2 → ∃ f, c.step.go st = (.error f, st))) ∧
    ∀ c c' st st' n n', MadeIn start es c st → MadeIn start es c' st' →
      (c.step.go st).1 = .ok n → (c'.step.go st').1 = .ok n' →
      (n = n' ↔ st.2.siteOf c.base = st'.2.siteOf c'.base ∧
        c.chain s st.2 = c'.chain s st'.2) := by
  intro start last
  have hlast : Sound s last := (sound_start s made).after hw
  -- the state of a call is sound, and what the call leaves is there at the end
  have hsound : ∀ c st, MadeIn start es c st →
      st.2.Words ∧ Sound s st ∧ Later (c.step.go st).2 last := by
    rintro c st ⟨done, rest, hes, rfl⟩
    have hend : last = after ((Event.call c).next (after start done)) rest := by
      simp only [last, hes, after, List.foldl_append, List.foldl_cons]
    have hlater := hend ▸ later_after ((Event.call c).next (after start done)) rest
    have hwords := hw.of_within ((later_next _ (.call c)).trans hlater).within
    exact ⟨hwords, (sound_start s made).after hwords, hlater⟩
  have hanswer : ∀ c st, MadeIn start es c st → c.Valid s st.2 → ∃ n, (c.step.go st).1 = .ok n ∧
      ⟨n, st.2.siteOf c.base, c.chain s st.2⟩ ∈ last.1.records := by
    intro c st hmade hv
    obtain ⟨hwords, hst, hlater⟩ := hsound c st hmade
    obtain ⟨n, hn, -, hmem⟩ := hst.call hwords hv
    exact ⟨n, hn, hlater.records hmem⟩
  have hrecord : ∀ c st n, MadeIn start es c st → (c.step.go st).1 = .ok n →
      ⟨n, st.2.siteOf c.base, c.chain s st.2⟩ ∈ last.1.records := by
    intro c st n hmade hn
    have hv := c.valid_of_go (hsound c st hmade).2.1.setTo hn
    obtain ⟨n', hn', hmem⟩ := hanswer c st hmade hv
    obtain rfl := Except.ok.inj (hn.symm.trans hn')
    exact hmem
  refine ⟨fun c st hmade => ⟨fun hv => ?_, fun hv => ?_⟩, ?_⟩
  · obtain ⟨n, hn, hmem⟩ := hanswer c st hmade hv
    exact ⟨n, hn, hlast.consistent.qualified _ hmem,
      hlast.consistent.record?_eq_some.2 ⟨hmem, rfl⟩⟩
  · exact c.go_step_of_not_valid (hsound c st hmade).2.1.setTo hv
  · intro c c' st st' n n' hmade hmade' hn hn'
    have hmem := hrecord c st n hmade hn
    have hmem' := hrecord c' st' n' hmade' hn'
    constructor
    · rintro rfl
      have heq := hlast.consistent.byNode.eq_of_mem hmem hmem' rfl
      exact ⟨congrArg (·.site) heq, congrArg (·.context) heq⟩
    · rintro ⟨hsite, hchain⟩
      rw [hsite, hchain] at hmem
      exact congrArg (·.node) (hlast.consistent.byKey.eq_of_mem hmem hmem' rfl)

/-- Depth three, and every type qualified. -/
def threeDeep : Setup := ⟨none, 3, []⟩

/-- Two sites, and an allocation of the first one under a chain of another depth. -/
def overlongMade : List Addition :=
  [.alloc "a" nullType rootMethod, .alloc "b" nullType rootMethod, .objectSensitive 1 [2, 2, 2]]

/-- Calls that qualify by the overlong chain, and that qualify what has it. -/
def overlongEvents : List Event :=
  [.call ⟨1, some 2⟩, .call ⟨2, some 3⟩, .add (.alloc "c" nullType rootMethod), .call ⟨1, some 9⟩,
    .call ⟨3, some 2⟩]

/-- The first call and the last one are for the site `1` under `2`. -/
theorem answers_canonical_overlong :
    let start := (threeDeep.table, Addition.applyAll .empty overlongMade)
    let last := after start overlongEvents
    last.2.Words ∧ ∃ n, ((Call.mk 1 (some 2)).step.go start).1 = .ok n ∧
      ((Call.mk 3 (some 2)).step.go (after start (overlongEvents.take 4))).1 = .ok n ∧
      last.2.Qualifies n 1 [2, noNode] := by
  intro start last
  have hw : last.2.Words := Universe.words_of_nodes (by decide +kernel) (by decide +kernel)
  refine ⟨hw, ?_⟩
  obtain ⟨hcalls, hsame⟩ := answers_canonical threeDeep overlongMade overlongEvents hw
  have hfirst : MadeIn start overlongEvents ⟨1, some 2⟩ start := ⟨[], _, rfl, rfl⟩
  have hfinal : MadeIn start overlongEvents ⟨3, some 2⟩ (after start (overlongEvents.take 4)) :=
    ⟨overlongEvents.take 4, _, rfl, rfl⟩
  have hkeys : threeDeep.KeysFit := by decide
  obtain ⟨n, hn, hq, -⟩ := (hcalls _ _ hfirst).1
    ⟨⟨⟨_, rfl, rfl⟩, fun e he => Option.some.inj he ▸ .inr ⟨_, rfl, rfl⟩⟩, hkeys⟩
  obtain ⟨n', hn', -⟩ := (hcalls _ _ hfinal).1
    ⟨⟨⟨_, rfl, rfl⟩, fun e he => Option.some.inj he ▸ .inr ⟨_, rfl, rfl⟩⟩, hkeys⟩
  obtain rfl : n = n' := (hsame _ _ _ _ n n' hfirst hfinal hn hn').2
    ⟨by decide +kernel, by decide +kernel⟩
  exact ⟨n, hn, hn', hq⟩

end HeapTable

end PointsTo
