import PointsTo.Proofs.Deliveries
import PointsTo.Proofs.Faults
import PointsTo.Proofs.HeapTables
/-!
# Builds that stop with a fault

A build makes the call graph first (`ground`), and then the nodes and the
facts. Whatever the description says, the first part is clear: entry points,
blocks and offsets are looked up before they are used, and so are fields and
facts after it. What is not checked is what a heap context qualifies, and by
what, nor whether there is room for chains of the depth that is configured.
Where allocations are qualified, a build stops at the first declaration that
the table refuses, and nowhere else (`stops_build_iff`).
-/

namespace PointsTo

open Steps

namespace Workbench

variable {α : Type} {p : Program} {w : Workbench} {f : Fault} {R : Program → Prop} {b : Builder}

/-! ## The call graph -/

/-- A build up to the call graph and its encoding. -/
def ground (cfg : Config) : Step (CallGraph × Frozen) := do
  let w ← get
  let p := w.program
  if p.built.isSome then throw (.alreadyBuilt p.name)
  let (b, _) := Builder.new cfg w.log p.nodes (some p.hierarchyView)
  set { w with log := b.log }
  let b ← addEntryPoints b
  let b ← mustBuild (.whileBuilding p.name) (Builder.build p.nodes p.calleesOf) b
  let (b, f) ← freeze b
  applyEncoding b.graph f

/-- The rest of a build. -/
def finish (cfg : Config) (p : Program) (g : CallGraph) (f : Frozen) : Step BuiltProgram := do
  let table := (heapAbstraction cfg p.nodes (some p.hierarchyView)).table
  let d := p.description
  let _ ← onProgram (d.heapContexts.foldlM Program.addHeapContext table)
  onProgram (d.fields.forM Program.addFieldNode)
  let facts ← onProgram Program.recordFacts
  let built : BuiltProgram := ⟨g, f, facts, table.isSome⟩
  modify fun w =>
    { w with
      log := w.log.say .debug (p.name ++ ": " ++ toString (w.program.nodes.numNodes - 1) ++
        " nodes, " ++ toString facts.numFacts ++ " facts")
      program := { w.program with built := some built } }
  pure built

/-- A build makes its call graph first, and the rest on top of that. -/
theorem go_build (cfg : Config) (w : Workbench) : (build cfg).go w =
    (ground cfg >>= fun out => finish cfg w.program out.1 out.2).go w := by
  have hget : ∀ {β : Type} (g : Workbench → Step β), (get >>= g).go w = (g w).go w := fun _ => rfl
  unfold build ground finish
  rw [bind_assoc, hget, hget]
  by_cases hbuilt : w.program.built.isSome
  · simp only [if_pos hbuilt, bind_assoc]
    rfl
  · simp only [if_neg hbuilt, bind_assoc]
    rfl

/-- What is done to the program stops as it does on the program alone. -/
theorem stops_onProgram_iff {s : Program.Step α} : Stops (onProgram s) w f ↔
    Stops s w.program f := by
  have hgo : (StateT.run (ExceptT.run (onProgram s)) w : Except ProgramError α × Workbench) =
    ((s.go w.program).1, { w with program := (s.go w.program).2 }) := rfl
  rw [Stops, hgo]
  constructor
  · rintro ⟨e, w', h, hf⟩
    exact ⟨e, (s.go w.program).2, Prod.ext (Prod.mk.inj h).1 rfl, hf⟩
  · rintro ⟨e, p', h, hf⟩
    have hrun : s.go w.program = (.error e, p') := h
    exact ⟨e, { w with program := p' }, by rw [hrun], hf⟩

theorem steady_onProgram {s : Program.Step α} {Q : α → Program → Prop} (h : Steady R s Q) :
    Steady (Holds R) (onProgram s) fun a => Holds (Q a) :=
  ⟨fun w hw f hf => h.clear w.program hw f (stops_onProgram_iff.1 hf), meets_onProgram h.meets⟩

/-- What the builder refuses is no fault. -/
theorem steady_mustBuild {wrap : ProgramError → ProgramError}
    (hwrap : ∀ e, (wrap (.refused e)).fault? = none) (s : Builder.Step α) (b : Builder) :
    Steady (Holds R) (mustBuild wrap s b)
      fun b' w => (∃ a, s.go b = (.ok a, b')) ∧ Holds R w := by
  refine ⟨?_, (meets_mustBuild wrap s b).loosen⟩
  unfold mustBuild onBuilder
  generalize s.go b = run
  obtain ⟨r, b'⟩ := run
  refine ((clear_modify _).then fun _ => clear_pure (r, b')).then fun out => ?_
  split
  · exact clear_pure _
  · exact clear_throw (hwrap _)

/-- Entry points are added without a fault. -/
theorem steady_addEntryPoints (b : Builder) : Steady (Holds (· = p)) (addEntryPoints b)
    fun b' w => (Builder.addEntryPoints p.nodes (p.entryNames b.config)).go b = (.ok (), b') ∧
      Holds (· = p) w := by
  refine ⟨clear_read fun w => ?_, (meets_addEntryPoints b).loosen⟩
  have hgo : ∀ (names : List String) (b : Builder),
      Clear (Holds (· = p)) (addEntryPoints.go w.program names b) := by
    intro names
    induction names with
    | nil => exact fun b => clear_pure _
    | cons name names ih =>
      intro b
      unfold addEntryPoints.go
      split
      · exact clear_throw rfl
      · exact (steady_mustBuild (fun _ => rfl) _ _).clear.bind (keeps_mustBuild _ _ _) ih
  dsimp only
  split
  · exact (steady_mustBuild (fun _ => rfl) _ _).clear
  · exact hgo _ b

/-- A graph that has grown under a builder freezes without a fault. -/
theorem steady_freeze {added : List CallSite} (h : Builder.Growing p.nodes added b) :
    Steady (Holds (· = p)) (freeze b) fun out w => (∃ disk disk',
      (Builder.freeze p.nodes).go (b, disk) = (.ok out.2, out.1, disk')) ∧ Holds (· = p) w := by
  refine steady_get_bind fun w hw => ?_
  obtain rfl : w.program = p := hw
  obtain ⟨r, b', disk', hgo, -⟩ := h.freeze w.disk
  dsimp only
  rw [hgo]
  refine ⟨(clear_set _).then fun _ => clear_pure _, ?_⟩
  exact Meets.bind (Q := fun _ => Holds (· = w.program)) (meets_set fun _ _ => rfl) fun _ =>
    meets_pure fun _ hw' => ⟨⟨w.disk, disk', hgo⟩, hw'⟩

/-! ## Encodings -/

/-- The encoding serves the graph, which has the methods of the program. -/
def Encodes (p : Program) (g : CallGraph) (f : Frozen) : Prop :=
  f.encoding.Serves g ∧ p.nodes.numMethods ≤ g.size

theorem Encodes.hasMethod {g : CallGraph} {fr : Frozen} (h : Encodes p g fr) {name : String}
    {m : MethodId} (hm : p.nodes.lookupMethod name = some m) : g.hasMethod m := by
  obtain ⟨k, rfl, -, a, ha, -⟩ := Universe.position?_eq_some hm
  have hlt : k < p.nodes.methods.size := (Array.getElem?_eq_some_iff.1 ha).1
  have hle : p.nodes.methods.size ≤ g.size := h.2
  rw [CallGraph.hasMethod_iff]
  omega

/-- Blocks are replaced by blocks with contexts. -/
theorem steady_applyBlock {g : CallGraph} (fr : Frozen) (d : BlockDecl) :
    Steady (fun w => Encodes p g fr ∧ Holds (· = p) w) (applyBlock fr d)
      fun fr w => Encodes p g fr ∧ Holds (· = p) w := by
  refine steady_of_and fun h => ?_
  have hmethod : Steady (· = p) (Program.method d.method)
      fun m p' => p'.nodes.lookupMethod d.method = some m ∧ p' = p :=
    ⟨Program.clear_method _, Program.meets_method d.method fun _ _ => trivial⟩
  refine (steady_onProgram hmethod).bind fun m => .after_check rfl fun hpos => ?_
  refine Steady.pre (P := fun w => p.nodes.lookupMethod d.method = some m ∧ Holds (· = p) w)
    (steady_of_and fun hm => ?_) ?_
  · have hsize : 0 < d.size := Int64.not_le.1 fun hle => hpos (.inl hle)
    obtain ⟨enc, henc, hserves⟩ := h.1.setBlock (b := ⟨d.size, d.num⟩) (h.hasMethod hm) hsize
    simp only [henc]
    exact steady_pure fun w hw => ⟨⟨hserves, h.2⟩, hw⟩
  · rintro w ⟨hm, rfl⟩
    exact ⟨hm, rfl⟩

/-- Offsets are no matter of what is served. -/
theorem steady_applyOffset {fr : Frozen} (g : CallGraph) (d : OffsetDecl) :
    Steady (fun w => Encodes p g fr ∧ Holds (· = p) w) (applyOffset g d)
      fun g w => Encodes p g fr ∧ Holds (· = p) w := by
  refine steady_of_and fun h => ?_
  have hsite : Steady (· = p) (Program.callSite d.edge) fun _ => (· = p) :=
    ⟨Program.clear_callSite _, (Program.keeps_callSite _).loosen⟩
  refine (steady_onProgram hsite).bind fun cs => ?_
  split
  · next i hi =>
    have hcalls : (g.modifyEdge i ({ · with offset := d.offset })).unmapped = g.unmapped :=
      Encoding.Filling.unmapped_modify_offset g.edges i d.offset
    refine steady_pure fun w hw => ⟨⟨h.1.of_unmapped hcalls, ?_⟩, hw⟩
    exact Nat.le_trans h.2 (Nat.le_of_eq (CallGraph.size_of_unmapped hcalls).symm)
  · exact steady_throw rfl

/-- Blocks and offsets that are set by hand cause no fault. -/
theorem steady_applyEncoding (g : CallGraph) (fr : Frozen) :
    Steady (fun w => Encodes p g fr ∧ Holds (· = p) w) (applyEncoding g fr)
      fun out w => Encodes p out.1 out.2 ∧ Holds (· = p) w := by
  refine steady_read fun w => ?_
  split
  · exact steady_pure fun _ h => h
  · refine (steady_foldlM steady_applyBlock fr).bind fun fr => ?_
    refine Steady.bind (Q := fun g w => Encodes p g fr ∧ Holds (· = p) w)
      (steady_foldlM steady_applyOffset g) fun g => ?_
    exact steady_pure fun _ h => h

/-- **The call graph is made without a fault**, and its encoding serves it. -/
theorem steady_ground (cfg : Config) : Steady (Holds (· = p)) (ground cfg)
    fun out w => Encodes p out.1 out.2 ∧ Holds (· = p) w := by
  refine steady_get_bind fun w hw => ?_
  obtain rfl : w.program = p := hw
  refine .after_check rfl fun _ => ?_
  dsimp only
  refine Steady.bind (Q := fun _ => Holds (· = w.program))
    ⟨clear_set _, meets_set fun _ _ => rfl⟩ fun _ => ?_
  refine (steady_addEntryPoints _).bind fun b₁ => steady_of_and fun hentry => ?_
  refine (steady_mustBuild (fun _ => rfl) _ b₁).bind fun b₂ => steady_of_and ?_
  rintro ⟨⟨⟩, hbuild⟩
  obtain ⟨-, asked, hledger, -⟩ := Builder.ledger_of_build hentry hbuild
  refine (steady_freeze hledger.growing).bind fun frozen => steady_of_and ?_
  rintro ⟨disk, disk', hfreeze⟩
  exact (steady_applyEncoding frozen.1.graph frozen.2).pre fun _ hw =>
    ⟨hledger.growing.serves_of_freeze hfreeze, hw⟩

end Workbench

/-! ## Heap contexts -/

namespace HeapTable

variable {t : HeapTable} {u : Universe} {s : Setup} {c : Call} {f : Fault}

/-- The table has the depth and the types that it was reset to, and finds its
records by their keys. -/
structure Usable (t : HeapTable) (s : Setup) : Prop where
  setTo : t.SetTo s
  byKey : Indexes t.byKey keyOf t.records

theorem usable_table (s : Setup) : s.table.Usable s := ⟨⟨rfl, rfl⟩, indexes_nil _⟩

/-- A call that is valid has an answer. -/
theorem Usable.answers (h : t.Usable s) (hu : u.InOrder) (hv : c.Valid s u) :
    ∃ n t' u', c.step.go (t, u) = (.ok n, (t', u')) ∧ t'.Usable s := by
  obtain ⟨hc, hkeys⟩ := hv
  obtain ⟨b, chain, hb, halloc, hlength, hgo, -⟩ := c.go_step h.setTo hc hkeys.chainsFit
  rw [← hu.id_eq hb] at hb
  obtain ⟨n, t', u', hmade, hdepth, hout, hkey⟩ :=
    exists_go_internChain ((Setup.keyFits_iff hlength).2 hkeys) h.byKey hb halloc
  exact ⟨n, t', u', hgo.trans hmade, ⟨hdepth.trans h.setTo.1, hout.trans h.setTo.2⟩, hkey⟩

/-- **The table stops on the calls that it refuses.** -/
theorem Usable.stops_iff (h : t.Usable s) (hu : u.InOrder) :
    (c.step.go (t, u)).1 = .error f ↔ c.Refused s u f := by
  constructor
  · intro hgo
    obtain hv | ⟨f', hf'⟩ := c.valid_or_refused s u
    · obtain ⟨n, t', u', hok, -⟩ := h.answers hu hv
      rw [hok] at hgo
      cases hgo
    · rw [Call.go_step_of_refused h.setTo hf'] at hgo
      cases hgo
      exact hf'
  · intro hf
    rw [Call.go_step_of_refused h.setTo hf]

end HeapTable

/-- Qualifying an allocation leaves a table that can be used. -/
theorem HeapTable.Usable.heapContext {t : HeapTable} {s : Setup} (h : t.Usable s)
    {u u' : Universe} (hu : u.InOrder) {base receiver n : NodeId} {table : Option HeapTable}
    (hmade : PointsTo.heapContext (some t) u base receiver = .ok (n, table, u')) :
    ∃ t', table = some t' ∧ t'.Usable s := by
  rw [heapContext_some, HeapTable.run] at hmade
  generalize hc : Call.mk base (if receiver = noNode then none else some receiver) = c at hmade
  obtain hv | ⟨f, hf⟩ := c.valid_or_refused s u
  · obtain ⟨n', t', u'', hgo, ht'⟩ := h.answers hu hv
    rw [hgo] at hmade
    cases hmade
    exact ⟨t', rfl, ht'⟩
  · rw [Call.go_step_of_refused h.setTo hf] at hmade
    cases hmade

namespace Program

variable {α β : Type} {p p' : Program} {f : Fault} {P : Program → Prop} {d : HeapContextDecl}

theorem stops_onNodes_bind_iff {make : Universe → Except Fault (α × Universe)} {g : α → Step β}
    (hg : ∀ a, Clear (fun _ => True) (g a)) :
    Stops (onNodes make >>= g) p f ↔ make p.nodes = .error f := by
  rw [stops_bind_iff]
  constructor
  · rintro (⟨e, p', hrun, hf⟩ | ⟨a, p', -, hstops⟩)
    · match hmade : make p.nodes with
      | .ok (a, u) =>
        have hgo : (onNodes make).go p = (.error e, p') := hrun
        rw [go_onNodes hmade] at hgo
        cases hgo
      | .error f' =>
        have hgo : (onNodes make).go p = (.error e, p') := hrun
        rw [onNodes, go_bind, go_get] at hgo
        simp only [hmade] at hgo
        cases hgo
        exact congrArg _ (Option.some.inj hf)
    · exact absurd hstops (hg a p' trivial f)
  · intro hmade
    refine .inl ⟨.stopped f, p, ?_, rfl⟩
    show (onNodes make).go p = _
    rw [onNodes, go_bind, go_get]
    simp only [hmade]
    rfl

/-- A step that needs a node of that name. -/
theorem stops_node_bind_iff {name : String} {g : NodeId → Step β} :
    Stops (node name >>= g) p f ↔ ∃ n, p.names.get? name = some n ∧ Stops (g n) p f := by
  have hgo : (node name).go p = ((p.names.get? name).elim (.error (.unknownNode name)) .ok, p) :=
    go_lookup _ (fun p => p.names.get? name) p
  rw [stops_bind_iff, or_iff_right (clear_node (P := fun _ => True) name p trivial f)]
  constructor
  · rintro ⟨n, p', hrun, hstops⟩
    obtain ⟨hn, rfl⟩ := Prod.mk.inj (hgo.symm.trans hrun)
    match hname : p.names.get? name with
    | none =>
      rw [hname] at hn
      cases hn
    | some n' =>
      rw [hname] at hn
      cases hn
      exact ⟨n, rfl, hstops⟩
  · rintro ⟨n, hn, hstops⟩
    rw [hn] at hgo
    exact ⟨n, p, hgo, hstops⟩

/-- What an empty receiver or the name of one stands for. -/
def receiver? (p : Program) (d : HeapContextDecl) : Option NodeId :=
  if d.receiver = "" then some noNode else p.names.get? d.receiver

/-- **A heap context stops where its allocation cannot be qualified.** -/
theorem stops_addHeapContext_iff {table : Option HeapTable} : Stops (addHeapContext table d) p f ↔
    ∃ base, p.names.get? d.base = some base ∧ ∃ receiver, p.receiver? d = some receiver ∧
      heapContext table p.nodes base receiver = .error f := by
  unfold addHeapContext
  rw [stops_node_bind_iff]
  refine exists_congr fun base => and_congr_right fun _ => ?_
  extract_lets rest
  -- the name is given whatever the node is
  have hrest : ∀ receiver, Stops (rest receiver) p f ↔
      heapContext table p.nodes base receiver = .error f := by
    intro receiver
    refine (stops_onNodes_bind_iff fun out => ?_).trans ?_
    · obtain ⟨n, table⟩ := out
      dsimp only
      split
      · exact (clear_modify _).then fun _ => clear_pure _
      · refine clear_read fun p => ?_
        split
        · exact (clear_bindName _ _).then fun _ => clear_pure _
        · exact clear_pure _
    · cases heapContext table p.nodes base receiver <;> simp [Except.map]
  unfold receiver?
  split
  · simp [pure_bind, hrest]
  · rw [stops_node_bind_iff]
    exact exists_congr fun receiver => and_congr_right fun _ => hrest receiver

/-- What a declaration asks the table for, if the names in it are known. -/
def call? (p : Program) (d : HeapContextDecl) : Option HeapTable.Call := do
  let base ← p.names.get? d.base
  let receiver ← p.receiver? d
  pure ⟨base, if receiver = noNode then none else some receiver⟩

section Table

variable {s : HeapTable.Setup} {t : HeapTable}

/-- A heap context faults where the table refuses the call that it makes. -/
theorem stops_addHeapContext_some_iff (h : t.Usable s) (hp : p.Orderly) :
    Stops (addHeapContext (some t) d) p f ↔
      ∃ c, p.call? d = some c ∧ c.Refused s p.nodes f := by
  have hstops : ∀ base receiver, heapContext (some t) p.nodes base receiver = .error f ↔
      HeapTable.Call.Refused ⟨base, if receiver = noNode then none else some receiver⟩ s
        p.nodes f := by
    intro base receiver
    rw [heapContext_some, ← h.stops_iff hp.nodes.inOrder, HeapTable.run]
    generalize (HeapTable.Call.step _).go (t, p.nodes) = out
    obtain ⟨r, s'⟩ := out
    cases r <;> simp [Except.map]
  rw [stops_addHeapContext_iff]
  simp only [hstops, call?, bind, Option.bind_eq_some_iff, pure, Option.some.injEq]
  constructor
  · rintro ⟨base, hbase, receiver, hreceiver, hf⟩
    exact ⟨_, ⟨base, hbase, receiver, hreceiver, rfl⟩, hf⟩
  · rintro ⟨c, ⟨base, hbase, receiver, hreceiver, rfl⟩, hf⟩
    exact ⟨base, hbase, receiver, hreceiver, hf⟩

/-- **What a heap context does**: its name stands for the allocation then, whatever it
stood for. -/
theorem meets_addHeapContext (table : Option HeapTable) (d : HeapContextDecl) :
    Meets (fun _ => True) (· = p) (addHeapContext table d) fun table' p' =>
      ∃ base receiver n, p.names.get? d.base = some base ∧
        heapContext table p.nodes base receiver = .ok (n, table', p'.nodes) ∧
        p'.names.get? d.name = some n ∧ ∀ x, x ≠ d.name → p'.names.get? x = p.names.get? x := by
  unfold addHeapContext
  refine (meets_node d.base fun _ _ => trivial).bind fun base => meets_at ?_
  rintro p ⟨hbase, rfl⟩
  extract_lets rest
  have hrest : ∀ receiver, Meets (fun _ => True) (· = p) (rest receiver) fun table' p' =>
      ∃ base receiver n, p.names.get? d.base = some base ∧
        heapContext table p.nodes base receiver = .ok (n, table', p'.nodes) ∧
        p'.names.get? d.name = some n ∧
        ∀ x, x ≠ d.name → p'.names.get? x = p.names.get? x := by
    intro receiver
    refine Meets.bind (Q := fun out p' => ∃ u, p' = { p with nodes := u } ∧
      heapContext table p.nodes base receiver = .ok (out.1, out.2, u))
        (meets_onNodes (fun _ _ => trivial) ?_) fun out => ?_
    · rintro p' ⟨n, table'⟩ u rfl hu
      match hmade : heapContext table p'.nodes base receiver with
      | .error f => simp [hmade, Except.map] at hu
      | .ok (n', table'', u') =>
        rw [hmade] at hu
        cases hu
        exact ⟨u, rfl, rfl⟩
    · obtain ⟨n, table'⟩ := out
      refine meets_at ?_
      rintro q ⟨u, rfl, hmade⟩
      dsimp only
      split
      · refine Meets.bind (Q := fun _ q => q.nodes = u ∧ q.names = p.names.set d.name n)
          (meets_modify fun q hq => hq ▸ ⟨rfl, rfl⟩) fun _ => meets_pure ?_
        rintro q ⟨rfl, hnames⟩
        rw [hnames]
        exact ⟨base, receiver, n, hbase, hmade, Assoc.get?_set_self _ _ _,
          fun x hx => Assoc.get?_set_ne _ _ hx⟩
      · refine meets_get_bind ?_
        rintro q rfl
        dsimp only
        split
        · refine (meets_bindName d.name n).bind fun _ => meets_pure ?_
          rintro q ⟨-, rfl⟩
          exact ⟨base, receiver, n, hbase, hmade, Assoc.get?_set_self _ _ _,
            fun x hx => Assoc.get?_set_ne _ _ hx⟩
        · next hsame =>
          refine meets_pure ?_
          rintro q rfl
          exact ⟨base, receiver, n, hbase, hmade, not_not.1 hsame, fun _ _ => rfl⟩
  split
  · exact (keeps_pure _).loosen.bind hrest
  · exact (keeps_node _).loosen.bind hrest

/-- The table can be used all the time. -/
theorem meets_addHeapContext_usable (table : Option HeapTable) (d : HeapContextDecl) :
    Meets (fun _ => True) (fun p => p.Orderly ∧ ∃ t, table = some t ∧ t.Usable s)
      (addHeapContext table d) fun table' p => p.Orderly ∧ ∃ t, table' = some t ∧ t.Usable s := by
  rintro p ⟨hp, t, rfl, ht⟩
  have hkeeps := keeps_addHeapContext (some t) d p hp
  obtain ⟨table', p', hrun, htable⟩ | ⟨e, p', hrun, -⟩ :=
      (meets_addHeapContext (some t) d).cases (s := p) rfl <;> rw [hrun] at hkeeps ⊢
  · obtain ⟨base, receiver, n, -, hmade, -⟩ := htable
    exact ⟨hkeeps, ht.heapContext hp.nodes.inOrder hmade⟩
  · trivial

/-- **Where the heap contexts of a description stop**: at the first one that the table
refuses. -/
theorem stops_heapContexts_iff {l : List HeapContextDecl} (hp : p.Orderly) (ht : t.Usable s) :
    Stops (l.foldlM addHeapContext (some t)) p f ↔
      ∃ done d rest t' p' c, l = done ++ d :: rest ∧
        (done.foldlM addHeapContext (some t)).go p = (.ok (some t'), p') ∧
        p'.call? d = some c ∧ c.Refused s p'.nodes f := by
  rw [stops_foldlM_iff]
  have hreach : ∀ (done : List HeapContextDecl) table' p',
      (done.foldlM addHeapContext (some t)).go p = (.ok table', p') →
      p'.Orderly ∧ ∃ t', table' = some t' ∧ t'.Usable s := fun done table' p' hrun =>
    (meets_foldlM (fun table d => meets_addHeapContext_usable table d) (some t)).of_ok
      ⟨hp, t, rfl, ht⟩ hrun
  constructor
  · rintro ⟨done, d, rest, table', p', hl, hrun, hstops⟩
    obtain ⟨hp', t', rfl, ht'⟩ := hreach done table' p' hrun
    obtain ⟨c, hc, hf⟩ := (stops_addHeapContext_some_iff ht' hp').1 hstops
    exact ⟨done, d, rest, t', p', c, hl, hrun, hc, hf⟩
  · rintro ⟨done, d, rest, t', p', c, hl, hrun, hc, hf⟩
    obtain ⟨hp', t'', heq, ht'⟩ := hreach done (some t') p' hrun
    obtain rfl := Option.some.inj heq
    exact ⟨done, d, rest, some t', p', hl, hrun,
      (stops_addHeapContext_some_iff ht' hp').2 ⟨c, hc, hf⟩⟩

end Table

/-- Allocations that are not qualified are there already. -/
theorem steady_addHeapContext_none (table : Option HeapTable) (d : HeapContextDecl) :
    Steady (fun _ => table = none) (addHeapContext table d) fun table' _ => table' = none := by
  constructor
  · rintro p rfl f hstops
    obtain ⟨base, -, receiver, -, hf⟩ := stops_addHeapContext_iff.1 hstops
    cases hf
  · rintro p rfl
    refine ((meets_addHeapContext (p := p) none d).mono (fun _ h => h) ?_) p rfl
    rintro table' _ ⟨base, receiver, n, -, hmade, -⟩
    exact (heapContext_none hmade).2.1

/-! ## Fields and facts -/

/-- A field of an allocation that exists can be added. -/
theorem exists_addAllocField {u : Universe} {base : NodeId} {f : FieldId} (hbase : u.HasAlloc base)
    (hf : (slot? u.fields f).isSome) : ∃ out, u.addAllocField base f = .ok out := by
  obtain ⟨b, hb, -⟩ := hbase
  have hne : base ≠ noNode := by
    rintro rfl
    cases hb
  obtain ⟨field, hfield⟩ := Option.isSome_iff_exists.1 hf
  rw [Universe.node?_of_ne hne] at hb
  rw [Universe.addAllocField]
  split
  · exact ⟨_, rfl⟩
  · rw [hb, hfield]
    exact ⟨_, rfl⟩

/-- A field is there once it has been made. -/
theorem addField_spec (u : Universe) (name : String) :
    (u.addField name).2.nodes = u.nodes ∧
      (slot? (u.addField name).2.fields (u.addField name).1).isSome := by
  rw [Universe.addField]
  split
  · next f hf =>
    obtain ⟨k, rfl, -, a, ha, -⟩ := Universe.position?_eq_some hf
    have hlt := (Array.getElem?_eq_some_iff.1 ha).1
    exact ⟨rfl, slot?_isSome.2 ⟨Int.natCast_nonneg k, Int.ofNat_lt.2 hlt⟩⟩
  · refine ⟨rfl, slot?_isSome.2 ⟨Int.natCast_nonneg _, ?_⟩⟩
    dsimp only
    rw [Array.size_push]
    omega

/-- **A field node is made on an allocation**, of a field that is there. -/
theorem clear_addFieldNode (d : FieldDecl) : Clear P (addFieldNode d) := by
  refine (clear_node _).then fun alloc => ?_
  have halloc : Meets (fun _ => True) (fun _ => True) (isAlloc alloc)
      fun b p => b = (p.nodes.node? alloc).any (·.isAlloc) :=
    meets_get_bind fun p _ => meets_pure fun _ heq => heq ▸ rfl
  refine (clear_isAlloc alloc).bind halloc fun b => .after_check rfl fun hb => ?_
  refine Clear.pre (P := fun p => p.nodes.HasAlloc alloc) ?_ fun p hp => ?_
  · have hfield : Meets (fun _ => True) (fun p => p.nodes.HasAlloc alloc)
        (onNodes fun u => .ok (u.addField d.field))
        fun f p => p.nodes.HasAlloc alloc ∧ (slot? p.nodes.fields f).isSome := by
      refine meets_onNodes (fun _ _ => trivial) fun p f u hp hu => ?_
      obtain ⟨hnodes, hsome⟩ := addField_spec p.nodes d.field
      rw [Except.ok.inj hu] at hnodes hsome
      obtain ⟨r, hr, hralloc⟩ := hp
      refine ⟨⟨r, ?_, hralloc⟩, hsome⟩
      rw [Universe.node?] at hr ⊢
      rwa [hnodes]
    refine (clear_onNodes fun p _ => ⟨_, rfl⟩).bind hfield fun f => ?_
    refine (clear_onNodes fun p hp => exists_addAllocField hp.1 hp.2).then fun n => ?_
    refine clear_read fun p => ?_
    split
    · exact clear_bindName _ n
    · exact clear_pure _
  · rw [Universe.hasAlloc_iff, ← hp]
    simpa using hb

/-- Facts are recorded without a fault. -/
theorem clear_recordFacts : Clear P recordFacts := by
  have hfold : ∀ {γ : Type} {l : List γ} {g : FactStore → γ → Step FactStore} (s : FactStore),
      (∀ s a, Clear (fun _ => True) (g s a)) → Clear (fun _ => True) (l.foldlM g s) :=
    fun s h => clear_foldlM h (fun _ _ => meets_fact trivial) s
  refine clear_read fun p => Clear.pre (P := fun _ => True) ?_ fun _ _ => trivial
  refine (hfold _ fun s d => ?_).then fun s => (hfold s fun s d => ?_).then fun s =>
    hfold s fun s name => ?_
  · refine (clear_node _).then fun ptr => (clear_node _).then fun obj => ?_
    exact (clear_isAlloc obj).then fun b => .after_check rfl fun _ => clear_pure _
  · exact (clear_node _).then fun n => (clear_node _).then fun into => clear_pure _
  · exact (clear_node _).then fun n => clear_pure _

end Program

/-! ## Builds -/

namespace Program

/-- How the allocations of the program are qualified. -/
def heapSetup (p : Program) (cfg : Config) : HeapTable.Setup where
  hierarchy := some p.hierarchyView
  depth := cfg.objectSensitivity
  types := cfg.noContextClasses.filterMap p.nodes.lookupType

/-- **The description qualifies what cannot be qualified.** Allocations are qualified, and
the table has no answer for a heap context, after those before it: the reason may
be what it qualifies, what by, or the depth that is configured. -/
def Misqualifies (p : Program) (cfg : Config) (f : Fault) : Prop :=
  cfg.objectSensitive ∧ ∃ done d rest t p' c,
    p.description.heapContexts = done ++ d :: rest ∧
    (done.foldlM addHeapContext (some (p.heapSetup cfg).table)).go p = (.ok (some t), p') ∧
    p'.call? d = some c ∧ c.Refused (p.heapSetup cfg) p'.nodes f

end Program

namespace Workbench

variable {p : Program} {w : Workbench} {f : Fault} {cfg : Config}

/-- After the call graph, only the heap contexts can fault. -/
theorem stops_finish_iff (hp : w.program.Orderly) (g : CallGraph) (fr : Frozen) :
    Stops (finish cfg w.program g fr) w f ↔ w.program.Misqualifies cfg f := by
  have hclear : ∀ {α : Type} {s : Program.Step α}, Clear (fun _ => True) s →
      Clear (fun _ => True) (onProgram s) := fun h w' _ f' hf' =>
    h w'.program trivial f' (stops_onProgram_iff.1 hf')
  have hfields := hclear (clear_forM (P := fun _ => True) (l := w.program.description.fields)
    Program.clear_addFieldNode fun _ => meets_fact trivial)
  rw [finish, stops_bind_iff, stops_onProgram_iff, or_iff_left]
  swap
  · rintro ⟨table, w', -, hstops⟩
    refine (hfields.then fun _ => (hclear Program.clear_recordFacts).then fun facts => ?_) w'
      trivial f hstops
    exact (clear_modify _).then fun _ => clear_pure _
  by_cases hos : cfg.objectSensitive
  · rw [heapAbstraction, if_pos hos]
    have hloop := Program.stops_heapContexts_iff (f := f) (l := w.program.description.heapContexts)
      hp (HeapTable.usable_table (w.program.heapSetup cfg))
    rw [Program.Misqualifies, and_iff_right hos]
    exact hloop
  · rw [heapAbstraction, if_neg hos]
    have hloop := (steady_foldlM (l := w.program.description.heapContexts)
      Program.steady_addHeapContext_none none).clear w.program rfl f
    exact iff_of_false hloop fun h => hos h.1

/-- **Where a build stops with a fault**: after the call graph has been made, and where
the description qualifies what cannot be qualified. -/
theorem stops_build_iff (hp : p.Orderly) {log : Log} {disk : Disk} :
    Stops (build cfg) ⟨p, log, disk⟩ f ↔
      (∃ out w, (ground cfg).go ⟨p, log, disk⟩ = (.ok out, w)) ∧ p.Misqualifies cfg f := by
  have hground := steady_ground (p := p) cfg
  have hbuild : Stops (build cfg) ⟨p, log, disk⟩ f ↔
      Stops (ground cfg >>= fun out => finish cfg p out.1 out.2) ⟨p, log, disk⟩ f := by
    have hgo := go_build cfg ⟨p, log, disk⟩
    rw [Step.go, Step.go] at hgo
    rw [Stops, Stops, hgo]
  rw [hbuild, stops_bind_iff, or_iff_right (hground.clear ⟨p, log, disk⟩ rfl f)]
  -- the program is as it was when the graph is there
  have hsame : ∀ out w, (ground cfg).go ⟨p, log, disk⟩ = (.ok out, w) → w.program = p :=
    fun out w hrun => (hground.meets.of_ok (s := ⟨p, log, disk⟩) rfl hrun).2
  constructor
  · rintro ⟨out, w, hrun, hstops⟩
    obtain rfl := hsame out w hrun
    exact ⟨⟨out, w, hrun⟩, (stops_finish_iff hp _ _).1 hstops⟩
  · rintro ⟨⟨out, w, hrun⟩, hmis⟩
    obtain rfl := hsame out w hrun
    exact ⟨out, w, hrun, (stops_finish_iff hp _ _).2 hmis⟩

/-- **A built program is served by its encoding.** -/
theorem serves_of_build {log : Log} {disk : Disk} {built : BuiltProgram}
    (h : (build cfg).go ⟨p, log, disk⟩ = (.ok built, w)) :
    built.frozen.encoding.Serves built.graph := by
  rw [go_build] at h
  obtain ⟨out, w', hrun, hfinish⟩ := run_bind_eq_ok.1 h
  obtain ⟨⟨hserves, -⟩, -⟩ := (steady_ground cfg).meets.of_ok (s := ⟨p, log, disk⟩) rfl hrun
  have hkept : Meets (fun _ => True) (fun _ => True) (finish cfg p out.1 out.2)
      fun built _ => built.frozen = out.2 ∧ built.graph = out.1 :=
    (meets_fact trivial).bind fun _ => (meets_fact trivial).bind fun _ =>
      (meets_fact trivial).bind fun facts => (meets_fact trivial).bind fun _ =>
        meets_pure fun _ _ => ⟨rfl, rfl⟩
  obtain ⟨hfrozen, hgraph⟩ := hkept.of_ok trivial hfinish
  rwa [hfrozen, hgraph]

end Workbench

end PointsTo
