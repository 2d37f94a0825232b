import PointsTo.Proofs.Freezing
import PointsTo.Proofs.Programs
/-!
# Declared calls

A description names the calls of a program by their methods, and building
the program follows them from the entry points on. Every declared call is
a call of the program (`Declared`), and the program gives them to the
builder method by method. The builder asks about every method that can be
reached but the root, so the calls that are declared for the root stay
behind, and all that only they lead to. `build_keeps_declared_iff` says
which calls are there in the end, and when none is missing.
-/

namespace PointsTo

/-! ## Methods by name -/

namespace Universe

variable {u : Universe} {m : MethodId} {name name' : String} {e : EdgeDecl} {cs : CallSite}

/-- **No two names stand for one method.** -/
theorem lookupMethod_inj (h : u.lookupMethod name = some m) (h' : u.lookupMethod name' = some m) :
    name = name' := by
  obtain ⟨k, rfl, -, a, ha, hname⟩ := position?_eq_some h
  obtain ⟨k', hk, -, a', ha', hname'⟩ := position?_eq_some h'
  obtain rfl := Int.ofNat_inj.1 hk
  obtain rfl := Option.some.inj (ha.symm.trans ha')
  exact (eq_of_beq hname).symm.trans (eq_of_beq hname')

/-- Where the first method is the root, its name is that of the root. -/
theorem lookupMethod_root (h : u.methods[0]? = some rootMethodName) :
    u.lookupMethod rootMethodName = some rootMethod := by
  obtain ⟨hlt, hget⟩ := Array.getElem?_eq_some_iff.1 h
  have hfind : (u.methods.toList.drop 0).findIdx? (· == rootMethodName) = some 0 := by
    rw [List.drop_zero, List.findIdx?_eq_some_iff_getElem]
    exact ⟨hlt, by simp [hget], fun j hj => absurd hj (Nat.not_lt_zero j)⟩
  rw [lookupMethod, position?, hfind]
  rfl

/-- The call that a declaration names. -/
def callSite? (u : Universe) (e : EdgeDecl) : Option CallSite := do
  let caller ← u.lookupMethod e.caller
  let callee ← u.lookupMethod e.callee
  pure ⟨caller, callee, e.site⟩

/-- A declared call has the ends that its names stand for, and its own site. -/
theorem callSite?_eq_some : u.callSite? e = some cs ↔
    u.lookupMethod e.caller = some cs.caller ∧ u.lookupMethod e.callee = some cs.callee ∧
      cs.site = e.site := by
  obtain ⟨caller, callee, site⟩ := cs
  simp only [callSite?, bind, Option.bind_eq_some_iff, pure, Option.some.injEq, CallSite.mk.injEq]
  constructor
  · rintro ⟨_, hcaller, _, hcallee, rfl, rfl, rfl⟩
    exact ⟨hcaller, hcallee, rfl⟩
  · rintro ⟨hcaller, hcallee, rfl⟩
    exact ⟨_, hcaller, _, hcallee, rfl, rfl, rfl⟩

/-- Only the methods matter to that. -/
theorem callSite?_congr {u' : Universe} (h : u'.methods = u.methods) (e : EdgeDecl) :
    u'.callSite? e = u.callSite? e := by
  simp only [callSite?, lookupMethod, h]

end Universe

namespace Program

open Steps

variable {p : Program} {d : Description}

/-! ## Declaring calls -/

/-- **The program has the methods and calls of a description**, of which the calls of
`edges` have been declared. -/
structure Declared (d : Description) (edges : List EdgeDecl) (p : Program) : Prop where
  orderly : p.Orderly
  description : p.description = d
  root : p.nodes.methods[0]? = some rootMethodName
  calls : edges.map p.nodes.callSite? = p.calls.map some

theorem framed_declared (d : Description) (edges : List EdgeDecl) : Framed (Declared d edges) where
  orderly _ h := h.orderly
  frame p p' h ho hdescription hmethods hcalls := by
    refine ⟨ho, hdescription.trans h.description, by rw [hmethods]; exact h.root, ?_⟩
    rw [hcalls, ← h.calls]
    exact List.map_congr_left fun e _ => Universe.callSite?_congr hmethods e

/-- **What was looked up is there**, in the program that it was looked up in. -/
theorem meets_lookup {α : Type} {E P : Program → Prop} {e : ProgramError} {f : Program → Option α}
    (hP : ∀ p, P p → E p) :
    Meets E P (get >>= fun p => orFail e (f p)) fun a p => f p = some a ∧ P p := by
  refine meets_get_bind fun p hp => (meets_orFail fun _ h => h ▸ hP p hp).mono (fun _ h => h) ?_
  rintro a _ ⟨ha, rfl⟩
  exact ⟨ha, hp⟩

theorem meets_method {E P : Program → Prop} (name : String) (hP : ∀ p, P p → E p) :
    Meets E P (method name) fun m p => p.nodes.lookupMethod name = some m ∧ P p :=
  meets_lookup hP

theorem meets_node {E P : Program → Prop} (name : String) (hP : ∀ p, P p → E p) :
    Meets E P (node name) fun n p => p.names.get? name = some n ∧ P p :=
  meets_lookup hP

/-- Both ends are looked up, the caller first. -/
theorem meets_callSite {P : Program → Prop} (e : EdgeDecl) :
    Meets P P (callSite e) fun cs p => p.nodes.callSite? e = some cs ∧ P p := by
  refine (meets_method e.caller fun _ hp => hp).bind fun caller => ?_
  refine (meets_method e.callee fun _ hp => hp.2).bind fun callee => ?_
  refine meets_pure fun p hp => ⟨?_, hp.2.2⟩
  exact Universe.callSite?_eq_some.2 ⟨hp.2.1, hp.1, rfl⟩

/-- Methods are declared before any call. -/
theorem keeps_declareMethod_declared (name : String) :
    Keeps (Declared d []) (declareMethod name) := by
  unfold declareMethod
  refine .after_ite (fun _ => keeps_throw _) (meets_modify fun p hp => ?_)
  refine ⟨hp.orderly.addMethod name, hp.description, ?_, hp.calls⟩
  dsimp only
  rw [Universe.addMethod]
  split
  · exact hp.root
  · obtain ⟨hlt, -⟩ := Array.getElem?_eq_some_iff.1 hp.root
    exact (Array.getElem?_push_lt hlt).trans ((Array.getElem?_eq_getElem hlt).symm.trans hp.root)

/-- Calls are declared one after the other. -/
theorem meets_declareEdge (done : List EdgeDecl) (e : EdgeDecl) :
    Meets (fun _ => True) (Declared d done) (declareEdge e) fun _ => Declared d (done ++ [e]) := by
  refine (meets_callSite e).loosen.bind fun cs => ?_
  refine meets_modify fun p hp => ?_
  obtain ⟨hcs, ho, hdescription, hroot, hcalls⟩ := hp
  refine ⟨⟨ho.nodes, ho.root, ho.casting⟩, hdescription, hroot, ?_⟩
  simp only [List.map_append, List.map_cons, List.map_nil, hcalls, hcs]

/-- **All calls are declared in the end.** What comes before and after them keeps this. -/
theorem meets_declare : Meets (fun _ => True) (Declared d []) declare
    fun _ => Declared d d.edges := by
  refine meets_get_bind fun p hp => ?_
  obtain rfl := hp.description
  refine Meets.pre (P := Declared p.description []) ?_ fun _ heq => heq ▸ hp
  have hnone := framed_declared p.description []
  have hall := framed_declared p.description p.description.edges
  refine (keeps_declareTypes hnone.typeFree).loosen.bind fun _ => ?_
  refine (keeps_forM (keeps_declareClass hnone.typeFree)).loosen.bind fun _ => ?_
  refine (keeps_declareRoot hnone.typeFree).loosen.bind fun _ => ?_
  refine (keeps_forM keeps_declareMethod_declared).loosen.bind fun _ => ?_
  refine (meets_forM meets_declareEdge).bind fun _ => ?_
  refine (keeps_forM (keeps_declareVariable hall)).loosen.bind fun _ => ?_
  exact (keeps_forM (keeps_declareAlloc hall)).loosen

/-- **Reading a description declares all of its calls.** -/
theorem declared_of_ofDescription {file : String} (h : ofDescription file d = .ok p) :
    Declared d d.edges p := by
  have hstart : Declared d [] { name := file, description := d } :=
    ⟨⟨Universe.sane_empty, .inl rfl, rfl⟩, rfl, rfl, rfl⟩
  exact meets_declare.of_ok hstart (ofDescription_eq_ok h)

/-- The names of the entry points: those of the description, or else those of the
configuration. -/
def entryNames (p : Program) (cfg : Config) : List String :=
  if p.description.entryPoints.isEmpty then cfg.entryPoints else p.description.entryPoints

end Program

/-! ## Building -/

namespace Builder

variable {u : Universe} {added : List CallSite} {b b' b'' : Builder}

/-- Freezing marks edges and changes no call. -/
theorem Growing.sites_of_freeze (h : Growing u added b) {r : Frozen} {disk disk' : Disk}
    (hgo : (Builder.freeze u).go (b, disk) = (.ok r, b', disk')) :
    b'.graph.sites = b.graph.sites := by
  obtain ⟨r', b₁, disk₁, hgo₁, -, hsites, -⟩ := h.freeze disk
  obtain ⟨-, hend⟩ := Prod.mk.inj (hgo₁.symm.trans hgo)
  exact (Prod.mk.inj hend).1 ▸ hsites

/-- Entry points and a build, from the beginning. -/
theorem ledger_of_build {cfg : Config} {log : Log} {h : Option Hierarchy} {names : List String}
    {R : MethodId → List CallSite}
    (hentry : (addEntryPoints u names).go (new cfg log u h).1 = (.ok (), b'))
    (hbuild : (build u R).go b' = (.ok (), b'')) :
    (∀ name ∈ names, (u.lookupMethod name).isSome) ∧
      ∃ asked, Ledger u R (entryCalls u names) [] asked b'' ∧ b''.pending = [] := by
  have hstart := ledger_new cfg log u h R
  obtain ⟨out, b₁, hgo, hg, hgrows, hall⟩ := hstart.growing.addEntryPoints names
  obtain ⟨rfl, rfl⟩ := Prod.mk.inj (hgo.symm.trans hentry)
  have hledger := hstart.grow (hg.mono fun cs hcs => absurd hcs List.not_mem_nil) hgrows
  obtain ⟨out, b₂, more, hgo', -, -, hend⟩ := hledger.build
  obtain ⟨rfl, rfl⟩ := Prod.mk.inj (hgo'.symm.trans hbuild)
  exact ⟨hall rfl, _, hend⟩

end Builder

namespace Workbench

open Steps

variable {p : Program} {b : Builder}

/-- The entry points of a description are added like those of a configuration. -/
theorem meets_addEntryPoints_go : ∀ (names : List String) (b : Builder),
    Meets (Holds (· = p)) (Holds (· = p)) (addEntryPoints.go p names b)
      fun b' w => (Builder.addEntryPoints p.nodes names).go b = (.ok (), b') ∧ Holds (· = p) w := by
  intro names
  induction names with
  | nil => exact fun b => meets_pure fun _ hw => ⟨rfl, hw⟩
  | cons name names ih =>
    intro b
    unfold addEntryPoints.go
    split
    · exact meets_throw fun _ hw => hw
    · next m hm =>
      refine (meets_mustBuild id _ b).bind fun b₁ => meets_of_and ?_
      rintro ⟨a, hgo⟩
      refine (ih b₁).mono (fun _ h => h) fun b' w h => ⟨?_, h.2⟩
      simpa [Builder.addEntryPoints, hm, Builder.Step.go_bind, hgo] using h.1

/-- The entry points are added one by one, as a builder would alone. -/
theorem meets_addEntryPoints (b : Builder) :
    Meets (Holds (· = p)) (Holds (· = p)) (addEntryPoints b)
      fun b' w => (Builder.addEntryPoints p.nodes (p.entryNames b.config)).go b = (.ok (), b') ∧
        Holds (· = p) w := by
  refine meets_get_bind fun w hw => ?_
  refine Meets.pre (P := Holds (· = p)) ?_ fun _ heq => heq ▸ hw
  obtain rfl : w.program = p := hw
  dsimp only
  rw [Program.entryNames]
  split
  · refine (meets_mustBuild id _ b).mono (fun _ h => h) ?_
    rintro b' w' ⟨⟨a, hgo⟩, hw'⟩
    exact ⟨hgo, hw'⟩
  · exact meets_addEntryPoints_go _ b

/-- Replacing blocks and offsets is no matter of the calls. -/
theorem meets_applyEncoding (g : CallGraph) (f : Frozen) :
    Meets (fun _ => True) (Holds (· = p)) (applyEncoding g f)
      fun out _ => out.1.sites = g.sites := by
  refine meets_read fun w => ?_
  split
  · exact meets_pure fun _ _ => rfl
  · refine Meets.bind (Q := fun _ _ => g.sites = g.sites) (meets_fact rfl) fun f => ?_
    refine Meets.bind (Q := fun g' _ => g'.sites = g.sites) ?_ fun g' => meets_pure fun _ h => h
    refine meets_foldlM (P := fun g' _ => g'.sites = g.sites) (fun g' d w hg' => ?_) g
    refine Meets.bind (meets_fact (P := (· = w)) hg') (fun cs => ?_) w rfl
    split
    · refine meets_pure fun _ h => Eq.trans ?_ h
      exact CallGraph.callSites_of_unmapped (Encoding.Filling.unmapped_modify_offset ..)
    · exact meets_throw fun _ _ => trivial

/-- **What building a program leaves behind**: the calls that the entry points lead to,
as a builder has found them. -/
theorem meets_build (cfg : Config) :
    Meets (fun _ => True) (Holds (· = p)) (build cfg) fun built _ =>
      (∀ name ∈ p.entryNames cfg, (p.nodes.lookupMethod name).isSome) ∧
      ∃ (b : Builder) (asked : List MethodId), built.graph.sites = b.graph.sites ∧
        Builder.Ledger p.nodes p.calleesOf
          (Builder.entryCalls p.nodes (p.entryNames cfg)) [] asked b ∧
        b.pending = [] := by
  refine meets_get_bind fun w hw => ?_
  obtain rfl : w.program = p := hw
  refine .after_ite (fun _ => meets_throw fun _ _ => trivial) ?_
  dsimp only
  refine Meets.bind (meets_set (Q := fun _ => Holds (· = w.program)) fun _ _ => rfl) fun _ => ?_
  refine (meets_addEntryPoints _).loosen.bind fun b₁ => meets_of_and fun hentry => ?_
  refine (meets_mustBuild _ _ b₁).loosen.bind fun b₂ => meets_of_and ?_
  rintro ⟨⟨⟩, hbuild⟩
  obtain ⟨hall, asked, hledger, hpending⟩ := Builder.ledger_of_build hentry hbuild
  refine (meets_freeze b₂).loosen.bind fun frozen => meets_of_and ?_
  rintro ⟨_, disk, disk', rfl, hfreeze⟩
  refine (meets_applyEncoding frozen.1.graph frozen.2).bind fun encoded => meets_of_fact ?_
  intro hsites
  -- the nodes and the facts are no matter of the graph
  refine (meets_fact trivial).bind fun _ => (meets_fact trivial).bind fun _ => ?_
  refine (meets_fact trivial).bind fun facts => (meets_fact trivial).bind fun _ => ?_
  refine meets_pure fun _ _ => ⟨hall, b₂, asked, ?_, hledger, hpending⟩
  exact hsites.trans (hledger.growing.sites_of_freeze hfreeze)

end Workbench

/-! ## Which calls are there -/

namespace Description

variable {names : List String} {edges edges' : List EdgeDecl} {name : String}

/-- What entry points and calls lead to, by name, and the root. -/
inductive Reached (names : List String) (edges : List EdgeDecl) : String → Prop
  | root : Reached names edges rootMethodName
  | entry {name : String} (h : name ∈ names) : Reached names edges name
  | called {e : EdgeDecl} (he : e ∈ edges) (h : Reached names edges e.caller) :
      Reached names edges e.callee

/-- The calls that are not declared for the root. -/
def ordinary (d : Description) : List EdgeDecl := d.edges.filter (·.caller != rootMethodName)

theorem mem_ordinary {d : Description} {e : EdgeDecl} :
    e ∈ d.ordinary ↔ e ∈ d.edges ∧ e.caller ≠ rootMethodName := by
  simp [ordinary]

/-- Calls of the root that are those of entry points lead nowhere else. -/
theorem Reached.ordinary {d : Description}
    (hroot : ∀ e ∈ d.edges, e.caller = rootMethodName → e.callee ∈ names)
    (h : Reached names d.edges name) : Reached names d.ordinary name := by
  induction h with
  | root => exact .root
  | entry hname => exact .entry hname
  | @called e he _ ih =>
    by_cases hcaller : e.caller = rootMethodName
    · exact .entry (hroot e he hcaller)
    · exact .called (mem_ordinary.2 ⟨he, hcaller⟩) ih

end Description

/-- **An entry point is called by the root.** -/
theorem Builder.mem_entryCalls {u : Universe} {names : List String} {cs : CallSite}
    (hall : ∀ name ∈ names, (u.lookupMethod name).isSome) : cs ∈ entryCalls u names ↔
      ∃ name ∈ names, ∃ m, u.lookupMethod name = some m ∧ cs = .entry m := by
  induction names with
  | nil => simp [entryCalls]
  | cons name names ih =>
    obtain ⟨hname, hnames⟩ := List.forall_mem_cons.1 hall
    obtain ⟨m, hm⟩ := Option.isSome_iff_exists.1 hname
    simp [entryCalls, hm, ih hnames]

namespace Program.Declared

open Description (Reached)

variable {p : Program} {d : Description} {names : List String} {cs : CallSite} {m : MethodId}
  (h : Declared d d.edges p)

include h

/-- The calls of the program are the declared ones. -/
theorem mem_calls : cs ∈ p.calls ↔ ∃ e ∈ d.edges, p.nodes.callSite? e = some cs := by
  have hmem : some cs ∈ p.calls.map some ↔ cs ∈ p.calls := by simp
  rw [← hmem, ← h.calls, List.mem_map]

/-- Every declared call has ends. -/
theorem exists_callSite {e : EdgeDecl} (he : e ∈ d.edges) :
    ∃ cs, p.nodes.callSite? e = some cs := by
  have hmem : p.nodes.callSite? e ∈ p.calls.map some := by
    rw [← h.calls]
    exact List.mem_map_of_mem he
  obtain ⟨cs, -, hcs⟩ := List.mem_map.1 hmem
  exact ⟨cs, hcs.symm⟩

/-- Only the name of the root stands for the root. -/
theorem caller_eq_root_iff {e : EdgeDecl} (hcs : p.nodes.callSite? e = some cs) :
    cs.caller = rootMethod ↔ e.caller = rootMethodName := by
  have hcaller := (Universe.callSite?_eq_some.1 hcs).1
  have hroot := Universe.lookupMethod_root h.root
  constructor
  · intro heq
    exact Universe.lookupMethod_inj (heq ▸ hcaller) hroot
  · intro heq
    rw [heq, hroot] at hcaller
    exact (Option.some.inj hcaller).symm

/-- The program gives the builder the calls of a method. -/
theorem mem_calleesOf (hm : m ≠ rootMethod) : cs ∈ p.calleesOf m ↔
    cs.caller = m ∧ ∃ e ∈ d.ordinary, p.nodes.callSite? e = some cs := by
  rw [calleesOf, List.mem_filter, beq_iff_eq, and_comm, h.mem_calls]
  refine and_congr_right ?_
  rintro rfl
  constructor
  · rintro ⟨e, he, hcs⟩
    refine ⟨e, Description.mem_ordinary.2 ⟨he, fun heq => hm ?_⟩, hcs⟩
    exact (h.caller_eq_root_iff hcs).2 heq
  · rintro ⟨e, he, hcs⟩
    exact ⟨e, (Description.mem_ordinary.1 he).1, hcs⟩

/-- What the builder has to reach is what the names lead to, without the calls of the
root. -/
theorem needed_iff (hall : ∀ name ∈ names, (p.nodes.lookupMethod name).isSome) :
    Builder.Needed p.calleesOf (Builder.entryCalls p.nodes names) m ↔
      ∃ name, Reached names d.ordinary name ∧ p.nodes.lookupMethod name = some m := by
  constructor
  · intro hm
    induction hm with
    | root => exact ⟨rootMethodName, .root, Universe.lookupMethod_root h.root⟩
    | added hcs =>
      obtain ⟨name, hname, m, hm, rfl⟩ := (Builder.mem_entryCalls hall).1 hcs
      exact ⟨name, .entry hname, hm⟩
    | called _ hne hcs ih =>
      obtain ⟨name, hname, hm⟩ := ih
      obtain ⟨rfl, e, he, hsite⟩ := (h.mem_calleesOf hne).1 hcs
      obtain ⟨hcaller, hcallee, -⟩ := Universe.callSite?_eq_some.1 hsite
      obtain rfl := Universe.lookupMethod_inj hm hcaller
      exact ⟨e.callee, .called he hname, hcallee⟩
  · rintro ⟨name, hname, hm⟩
    induction hname generalizing m with
    | root =>
      rw [Universe.lookupMethod_root h.root] at hm
      exact Option.some.inj hm ▸ .root
    | @entry name hname => exact .added ((Builder.mem_entryCalls hall).2 ⟨name, hname, m, hm, rfl⟩)
    | @called e he _ ih =>
      obtain ⟨hedge, hne⟩ := Description.mem_ordinary.1 he
      obtain ⟨cs, hcs⟩ := h.exists_callSite hedge
      obtain ⟨hcaller, hcallee, -⟩ := Universe.callSite?_eq_some.1 hcs
      obtain rfl := Option.some.inj (hcallee.symm.trans hm)
      have hne' : cs.caller ≠ rootMethod := fun heq => hne ((h.caller_eq_root_iff hcs).1 heq)
      exact .called (ih hcaller) hne' ((h.mem_calleesOf hne').2 ⟨rfl, e, he, hcs⟩)

/-- **The calls of a finished builder**, by the declarations that they come from. -/
theorem mem_sites_iff {b : Builder} {asked : List MethodId}
    (hall : ∀ name ∈ names, (p.nodes.lookupMethod name).isSome)
    (hledger : Builder.Ledger p.nodes p.calleesOf (Builder.entryCalls p.nodes names) [] asked b)
    (hpending : b.pending = []) : cs ∈ b.graph.sites ↔
      (∃ name ∈ names, ∃ m, p.nodes.lookupMethod name = some m ∧ cs = .entry m) ∨
      ∃ e ∈ d.ordinary, Reached names d.ordinary e.caller ∧ p.nodes.callSite? e = some cs := by
  rw [hledger.mem_sites_iff hpending, Builder.mem_entryCalls hall]
  refine or_congr_right ?_
  simp only [hledger.mem_iff_needed hpending, h.needed_iff hall]
  constructor
  · rintro ⟨m, ⟨name, hname, hm⟩, hne, hcs⟩
    obtain ⟨rfl, e, he, hsite⟩ := (h.mem_calleesOf hne).1 hcs
    obtain rfl := Universe.lookupMethod_inj hm (Universe.callSite?_eq_some.1 hsite).1
    exact ⟨e, he, hname, hsite⟩
  · rintro ⟨e, he, hname, hsite⟩
    have hne : cs.caller ≠ rootMethod := fun heq =>
      (Description.mem_ordinary.1 he).2 ((h.caller_eq_root_iff hsite).1 heq)
    refine ⟨cs.caller, ⟨e.caller, hname, (Universe.callSite?_eq_some.1 hsite).1⟩, hne, ?_⟩
    exact (h.mem_calleesOf hne).2 ⟨rfl, e, he, hsite⟩

/-- A call that is declared for the root is the call of an entry point if it looks like
one. -/
theorem eq_entry {e : EdgeDecl} (hsite : p.nodes.callSite? e = some cs)
    (hroot : e.caller = rootMethodName) (hinstr : e.site = entrySite) : cs = .entry cs.callee := by
  have hcaller := (h.caller_eq_root_iff hsite).2 hroot
  have hsame := (Universe.callSite?_eq_some.1 hsite).2.2.trans hinstr
  calc cs = ⟨cs.caller, cs.callee, cs.site⟩ := rfl
    _ = ⟨rootMethod, cs.callee, entrySite⟩ := by rw [hcaller, hsame]

end Program.Declared

/-- **Which declared calls a built program has.** The calls of the graph are those of the
entry points and, of the declared ones, those of the methods other than the
root that can be reached without the calls that are declared for the root.
So every declared call of the root or of a method that can be reached is
there iff the calls that are declared for the root are those of its entry
points. -/
theorem Program.build_keeps_declared_iff {file : String} {d : Description} {p : Program}
    (hp : Program.ofDescription file d = .ok p) {cfg : Config} {log : Log} {disk : Disk}
    {built : BuiltProgram} {w : Workbench}
    (hbuilt : (Workbench.build cfg).go ⟨p, log, disk⟩ = (.ok built, w)) :
    let names := p.entryNames cfg
    p.description = d ∧
    (∀ cs, cs ∈ built.graph.sites ↔
      (∃ name ∈ names, ∃ m, p.nodes.lookupMethod name = some m ∧ cs = .entry m) ∨
      ∃ e ∈ d.ordinary, Description.Reached names d.ordinary e.caller ∧
        p.nodes.callSite? e = some cs) ∧
    ((∀ e ∈ d.edges, Description.Reached names d.edges e.caller →
        ∃ cs ∈ built.graph.sites, p.nodes.callSite? e = some cs) ↔
      ∀ e ∈ d.edges, e.caller = rootMethodName → e.callee ∈ names ∧ e.site = entrySite) := by
  intro names
  have h := declared_of_ofDescription hp
  obtain ⟨hall, b, asked, hgraph, hledger, hpending⟩ :=
    (Workbench.meets_build cfg).of_ok (s := ⟨p, log, disk⟩) rfl hbuilt
  have hsites : ∀ cs, cs ∈ built.graph.sites ↔
      (∃ name ∈ names, ∃ m, p.nodes.lookupMethod name = some m ∧ cs = .entry m) ∨
      ∃ e ∈ d.ordinary, Description.Reached names d.ordinary e.caller ∧
        p.nodes.callSite? e = some cs := fun cs => by
    rw [hgraph]
    exact h.mem_sites_iff hall hledger hpending
  refine ⟨h.description, hsites, fun hkept e he hroot => ?_, fun hentries e he hreached => ?_⟩
  · obtain ⟨cs, hcs, hsite⟩ := hkept e he (hroot ▸ .root)
    obtain ⟨hcaller, hcallee, hinstr⟩ := Universe.callSite?_eq_some.1 hsite
    rcases (hsites cs).1 hcs with ⟨name, hname, m, hm, rfl⟩ | ⟨e', he', -, hsite'⟩
    · obtain rfl := Universe.lookupMethod_inj hm hcallee
      exact ⟨hname, hinstr.symm⟩
    · have hcaller' := (h.caller_eq_root_iff hsite).2 hroot
      exact absurd ((h.caller_eq_root_iff hsite').1 hcaller') (Description.mem_ordinary.1 he').2
  · obtain ⟨cs, hsite⟩ := h.exists_callSite he
    refine ⟨cs, (hsites cs).2 ?_, hsite⟩
    by_cases hroot : e.caller = rootMethodName
    · obtain ⟨hcallee, hinstr⟩ := hentries e he hroot
      exact .inl ⟨e.callee, hcallee, cs.callee, (Universe.callSite?_eq_some.1 hsite).2.1,
        h.eq_entry hsite hroot hinstr⟩
    · refine .inr ⟨e, Description.mem_ordinary.2 ⟨he, hroot⟩, ?_, hsite⟩
      exact hreached.ordinary fun e he hcaller => (hentries e he hcaller).1

namespace Program

/-- What a description is built into where nothing is configured. -/
def builtFrom? (d : Description) : Option (Program × BuiltProgram) :=
  match ofDescription "p.yaml" d with
  | .error _ => none
  | .ok p =>
    match (Workbench.build {}).go ⟨p, .new 0 true, {}⟩ with
    | (.ok built, _) => some (p, built)
    | (.error _, _) => none

/-- What was built from a description was declared and built. -/
theorem builtFrom?_eq_some {d : Description} {p : Program} {built : BuiltProgram}
    (h : builtFrom? d = some (p, built)) : ofDescription "p.yaml" d = .ok p ∧
      ∃ w, (Workbench.build {}).go ⟨p, .new 0 true, {}⟩ = (.ok built, w) := by
  unfold builtFrom? at h
  split at h
  · cases h
  · next hp =>
    split at h <;> cases h
    next w hbuilt => exact ⟨hp, w, hbuilt⟩

/-- A build with these calls. -/
theorem exists_build (d : Description) (sites : List CallSite)
    (h : (builtFrom? d).map (·.2.graph.sites) = some sites) :
    ∃ (p : Program) (built : BuiltProgram) (w : Workbench), ofDescription "p.yaml" d = .ok p ∧
      (Workbench.build {}).go ⟨p, .new 0 true, {}⟩ = (.ok built, w) ∧
      built.graph.sites = sites := by
  obtain ⟨⟨p, built⟩, hfrom, hsites⟩ := Option.map_eq_some_iff.1 h
  obtain ⟨hp, w, hbuilt⟩ := builtFrom?_eq_some hfrom
  exact ⟨p, built, w, hp, hbuilt, hsites⟩

/-- The call that is declared for the root is that of the entry point. -/
def loopDeclared : Description where
  methods := ["main", "a"]
  entryPoints := ["main"]
  edges := [
    { caller := rootMethodName, callee := "main", site := -1 },
    { caller := "a", callee := "main", site := 2 },
    { caller := "main", callee := "a", site := 1 }]

theorem build_keeps_declared_loop : ∃ (p : Program) (built : BuiltProgram) (w : Workbench),
    ofDescription "p.yaml" loopDeclared = .ok p ∧
      (Workbench.build {}).go ⟨p, .new 0 true, {}⟩ = (.ok built, w) ∧
      built.graph.sites = [.entry 1, ⟨1, 2, 1⟩, ⟨2, 1, 2⟩] ∧
      ∀ e ∈ loopDeclared.edges,
        Description.Reached (p.entryNames {}) loopDeclared.edges e.caller →
          ∃ cs ∈ built.graph.sites, p.nodes.callSite? e = some cs := by
  obtain ⟨p, built, w, hp, hbuilt, hsites⟩ := exists_build loopDeclared
    [.entry 1, ⟨1, 2, 1⟩, ⟨2, 1, 2⟩] (by decide +kernel)
  obtain ⟨hdescription, -, hkept⟩ := build_keeps_declared_iff hp hbuilt
  refine ⟨p, built, w, hp, hbuilt, hsites, hkept.2 ?_⟩
  have hnames : p.entryNames {} = ["main"] := by
    rw [entryNames, hdescription]
    rfl
  rw [hnames]
  decide

/-- The only call is declared for the root, and leads to no entry point. -/
def bootDeclared : Description where
  methods := ["main", "boot"]
  entryPoints := ["main"]
  edges := [{ caller := rootMethodName, callee := "boot", site := 1 }]

/-- **A declared call of the root is lost.** -/
theorem build_loses_declared : ∃ (p : Program) (built : BuiltProgram) (w : Workbench),
    ofDescription "p.yaml" bootDeclared = .ok p ∧
      (Workbench.build {}).go ⟨p, .new 0 true, {}⟩ = (.ok built, w) ∧
      built.graph.sites = [.entry 1] ∧
      ¬ ∀ e ∈ bootDeclared.edges,
        Description.Reached (p.entryNames {}) bootDeclared.edges e.caller →
          ∃ cs ∈ built.graph.sites, p.nodes.callSite? e = some cs := by
  obtain ⟨p, built, w, hp, hbuilt, hsites⟩ := exists_build bootDeclared [.entry 1]
    (by decide +kernel)
  refine ⟨p, built, w, hp, hbuilt, hsites, fun hall => ?_⟩
  obtain ⟨cs, hcs, hsite⟩ := hall _ List.mem_cons_self .root
  rw [hsites, List.mem_singleton] at hcs
  -- an entry point is called from no instruction of a program
  have hsame := (Universe.callSite?_eq_some.1 hsite).2.2
  rw [hcs] at hsame
  exact absurd hsame (by decide)

end Program

end PointsTo
