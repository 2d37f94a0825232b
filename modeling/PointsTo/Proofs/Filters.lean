import PointsTo.Proofs.Answers
import PointsTo.Proofs.Builds
/-!
# Queries that stop with a fault

A query that asks for the objects of a type casts each object it finds to the
type. No cast goes to any subtype of a type, so a query that names such a
type stops as soon as it finds an object whose cast has to be decided. That
is the only way in which a query of a built program can stop
(`run_stops_iff`). Together with what is known of builds this says where the
content of a description can make a fault, and where it cannot
(`faults_exactly`).
-/

namespace PointsTo

/-! ## Casts -/

/-- The cast is one to any subtype of a type, and has to be decided: what is cast has a
type, and not that of the null constant or one of this kind itself. -/
def Universe.Uncastable (u : Universe) (src dst : TypeId) : Prop :=
  (u.typeD dst).kind = .anySubtype ∧ src ≠ noType ∧
    (u.typeD src).kind ≠ .null ∧ (u.typeD src).kind ≠ .anySubtype

theorem castNeverFails_eq_error_iff {u : Universe} {h : Hierarchy} {src dst : TypeId} {f : Fault} :
    castNeverFails u (some h) src dst = .error f ↔ u.Uncastable src dst ∧
      f = .anySubtypeTarget (u.typeD src).name (u.typeD dst).name := by
  unfold castNeverFails
  dsimp only
  split
  · next hsame =>
    refine iff_of_false (by rintro ⟨⟩) ?_
    rintro ⟨⟨hkind, -, -, hne⟩, -⟩
    obtain rfl | rfl := hsame
    · simp [Universe.typeD] at hkind
    · exact hne hkind
  split
  · next hsrc =>
    refine iff_of_false (by rintro ⟨⟩) ?_
    rintro ⟨⟨-, hne, -⟩, -⟩
    exact hne hsrc
  next hsrc =>
  unfold decideCast
  dsimp only
  split
  · next hkind =>
    refine iff_of_false (by rintro ⟨⟩) ?_
    rintro ⟨⟨-, -, hnull, hany⟩, -⟩
    exact hkind.elim hnull hany
  split
  · next hkind =>
    refine iff_of_false (by rintro ⟨⟩) ?_
    rintro ⟨⟨hany, -⟩, -⟩
    exact absurd (hkind.symm.trans hany) (by decide)
  split
  · next hkind _ hany =>
    obtain ⟨hnull, hsub⟩ := not_or.1 hkind
    have hno : u.Uncastable src dst := ⟨hany, hsrc, hnull, hsub⟩
    rw [and_iff_right hno, Except.error.injEq, eq_comm]
  · next hany => exact iff_of_false (by rintro ⟨⟩) fun hno => hany hno.1.1

namespace Query

variable {σ : Type} {v : Visitor σ} {f : Fault} {fs : List Fact}

/-- What stops a visitor that takes facts one after the other. -/
theorem exists_of_takeAll_eq_error {s : σ} (h : ((v.takeAll fs).go s).1 = .error f) :
    ∃ x ∈ fs, ∃ s', ((v x).go s').1 = .error f := by
  induction fs generalizing s with
  | nil => cases h
  | cons x fs ih =>
    rw [Visitor.takeAll, Attempt.go_bind] at h
    generalize hx : (v x).go s = out at h
    obtain ⟨r, s'⟩ := out
    cases r with
    | error e =>
      cases h
      exact ⟨x, List.mem_cons_self, s, by rw [hx]⟩
    | ok u =>
      obtain ⟨y, hy, hstop⟩ := ih h
      exact ⟨y, List.mem_cons_of_mem _ hy, hstop⟩

/-- A fact that stops the visitor wherever it is taken stops all. -/
theorem exists_takeAll_eq_error {x : Fact} (hx : x ∈ fs)
    (hstop : ∀ s, ∃ f, ((v x).go s).1 = .error f) (s : σ) :
    ∃ f, ((v.takeAll fs).go s).1 = .error f := by
  induction fs generalizing s with
  | nil => cases hx
  | cons y fs ih =>
    rw [Visitor.takeAll, Attempt.go_bind]
    generalize hy : (v y).go s = out
    obtain ⟨r, s'⟩ := out
    cases r with
    | error e => exact ⟨e, rfl⟩
    | ok u =>
      obtain rfl | hx := List.mem_cons.1 hx
      · obtain ⟨f, hf⟩ := hstop s
        rw [hy] at hf
        cases hf
      · exact ih hx s'

end Query

namespace Program

open Query Steps

variable {p₀ p p' : Program} {b : BuiltProgram} {q : QueryDecl} {own : Querier} {f : Fault}

/-! ## What a query asks -/

theorem clear_typeOf (q : QueryDecl) : Clear (fun p => p.nodes.Sane) (typeOf q) := by
  unfold typeOf
  split
  · exact clear_pure _
  · rw [map_eq_pure_bind]
    exact (clear_type _).then fun _ => clear_pure _

theorem clear_fieldOf {P : Program → Prop} (q : QueryDecl) : Clear P (fieldOf q) := by
  unfold fieldOf
  split
  · exact clear_pure _
  · simp only [map_eq_pure_bind]
    exact clear_read fun _ => (clear_orFail rfl _).then fun _ => clear_pure _

theorem clear_approach {P : Program → Prop} (q : QueryDecl) : Clear P (approach q) := by
  unfold approach
  split
  · exact (clear_callSite _).then fun _ => clear_pure _
  · exact (clear_mapM clear_callSite).then fun _ => clear_pure _
  · exact clear_throw rfl

/-- **Finding out what to ask is clear.** -/
theorem clear_task (b : BuiltProgram) (q : QueryDecl) :
    Clear (fun p => p.nodes.Sane) (task b q) := by
  rw [task_eq]
  refine (clear_node _).bind (keeps_node _) fun ptr => (clear_typeOf q).then fun t => ?_
  refine (clear_fieldOf q).then fun f => (clear_approach q).then fun how => ?_
  exact clear_read fun p => clear_pure _

/-- The outcome of a query that cannot be asked. -/
theorem run_of_refused {e : ProgramError} (hgo : (task b q).go p = (.error e, p'))
    (he : e.fault? = none) :
    run b q own p = (.ok { query := q, error := some e }, own, p') := by
  rw [run, hgo]
  cases e with
  | stopped f => cases he
  | _ => rfl

/-! ## What a query takes -/

theorem go_sieve (u : Universe) (h : Hierarchy) (t : TypeId) (x : Fact) (fs : List Fact) :
    ((sieve u h (some t) x).go fs).1 =
      (castNeverFails u (some h) (u.typeOf x.obj) t).map fun _ => () := by
  rw [sieve, Attempt.go_bind, Attempt.go_liftM]
  cases castNeverFails u (some h) (u.typeOf x.obj) t <;> rfl

/-- **What stops a collector**: an object whose cast to the type has to be decided, where
the type stands for any subtype. -/
theorem takeAll_collector_spec (h : Queried p₀ p) {t : TypeId} (ht : p.nodes.Knows t)
    (fs : List Fact) :
    let out := ((p.collector (some t)).takeAll fs).go (p.casting, [])
    ((∃ f, out.1 = .error f) ↔ ∃ x ∈ fs, p.nodes.Uncastable (p.nodes.typeOf x.obj) t) ∧
      ∀ f, out.1 = .error f → ∃ src dst, f = .anySubtypeTarget src dst := by
  -- the collector decides what is decided from scratch
  obtain ⟨hend, -⟩ := tracks_takeAll (tracks_collector h.interned.sane (t := some t)
    (by rintro _ ⟨⟩; exact ht)) fs (p.casting, []) [] ⟨h.sound, rfl⟩
  intro out
  rw [show out.1 = _ from hend]
  have hstop : ∀ {x : Fact} {s : List Fact} {f : Fault},
      ((sieve p.nodes p.hierarchyView (some t) x).go s).1 = .error f ↔
        p.nodes.Uncastable (p.nodes.typeOf x.obj) t ∧ f = .anySubtypeTarget
          (p.nodes.typeD (p.nodes.typeOf x.obj)).name (p.nodes.typeD t).name := by
    intro x s f
    rw [go_sieve, ← castNeverFails_eq_error_iff (h := p.hierarchyView)]
    cases castNeverFails p.nodes (some p.hierarchyView) (p.nodes.typeOf x.obj) t <;>
      simp [Except.map]
  refine ⟨⟨?_, ?_⟩, ?_⟩
  · rintro ⟨f, hf⟩
    obtain ⟨x, hx, s, hxf⟩ := exists_of_takeAll_eq_error hf
    exact ⟨x, hx, (hstop.1 hxf).1⟩
  · rintro ⟨x, hx, hno⟩
    exact exists_takeAll_eq_error hx (fun s => ⟨_, hstop.2 ⟨hno, rfl⟩⟩) []
  · intro f hf
    obtain ⟨x, hx, s, hxf⟩ := exists_of_takeAll_eq_error hf
    exact ⟨_, _, (hstop.1 hxf).2⟩

/-- Without a type everything is taken. -/
theorem go_takeAll_collector_none (fs : List Fact) (c : Casting) (taken : List Fact) :
    ((p.collector none).takeAll fs).go (c, taken) = (.ok (), (c, taken ++ fs)) := by
  induction fs generalizing taken with
  | nil => simp [Visitor.takeAll]
  | cons x fs ih =>
    rw [Visitor.takeAll, Attempt.go_bind]
    exact (ih (taken ++ [x])).trans (by simp)

/-! ## Outcomes -/

/-- **The query asks for any subtype of a type, and finds an object that cannot be told
apart**: without the type it has an outcome, and the cast of an object in
there to the type has to be decided. -/
def Misfiltered (b : BuiltProgram) (q : QueryDecl) (own : Querier) (p : Program) : Prop :=
  ∃ t u out, (type q.type).go p = (.ok t, { p with nodes := u }) ∧
    (run b { q with type := "" } own p).1 = .ok out ∧
    ∃ x ∈ out.objects, u.Uncastable (u.typeOf x.obj) t

/-- A type that can be named can be asked for. -/
theorem go_typeOf_of_type {t : TypeId} (ht : (type q.type).go p = (.ok t, p')) :
    (typeOf q).go p = (.ok (if q.type = "" then none else some t), p') := by
  unfold typeOf
  split
  · next hempty =>
    rw [hempty] at ht
    cases ht
    rfl
  · rw [map_eq_pure_bind, go_bind, ht]
    rfl

theorem go_type_of_typeOf {t : TypeId} (ht : (typeOf q).go p = (.ok (some t), p')) :
    (type q.type).go p = (.ok t, p') := by
  unfold typeOf at ht
  split at ht
  · cases ht
  · rw [map_eq_pure_bind, go_bind] at ht
    generalize (type q.type).go p = run at ht
    obtain ⟨r, p''⟩ := run
    cases r <;> cases ht
    rfl

/-- **A query that can be asked** takes the facts that are handed over to it. -/
theorem run_of_handsOver {u : Universe} (hu : p.nodes.Interned u)
    {t : Option TypeId} {asked : Question} {fs : List Fact} {answer : Bool}
    (hgo : (task b q).go p = (.ok (ask (scene { p with nodes := u } b)
      (collector { p with nodes := u } t) asked), { p with nodes := u }))
    (hover : HandsOver (fun _ v => ask (p.scene b) v asked) own fs answer) :
    let out := ((collector { p with nodes := u } t).takeAll fs).go (p.casting, [])
    (run b q own p).1 =
      out.1.map fun _ => { query := q, ok := answer, objects := Fact.sorted out.2.2 } := by
  have hnodes : u.nodes = (p.scene b).nodes.nodes := hu.nodes
  have hscene : ask (scene { p with nodes := u } b) (collector { p with nodes := u } t) asked =
      ask (p.scene b) (collector { p with nodes := u } t) asked := ask_congr hnodes _ asked
  obtain ⟨own', hrun⟩ := hover _ (collector { p with nodes := u } t) (p.casting, [])
  rw [run_of_asked hgo]
  dsimp only
  rw [hscene, hrun]
  cases (((collector { p with nodes := u } t).takeAll fs).go (p.casting, [])).1 <;> rfl

/-- Whether a query can be asked at all does not depend on its type. -/
theorem question_untyped (q : QueryDecl) : question { q with type := "" } = question q := rfl

theorem typeOf_untyped (q : QueryDecl) (p : Program) :
    (typeOf { q with type := "" }).go p = (.ok none, p) := rfl

/-- A query that cannot be asked finds nothing without its type either. -/
theorem objects_of_run_untyped (h : Queried p₀ p) {e : ProgramError} {out : QueryOutcome}
    (he : ((question q).go p₀).1 = .error e)
    (hout : (run b { q with type := "" } own p).1 = .ok out) : out.objects = [] := by
  obtain ⟨u, -, ⟨e', -, hgo⟩ | ⟨asked, t, hasked, -⟩⟩ := go_task_cases h b { q with type := "" }
  · rw [run_of_refused hgo ((clear_task b _).fault? h.interned.sane hgo)] at hout
    cases hout
    rfl
  · rw [question_untyped, he] at hasked
    cases hasked

/-- Without its type a query that can be asked takes all the facts that are handed over. -/
theorem run_untyped (h : Queried p₀ p) {asked : Question} {fs : List Fact} {answer : Bool}
    (hasked : ((question q).go p₀).1 = .ok asked)
    (hover : HandsOver (fun _ v => ask (p.scene b) v asked) own fs answer) :
    (run b { q with type := "" } own p).1 =
      .ok { query := { q with type := "" }, ok := answer, objects := Fact.sorted fs } := by
  obtain ⟨u, hu, ⟨e, he, -⟩ | ⟨asked', t, hasked', htype, -, hgo⟩⟩ :=
    go_task_cases h b { q with type := "" }
  · rw [question_untyped, hasked, typeOf_untyped] at he
    rcases he with he | he <;> cases he
  · rw [question_untyped, hasked] at hasked'
    obtain rfl := Except.ok.inj hasked'
    rw [typeOf_untyped] at htype
    obtain rfl : t = none := (Except.ok.inj (Prod.mk.inj htype).1).symm
    rw [run_of_handsOver hu hgo hover, go_takeAll_collector_none]
    rfl

/-- No object is cast where no type is asked for. -/
theorem not_misfiltered_of_untyped (hempty : q.type = "") : ¬ Misfiltered b q own p := by
  rintro ⟨t, u, out, htype, -, x, -, hkind, -⟩
  rw [hempty] at htype
  obtain rfl : t = noType := (Except.ok.inj (Prod.mk.inj htype).1).symm
  simp [Universe.typeD] at hkind

/-- **Where a query stops with a fault.** -/
theorem run_stops_iff (h : Queried p₀ p) (hb : b.frozen.encoding.Serves b.graph)
    (hown : own.Ready b.frozen.encoding.graph.size) :
    ((∃ f, (run b q own p).1 = .error f) ↔ Misfiltered b q own p) ∧
      ∀ f, (run b q own p).1 = .error f → ∃ src dst, f = .anySubtypeTarget src dst := by
  obtain ⟨u, hu, ⟨e, he, hgo⟩ | ⟨asked, t, hasked, htype, hpicks, hgo⟩⟩ := go_task_cases h b q
  · -- the query cannot be asked, with its type or at all
    rw [run_of_refused hgo ((clear_task b q).fault? h.interned.sane hgo)]
    refine ⟨iff_of_false (by rintro ⟨f, ⟨⟩⟩) ?_, by rintro f ⟨⟩⟩
    rintro ⟨t, u', out, htype, hout, x, hx, -⟩
    obtain he | he := he
    · rw [objects_of_run_untyped h he hout] at hx
      cases hx
    · rw [go_typeOf_of_type htype] at he
      cases he
  have hserves : (p.scene b).encoding.Serves (p.scene b).graph := hb
  obtain ⟨fs, answer, hover⟩ := handsOver_ask hserves hown asked
  have hrun := run_of_handsOver hu hgo hover
  cases t with
  | none =>
    rw [hrun, go_takeAll_collector_none]
    exact ⟨iff_of_false (by rintro ⟨f, ⟨⟩⟩) (not_misfiltered_of_untyped (hpicks.none_iff.1 rfl)),
      by rintro f ⟨⟩⟩
  | some t =>
    obtain ⟨hstop, hform⟩ := takeAll_collector_spec (h.withNodes hu)
      (hpicks.names t rfl).knows fs
    have herror : ∀ f, (run b q own p).1 = .error f ↔
        (((collector { p with nodes := u } (some t)).takeAll fs).go (p.casting, [])).1 =
          .error f := by
      intro f
      rw [hrun]
      cases (((collector { p with nodes := u } (some t)).takeAll fs).go (p.casting, [])).1 <;>
        simp [Except.map]
    refine ⟨?_, fun f hf => hform f ((herror f).1 hf)⟩
    simp only [herror]
    have hfound := run_untyped h hasked hover
    refine hstop.trans ⟨?_, ?_⟩
    · rintro ⟨x, hx, hno⟩
      exact ⟨t, u, _, go_type_of_typeOf htype, hfound, x, List.mem_mergeSort.2 hx, hno⟩
    · rintro ⟨t', u', out, htype', hout, x, hx, hno⟩
      obtain ⟨ht, hu'⟩ := Prod.mk.inj ((go_type_of_typeOf htype).symm.trans htype')
      obtain rfl := Except.ok.inj ht
      obtain rfl : u = u' := congrArg Program.nodes hu'
      rw [hfound] at hout
      cases hout
      exact ⟨x, List.mem_mergeSort.1 hx, hno⟩

/-- **What a query leaves**, however it ends. -/
theorem queried_run (h : Queried p₀ p) (hown : own.Ready b.frozen.encoding.graph.size) :
    Queried p₀ (run b q own p).2.2 ∧
      ((run b q own p).1.isOk → (run b q own p).2.1.Ready b.frozen.encoding.graph.size) := by
  obtain ⟨u, hu, ⟨e, -, hgo⟩ | ⟨asked, t, -, -, hpicks, hgo⟩⟩ := go_task_cases h b q
  · rw [run_of_refused hgo ((clear_task b q).fault? h.interned.sane hgo)]
    exact ⟨h.withNodes hu, fun _ => hown⟩
  · obtain ⟨-, -, hsound, hready⟩ := go_ask_collector (b := b) (h.withNodes hu) (t := t)
      (fun id hid => (hpicks.names id hid).knows) hown asked
    rw [run_of_asked hgo]
    refine ⟨(h.withNodes hu).withCasting hsound, fun hok => hready ?_⟩
    rwa [isOk_map] at hok

/-- **Queries are answered**: each by one of some queriers, which were new at the start, and
on what the queries before it have left of the program. -/
inductive Session (b : BuiltProgram) (p : Program) : List Querier → Program → Prop
  | start (n : Nat) : Session b p (List.replicate n (querier b)) p
  | answered {owns : List Querier} {p' : Program} {i : Nat} {own : Querier} {out : QueryOutcome}
      (h : Session b p owns p') (hi : owns[i]? = some own) (q : QueryDecl)
      (hout : (run b q own p').1 = .ok out) :
      Session b p (owns.set i (run b q own p').2.1) (run b q own p').2.2

/-- The labels of every querier are used up, all the time. -/
theorem Session.spec (hp : p.Orderly) {owns : List Querier} (h : Session b p owns p') :
    Queried p p' ∧ ∀ own ∈ owns, own.Ready b.frozen.encoding.graph.size := by
  induction h with
  | start n =>
    refine ⟨.start hp, fun own hown => ?_⟩
    rw [List.eq_of_mem_replicate hown]
    exact Querier.ready_new _
  | @answered owns p' i own out _ hi q hout ih =>
    obtain ⟨hqueried, hready⟩ := ih
    obtain ⟨hnext, hleft⟩ := queried_run (q := q) hqueried (hready own (List.mem_of_getElem? hi))
    refine ⟨hnext, fun own' hown' => ?_⟩
    obtain hold | rfl := List.mem_or_eq_of_mem_set hown'
    · exact hready own' hold
    · exact hleft (by rw [hout]; rfl)

/-- **Where the content of a description makes a fault.** Reading one never does. A
build stops with a fault exactly if its call graph is made and a heap context
qualifies what cannot be qualified, or by what cannot qualify it, or no chain or
key can be made for it, so deep is the table; it says so. A query of a built
program stops exactly if it asks for any subtype of a type and finds an object
whose cast to that has to be decided. -/
theorem faults_exactly (file : String) (d : Description) (hp : p.Prepared) (cfg : Config)
    (log : Log) (disk : Disk) :
    (∀ e, ofDescription file d = .error e → e.fault? = none) ∧
      (∀ f, Stops (Workbench.build cfg) ⟨p, log, disk⟩ f ↔
        (∃ out w, (Workbench.ground cfg).go ⟨p, log, disk⟩ = (.ok out, w)) ∧
          p.Misqualifies cfg f) ∧
      ∀ b w, (Workbench.build cfg).go ⟨p, log, disk⟩ = (.ok b, w) →
        ∀ owns p', Session b w.program owns p' → ∀ own ∈ owns, ∀ q,
          ((∃ f, (run b q own p').1 = .error f) ↔ Misfiltered b q own p') ∧
            ∀ f, (run b q own p').1 = .error f → ∃ src dst, f = .anySubtypeTarget src dst := by
  refine ⟨fun e => fault?_of_ofDescription, fun f => Workbench.stops_build_iff hp.orderly, ?_⟩
  intro b w hbuild owns p' hsession own hown q
  have hprogram : w.program = ((Workbench.build cfg).go ⟨p, log, disk⟩).2.program := by
    rw [hbuild]
  have horderly : w.program.Orderly := hprogram ▸ (Prepared.build hp cfg log disk).orderly
  obtain ⟨hqueried, hready⟩ := hsession.spec horderly
  exact run_stops_iff hqueried (Workbench.serves_of_build hbuild) (hready own hown)

/-- A variable is qualified. -/
def qualifiedVariable : Description where
  methods := ["main"]
  entryPoints := ["main"]
  vars := [{ name := "v", method := "main" }]
  heapContexts := [{ name := "h", base := "v" }]

/-- An allocation is qualified by a chain without sites. -/
def qualifiedAlloc : Description where
  methods := ["main"]
  entryPoints := ["main"]
  allocs := [{ name := "o", method := "main" }]
  heapContexts := [{ name := "h", base := "o" }]

/-- A depth whose chains have more bytes than there are addresses. -/
def bottomless : Config := { objectSensitivity := 2 ^ 62 }

/-- The objects of any subtype of a class are asked for, and there is one of the class. -/
def anySubtypeAsked : Description where
  classes := [{ name := "T" }]
  methods := ["main", "f"]
  entryPoints := ["main"]
  edges := [{ caller := "main", callee := "f", site := 1 }]
  vars := [{ name := "v", method := "f", type := "T" }]
  allocs := [{ name := "o", type := "T", method := "f" }]
  facts := [{ pointer := "v", object := "o", lo := 1, hi := 2 }]
  queries := [{
    pointer := "v", type := "any T", edge := some { caller := "main", callee := "f", site := 1 } }]

/-- The program of a description, before it is built. -/
def declared (d : Description) : Program :=
  (declare.go { name := "p.yaml", description := d }).2

/-- It builds, and none of its queries has an outcome. -/
def refusesQueries (p : Program) : Bool :=
  match (Workbench.build {}).go ⟨p, {}, {}⟩ with
  | (.ok b, w) => p.description.queries.all fun q => !(run b q (querier b) w.program).1.isOk
  | (.error _, _) => false

theorem exists_of_refusesQueries (h : p.refusesQueries) :
    ∃ b w, (Workbench.build {}).go ⟨p, {}, {}⟩ = (.ok b, w) ∧
      ∀ q ∈ p.description.queries, ∃ f, (run b q (querier b) w.program).1 = .error f := by
  unfold refusesQueries at h
  generalize (Workbench.build {}).go ⟨p, {}, {}⟩ = made at h
  obtain ⟨r, w⟩ := made
  cases r with
  | error e => cases h
  | ok b =>
    refine ⟨b, w, rfl, fun q hq => ?_⟩
    have hstop := List.all_eq_true.1 h q hq
    cases hrun : (run b q (querier b) w.program).1 with
    | error f => exact ⟨f, rfl⟩
    | ok out => simp [hrun, Except.isOk, Except.toBool] at hstop

theorem faults_exactly_misused :
    ((declared qualifiedVariable).Prepared ∧
      (declared qualifiedVariable).Misqualifies { objectSensitivity := 2 } (.notAllocation 1)) ∧
    ((declared qualifiedAlloc).Prepared ∧
      (declared qualifiedAlloc).Misqualifies bottomless .sliceTooLong) ∧
    (declared anySubtypeAsked).Prepared ∧
      ∃ b w, (Workbench.build {}).go ⟨declared anySubtypeAsked, {}, {}⟩ = (.ok b, w) ∧
        ∀ q ∈ (declared anySubtypeAsked).description.queries,
          Misfiltered b q (querier b) w.program := by
  have hvar : (declared qualifiedVariable).Prepared := prepared_of_isOk (by decide +kernel)
  have halloc : (declared qualifiedAlloc).Prepared := prepared_of_isOk (by decide +kernel)
  have hany : (declared anySubtypeAsked).Prepared := prepared_of_isOk (by decide +kernel)
  have hstops : Stops (Workbench.build { objectSensitivity := 2 })
      ⟨declared qualifiedVariable, {}, {}⟩ (.notAllocation 1) :=
    stops_of_faultIn? (by decide +kernel)
  have hdeep : Stops (Workbench.build bottomless) ⟨declared qualifiedAlloc, {}, {}⟩ .sliceTooLong :=
    stops_of_faultIn? (by decide +kernel)
  obtain ⟨b, w, hbuild, hrefused⟩ := exists_of_refusesQueries (p := declared anySubtypeAsked)
    (by decide +kernel)
  refine ⟨⟨hvar, (((faults_exactly "" {} hvar _ {} {}).2.1 _).1 hstops).2⟩,
    ⟨halloc, (((faults_exactly "" {} halloc _ {} {}).2.1 _).1 hdeep).2⟩, hany, b, w, hbuild, ?_⟩
  intro q hq
  obtain ⟨hiff, -⟩ := (faults_exactly "" {} hany {} {} {}).2.2 b w hbuild _ _ (.start 1) (querier b)
    (by simp) q
  exact hiff.1 (hrefused q hq)

/-- The faults that a description makes: when it is read or built, or else in its queries. -/
def faultsOf (cfg : Config) (d : Description) : List Fault :=
  match declare.go { name := "p.yaml", description := d } with
  | (.error e, _) => e.fault?.toList
  | (.ok _, p) =>
    match (Workbench.build cfg).go ⟨p, .new 0 true, {}⟩ with
    | (.error e, _) => e.fault?.toList
    | (.ok b, w) => d.queries.filterMap fun q =>
      match (run b q (querier b) w.program).1 with
      | .error f => some f
      | .ok _ => none

/-- **Descriptions that make faults.** -/
theorem faultsOf_misused :
    faultsOf { objectSensitivity := 2 } qualifiedVariable = [.notAllocation 1] ∧
      faultsOf bottomless qualifiedAlloc = [.sliceTooLong] ∧
      faultsOf {} anySubtypeAsked = [.anySubtypeTarget "T" "Any_subtype_of_T"] :=
  ⟨by decide +kernel, by decide +kernel, by decide +kernel⟩

end Program

end PointsTo
