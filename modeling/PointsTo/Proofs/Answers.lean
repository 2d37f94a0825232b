import PointsTo.Program.Query
import PointsTo.Proofs.Independence
import PointsTo.Proofs.TypeNames
/-!
# Answers that depend on the program alone

A query names types, which may make them, it remembers what it decides
about casts, and it uses up labels of its querier. `Queried` says what
queries can have left of a program that way. On such a program, with a
querier whose labels are used up, a query has the outcome that it has
alone on the program as it was built (`run_eq_alone`).
-/

namespace PointsTo

/-! ## Visitors that keep in step -/

namespace Attempt

variable {σ σ' α β : Type} {R : σ → σ' → Prop}

/-- Runs from related states end in the same way, and in related states. -/
def Tracks (R : σ → σ' → Prop) (a : Attempt σ α) (a' : Attempt σ' α) : Prop :=
  ∀ s s', R s s' → (a.go s).1 = (a'.go s').1 ∧ R (a.go s).2 (a'.go s').2

theorem tracks_pure (a : α) : Tracks R (pure a) (pure a) := fun _ _ h => ⟨rfl, h⟩

theorem tracks_liftM (x : Except Fault α) : Tracks R (liftM x) (liftM x) := fun _ _ h => ⟨rfl, h⟩

/-- Changes that keep the relation. -/
theorem tracks_modify {f : σ → σ} {f' : σ' → σ'} (hf : ∀ s s', R s s' → R (f s) (f' s')) :
    Tracks R (modify f) (modify f') := fun s s' h => ⟨rfl, hf s s' h⟩

/-- What follows may depend on the states, which are related. -/
theorem tracks_get_bind {f : σ → Attempt σ α} {f' : σ' → Attempt σ' α}
    (hf : ∀ s s', R s s' → Tracks R (f s) (f' s')) : Tracks R (get >>= f) (get >>= f') :=
  fun s s' h => hf s s' h s s' h

/-- **Attempts that keep in step one after the other** do so as a whole, also where the
first ones stop. -/
theorem Tracks.bind {a : Attempt σ α} {a' : Attempt σ' α} {f : α → Attempt σ β}
    {f' : α → Attempt σ' β} (ha : Tracks R a a') (hf : ∀ x, Tracks R (f x) (f' x)) :
    Tracks R (a >>= f) (a' >>= f') := by
  intro s s' h
  obtain ⟨hend, hstate⟩ := ha s s' h
  rw [go_bind, go_bind]
  generalize a.go s = run at hend hstate
  generalize a'.go s' = run' at hend hstate
  obtain ⟨r, t⟩ := run
  obtain ⟨r', t'⟩ := run'
  obtain rfl : r = r' := hend
  cases r with
  | ok x => exact hf x t t' hstate
  | error e => exact ⟨rfl, hstate⟩

end Attempt

namespace Query

open Attempt

variable {σ σ' : Type} {R : σ → σ' → Prop} {v : Visitor σ} {v' : Visitor σ'}

/-- The states of two visitors, beside the same labels. -/
def Beside (R : σ → σ' → Prop) (s : State σ) (s' : State σ') : Prop := s.1 = s'.1 ∧ R s.2 s'.2

/-- What a visitor does is nothing to the labels. -/
theorem tracks_visiting {α : Type} {a : Attempt σ α} {a' : Attempt σ' α} (h : Tracks R a a') :
    Tracks (Beside R) (visiting a) (visiting a') := by
  rintro ⟨q, s⟩ ⟨_, s'⟩ ⟨rfl, hs⟩
  obtain ⟨hend, hstate⟩ := h s s' hs
  exact ⟨hend, rfl, hstate⟩

/-- What is done to the labels is the same on both sides. -/
theorem tracks_relabel (f : Querier → Querier) : Tracks (Beside R)
    (modify fun s => (f s.1, s.2) : Attempt (State σ) Unit) (modify fun s => (f s.1, s.2)) := by
  refine tracks_modify ?_
  rintro ⟨q, s⟩ ⟨_, s'⟩ ⟨rfl, hs⟩
  exact ⟨rfl, hs⟩

/-- A query whose facts are collected does not meet the visitors. -/
theorem tracks_collecting (query : Attempt (State (List Fact)) Bool) :
    Tracks (Beside R) (collecting query) (collecting query) := by
  rintro ⟨q, s⟩ ⟨_, s'⟩ ⟨rfl, hs⟩
  exact ⟨rfl, rfl, hs⟩

section Visitors

variable (hv : ∀ f, Tracks R (v f) (v' f))

include hv

/-- Visitors that keep in step take the same facts one after the other. -/
theorem tracks_takeAll (fs : List Fact) : Tracks R (v.takeAll fs) (v'.takeAll fs) := by
  induction fs with
  | nil => exact tracks_pure _
  | cons f fs ih => exact (hv f).bind fun _ => ih

/-- **A search keeps them in step**: its events are the same, and so are the facts they
hand over. -/
theorem tracks_perform (facts : FactStore) (node : NodeId) (events : List SearchEvent) :
    Tracks (Beside R) (perform facts node v events) (perform facts node v' events) := by
  induction events with
  | nil => exact tracks_pure _
  | cons event events ih =>
    cases event with
    | mark r label => exact (tracks_relabel (·.mark r label)).bind fun _ => ih
    | request l r => exact (tracks_visiting (tracks_takeAll hv _)).bind fun _ => ih

/-- Queries by any edge find their events in the scene and the labels alone. -/
theorem tracks_byAnyEdge (sc : Scene) (cs : CallSite) (ptr : NodeId) :
    Tracks (Beside R) (byAnyEdge sc cs ptr v) (byAnyEdge sc cs ptr v') := by
  unfold byAnyEdge
  split
  · next node e _ _ =>
    dsimp only
    split
    · exact tracks_pure _
    · refine (tracks_liftM _).bind fun b => (tracks_relabel Querier.renew).bind fun _ => ?_
      refine tracks_get_bind ?_
      rintro ⟨q, s⟩ ⟨_, s'⟩ ⟨rfl, -⟩
      refine (tracks_perform hv sc.facts node _).bind fun _ => (tracks_liftM _).bind fun _ => ?_
      exact (tracks_relabel Querier.advance).bind fun _ => tracks_pure _
  · exact tracks_pure _

theorem tracks_byChain (sc : Scene) (chain : List CallSite) (ptr : NodeId) :
    Tracks (Beside R) (byChain sc chain ptr v) (byChain sc chain ptr v') := by
  unfold byChain
  split
  · exact tracks_pure _
  · dsimp only
    split
    · split
      · exact tracks_pure _
      · refine (tracks_liftM _).bind fun l => ?_
        split
        · exact tracks_pure _
        · exact (tracks_liftM _).bind fun b =>
            (tracks_visiting (tracks_takeAll hv _)).bind fun _ => tracks_pure _
    · exact tracks_pure _

/-- The fields of some objects are those of the same nodes. -/
theorem tracks_fieldOfAll (sc : Scene) (f : FieldId) (os : List Fact) :
    Tracks (Beside R) (fieldOfAll sc f v os) (fieldOfAll sc f v' os) := by
  induction os with
  | nil => exact tracks_pure _
  | cons o os ih =>
    unfold fieldOfAll
    split
    · exact tracks_pure _
    · exact (tracks_visiting (tracks_takeAll hv _)).bind fun _ => ih

/-- **A question is answered alike to visitors that keep in step.** -/
theorem tracks_ask (sc : Scene) (question : Question) :
    Tracks (Beside R) (ask sc v question) (ask sc v' question) := by
  cases question with
  | anyEdge cs ptr => exact tracks_byAnyEdge hv sc cs ptr
  | chain chain ptr => exact tracks_byChain hv sc chain ptr
  | fieldAnyEdge cs ptr f =>
    refine (tracks_collecting _).bind fun (ok, objs) => ?_
    dsimp only
    split
    · exact (tracks_visiting (tracks_takeAll hv _)).bind fun _ => tracks_pure _
    · exact tracks_pure _
  | fieldChain chain ptr f =>
    refine (tracks_collecting _).bind fun (ok, objs) => ?_
    dsimp only
    split
    · exact tracks_fieldOfAll hv sc f objs
    · exact tracks_pure _

end Visitors

/-! ## What a query sees of the universe -/

/-- The method of a node is read off the nodes. -/
theorem methodOf_congr {u u' : Universe} (h : u'.nodes = u.nodes) (n : NodeId) :
    u'.methodOf n = u.methodOf n := by
  rw [Universe.methodOf, Universe.methodOf, Universe.node?, Universe.node?, h]

/-- What a field points to does not depend on the types. -/
theorem fieldObjects_congr {sc : Scene} {u : Universe} (h : u.nodes = sc.nodes.nodes)
    (f : FieldId) (o : Fact) : fieldObjects { sc with nodes := u } f o = fieldObjects sc f o := by
  have hfield : u.findAllocField o.obj f = sc.nodes.findAllocField o.obj f := by
    rw [Universe.findAllocField, Universe.findAllocField, h]
  simp only [fieldObjects, hfield]

/-- **A question is about the nodes alone**, whatever types there are. -/
theorem ask_congr {sc : Scene} {u : Universe} (h : u.nodes = sc.nodes.nodes) (v : Visitor σ)
    (question : Question) : ask { sc with nodes := u } v question = ask sc v question := by
  have hedge : ∀ {τ : Type} (w : Visitor τ) (cs : CallSite) (ptr : NodeId),
      byAnyEdge { sc with nodes := u } cs ptr w = byAnyEdge sc cs ptr w := by
    intro τ w cs ptr
    simp only [byAnyEdge, searchFrom, methodOf_congr h]
  cases question with
  | anyEdge cs ptr => exact hedge v cs ptr
  | chain chain ptr => rfl
  | fieldAnyEdge cs ptr f =>
    simp only [ask, fieldByAnyEdge, hedge, fieldObjects_congr h]
  | fieldChain chain ptr f =>
    have hall : ∀ os, fieldOfAll { sc with nodes := u } f v os = fieldOfAll sc f v os := by
      intro os
      induction os with
      | nil => rfl
      | cons o os ih => simp only [fieldOfAll, fieldObjects_congr h, ih]
    simp only [ask, fieldByChain, hall]
    rfl

end Query

namespace Program

open Attempt Query Universe

/-! ## Visitors that decide from scratch -/

/-- Takes the facts whose object casts to the type, or all if there is no type. -/
def sieve (u : Universe) (h : Hierarchy) (t : Option TypeId) : Visitor (List Fact) := fun f =>
  match t with
  | none => modify (· ++ [f])
  | some t => do
    let b ← (castNeverFails u (some h) (u.typeOf f.obj) t : Except Fault Bool)
    modify (· ++ if b then [f] else [])

variable {p₀ p : Program} {b : BuiltProgram} {q : QueryDecl}

/-- What is remembered is right, and the facts are those. -/
def Kept (p : Program) (s : Casting × List Fact) (fs : List Fact) : Prop :=
  s.1.Sound p.nodes (some p.hierarchyView) ∧ s.2 = fs

/-- **A collector takes what is decided from scratch.** -/
theorem tracks_collector (hp : p.nodes.Sane) {t : Option TypeId}
    (ht : ∀ id ∈ t, p.nodes.Knows id) (f : Fact) :
    Tracks p.Kept (p.collector t f) (sieve p.nodes p.hierarchyView t f) := by
  cases t with
  | none =>
    rintro ⟨c, fs⟩ _ ⟨hc, rfl⟩
    exact ⟨rfl, hc, rfl⟩
  | some t =>
    rintro ⟨c, fs⟩ _ ⟨hc, rfl⟩
    obtain ⟨hanswer, hextends, -⟩ := Casting.go_admits hc (ht t rfl) (hp.typed f.obj)
    have hgo : (p.collector (some t) f).go (c, fs) =
        let out := (Casting.filter p.nodes (some p.hierarchyView) t f).go c
        (out.1.map fun _ => (), out.2, fs ++ (out.1.toOption.bind id).toList) := rfl
    rw [hgo, Casting.go_filter, hanswer, sieve, Attempt.go_bind, Attempt.go_liftM]
    match castNeverFails p.nodes (some p.hierarchyView) (p.nodes.typeOf f.obj) t with
    | .error e => exact ⟨rfl, hextends.sound, by simp [Except.map, Except.toOption]⟩
    | .ok true => exact ⟨rfl, hextends.sound, rfl⟩
    | .ok false => exact ⟨rfl, hextends.sound, by simp [Except.map, Except.toOption]⟩

/-! ## What queries leave -/

/-- **What queries can have left of a program**: types that they named, and what they
decided about casts. -/
structure Queried (p₀ p : Program) : Prop where
  same : p = { p₀ with nodes := p.nodes, casting := p.casting }
  interned : p₀.nodes.Interned p.nodes
  sound : p.casting.Sound p.nodes (some p.hierarchyView)

namespace Queried

/-- **Nothing is left before the first query**, which decides about the first cast. -/
theorem start (h : p.Orderly) : Queried p p where
  same := rfl
  interned := .refl h.nodes
  sound := h.casting ▸ Casting.sound_empty _ _

theorem hierarchy (h : Queried p₀ p) : p.hierarchy = p₀.hierarchy := by rw [h.same]

theorem names (h : Queried p₀ p) : p.names = p₀.names := by rw [h.same]

/-- More types have been named. -/
theorem withNodes (h : Queried p₀ p) {u : Universe} (hu : p.nodes.Interned u) :
    Queried p₀ { p with nodes := u } where
  same := by rw [h.same]
  interned := h.interned.trans hu
  sound := by
    -- new types change no answer about old ones
    refine h.sound.grows hu.grows (p.hierarchy.view_agreeOn h.interned.sane.inOrder hu.grows) ?_
    intro t n b _
    rw [typeOf, typeOf, node?, node?, hu.nodes]

/-- What was decided has to be right for the types that are there. -/
theorem withCasting (h : Queried p₀ p) {c : Casting}
    (hc : c.Sound p.nodes (some p.hierarchyView)) : Queried p₀ { p with casting := c } where
  same := by rw [h.same]
  interned := h.interned
  sound := hc

end Queried

/-! ## The question of a query -/

/-- The step only reads, and nothing that queries change. -/
structure Reads {α : Type} (x : Step α) : Prop where
  keeps : ∀ p, (x.go p).2 = p
  same : ∀ p₀ p, Queried p₀ p → (x.go p).1 = (x.go p₀).1

section Reads

variable {α β : Type}

theorem reads_pure (a : α) : Reads (pure a) := ⟨fun _ => rfl, fun _ _ _ => rfl⟩

theorem reads_throw (e : ProgramError) : Reads (throw e : Step α) :=
  ⟨fun _ => rfl, fun _ _ _ => rfl⟩

/-- A value that queries do not change is looked up, or is an error. -/
theorem reads_lookup (e : ProgramError) {f : Program → Option α}
    (hf : ∀ p₀ p, Queried p₀ p → f p = f p₀) :
    Reads (get >>= fun p => orFail e (f p) : Step α) := by
  refine ⟨fun p => by rw [go_lookup], fun p₀ p h => ?_⟩
  rw [go_lookup, go_lookup, hf p₀ p h]

/-- What follows a step that only reads runs from the same program. -/
theorem Reads.go_bind {x : Step α} (hx : Reads x) (f : α → Step β) (p : Program) :
    (x >>= f).go p = match (x.go p).1 with
      | .ok a => (f a).go p
      | .error e => (.error e, p) := by
  have hkeeps := hx.keeps p
  rw [Program.go_bind]
  generalize x.go p = run at hkeeps
  obtain ⟨r, p'⟩ := run
  obtain rfl : p' = p := hkeeps
  cases r <;> rfl

/-- **Steps that only read one after the other.** -/
theorem Reads.bind {x : Step α} {f : α → Step β} (hx : Reads x) (hf : ∀ a, Reads (f a)) :
    Reads (x >>= f) := by
  constructor
  · intro p
    rw [hx.go_bind]
    cases (x.go p).1 with
    | ok a => exact (hf a).keeps p
    | error e => rfl
  · intro p₀ p h
    rw [hx.go_bind, hx.go_bind, hx.same p₀ p h]
    cases (x.go p₀).1 with
    | ok a => exact (hf a).same p₀ p h
    | error e => rfl

theorem reads_mapM {f : α → Step β} (hf : ∀ a, Reads (f a)) (l : List α) : Reads (l.mapM f) := by
  induction l with
  | nil => exact reads_pure _
  | cons a l ih =>
    rw [List.mapM_cons]
    exact (hf a).bind fun _ => ih.bind fun _ => reads_pure _

end Reads

theorem reads_method (name : String) : Reads (method name) :=
  reads_lookup _ fun p₀ p h => by rw [lookupMethod, lookupMethod, h.interned.methods]

theorem reads_node (name : String) : Reads (node name) :=
  reads_lookup _ fun p₀ p h => by rw [h.names]

theorem reads_callSite (e : EdgeDecl) : Reads (callSite e) :=
  (reads_method _).bind fun _ => (reads_method _).bind fun _ => reads_pure _

/-- **How a query gets to its facts** is read off the names of methods. -/
theorem reads_approach (q : QueryDecl) : Reads (approach q) := by
  unfold approach
  split
  · exact (reads_callSite _).bind fun _ => reads_pure _
  · exact (reads_mapM reads_callSite _).bind fun _ => reads_pure _
  · exact reads_throw _

/-- The field a query asks for, if it asks for one. -/
def fieldOf (q : QueryDecl) : Step (Option FieldId) :=
  if q.field = "" then pure none
  else do some <$> orFail (.unknownField q.field) ((← get).nodes.lookupField q.field)

theorem reads_fieldOf (q : QueryDecl) : Reads (fieldOf q) := by
  unfold fieldOf
  split
  · exact reads_pure _
  · simp only [map_eq_pure_bind, ← bind_assoc]
    refine (reads_lookup _ fun p₀ p h => ?_).bind fun _ => reads_pure _
    rw [lookupField, lookupField, h.interned.fields]

/-- The question of an approach. -/
def Approach.question (ptr : NodeId) : Approach → Option FieldId → Question
  | .edge cs, none => .anyEdge cs ptr
  | .edge cs, some f => .fieldAnyEdge cs ptr f
  | .chain css, none => .chain css ptr
  | .chain css, some f => .fieldChain css ptr f

/-- **The question that a query asks**, types apart. -/
def question (q : QueryDecl) : Step Question := do
  let ptr ← node q.pointer
  let f ← fieldOf q
  let how ← approach q
  pure (how.question ptr f)

/-- The type a query asks for, if it asks for one. -/
def typeOf (q : QueryDecl) : Step (Option TypeId) :=
  if q.type = "" then pure none else some <$> type q.type

/-- **A query is its parts, one after the other**: where it starts, what it filters,
what it looks at, and how it gets there. -/
theorem task_eq (b : BuiltProgram) (q : QueryDecl) : task b q = (do
    let ptr ← node q.pointer
    let t ← typeOf q
    let f ← fieldOf q
    let how ← approach q
    let p ← get
    pure (ask (p.scene b) (p.collector t) (how.question ptr f))) := by
  have hask : ∀ (sc : Scene) (v : Visitor (Casting × List Fact)) (ptr : NodeId) (how : Approach)
      (f : Option FieldId), ask sc v (how.question ptr f) = match how, f with
        | .edge cs, none => Query.byAnyEdge sc cs ptr v
        | .edge cs, some f => Query.fieldByAnyEdge sc cs ptr f v
        | .chain css, none => Query.byChain sc css ptr v
        | .chain css, some f => Query.fieldByChain sc css ptr f v := by
    intro sc v ptr how f
    cases how <;> cases f <;> rfl
  simp only [task, typeOf, fieldOf, hask]
  by_cases htype : q.type = "" <;> by_cases hfield : q.field = "" <;>
    simp only [htype, hfield, if_true, if_false] <;> rfl

/-- The type is the one a query asks for, if it asks for one. -/
structure Picks (u : Universe) (q : QueryDecl) (t : Option TypeId) : Prop where
  none_iff : t = none ↔ q.type = ""
  names : ∀ id ∈ t, u.Names (typeName (q.type.length + 1) q.type) id

/-- What naming the type of a query does. -/
theorem typeOf_spec (h : Queried p₀ p) (q : QueryDecl) : ∃ u, p.nodes.Interned u ∧
    ((typeOf q).go p).2 = { p with nodes := u } ∧
    (∀ t, ((typeOf q).go p).1 = .ok t → Picks u q t) ∧
    ((∃ t, ((type q.type).go p₀).1 = .ok t) → ∃ t, ((typeOf q).go p).1 = .ok t) := by
  by_cases hempty : q.type = ""
  · have hgo : (typeOf q).go p = (.ok none, p) := by
      rw [typeOf, if_pos hempty]
      rfl
    rw [hgo]
    refine ⟨p.nodes, .refl h.interned.sane, rfl, fun t ht => ?_, fun _ => ⟨none, rfl⟩⟩
    cases ht
    exact ⟨by simp [hempty], by simp⟩
  · obtain ⟨u, hu⟩ := finds_typeWithin h.interned (q.type.length + 1) q.type
    have hgo : (typeOf q).go p =
        (((type q.type).go p).1.map some, { p with nodes := u }) := by
      have hrun : (type q.type).go p = (((type q.type).go p).1, { p with nodes := u }) :=
        Prod.ext rfl hu.after
      rw [typeOf, if_neg hempty, map_eq_pure_bind, go_bind, hrun]
      cases ((type q.type).go p).1 <;> rfl
    rw [hgo]
    refine ⟨u, hu.interned, rfl, fun t ht => ?_, fun hok => ?_⟩
    · match hid : ((type q.type).go p).1 with
      | .error e =>
        rw [hid] at ht
        cases ht
      | .ok id =>
        rw [hid] at ht
        cases ht
        refine ⟨by simp [hempty], ?_⟩
        rintro _ ⟨⟩
        exact hu.names id hid
    · obtain ⟨t, ht⟩ := hu.succeeds hok
      have hfound : ((type q.type).go p).1 = .ok t := ht
      exact ⟨some t, by rw [hfound]; rfl⟩

/-- **What a query does before it is asked**: it names a type, and finds out what to
ask, or why it cannot be asked. -/
theorem go_task_cases (h : Queried p₀ p) (b : BuiltProgram) (q : QueryDecl) :
    ∃ u, p.nodes.Interned u ∧
      ((∃ e, (((question q).go p₀).1 = .error e ∨ ((typeOf q).go p).1 = .error e) ∧
        (task b q).go p = (.error e, { p with nodes := u })) ∨
      ∃ asked t, ((question q).go p₀).1 = .ok asked ∧
        (typeOf q).go p = (.ok t, { p with nodes := u }) ∧ Picks u q t ∧
        (task b q).go p = (.ok (ask (scene { p with nodes := u } b)
          (collector { p with nodes := u } t) asked), { p with nodes := u })) := by
  -- all but the type is read from what queries leave as it is
  have hnode := reads_node q.pointer
  have hfield := reads_fieldOf q
  have hhow := reads_approach q
  rw [task_eq, question, hnode.go_bind, hnode.go_bind, hnode.same p₀ p h]
  match ((node q.pointer).go p₀).1 with
  | .error e => exact ⟨p.nodes, .refl h.interned.sane, .inl ⟨e, .inl rfl, rfl⟩⟩
  | .ok ptr =>
    obtain ⟨u, hu, hafter, hpicks, -⟩ := typeOf_spec h q
    have hnext := h.withNodes hu
    refine ⟨u, hu, ?_⟩
    dsimp only
    rw [go_bind (typeOf q)]
    match htype : (typeOf q).go p with
    | (.error e, p') =>
      rw [htype] at hafter
      exact .inl ⟨e, .inr rfl, congrArg _ hafter⟩
    | (.ok t, p') =>
      rw [htype] at hafter hpicks
      obtain rfl : p' = { p with nodes := u } := hafter
      dsimp only
      rw [hfield.go_bind, hfield.go_bind, hfield.same p₀ _ hnext]
      match ((fieldOf q).go p₀).1 with
      | .error e => exact .inl ⟨e, .inl rfl, rfl⟩
      | .ok f =>
        dsimp only
        rw [hhow.go_bind, hhow.go_bind, hhow.same p₀ _ hnext]
        match ((approach q).go p₀).1 with
        | .error e => exact .inl ⟨e, .inl rfl, rfl⟩
        | .ok how => exact .inr ⟨_, t, rfl, rfl, hpicks t rfl, rfl⟩

/-- Where its type can be found, a query cannot be asked for the reason alone that its
question has on the program as it was built. -/
theorem go_task (h : Queried p₀ p) (ht : ∃ t, ((type q.type).go p₀).1 = .ok t)
    (b : BuiltProgram) : ∃ u, p.nodes.Interned u ∧
      ((∃ e, ((question q).go p₀).1 = .error e ∧
        (task b q).go p = (.error e, { p with nodes := u })) ∨
      ∃ asked t, ((question q).go p₀).1 = .ok asked ∧ Picks u q t ∧
        (task b q).go p = (.ok (ask (scene { p with nodes := u } b)
          (collector { p with nodes := u } t) asked), { p with nodes := u })) := by
  obtain ⟨u, hu, ⟨e, he, hgo⟩ | ⟨asked, t, hasked, -, hpicks, hgo⟩⟩ := go_task_cases h b q
  · obtain ⟨_, -, -, -, hfound⟩ := typeOf_spec h q
    obtain ⟨t, hok⟩ := hfound ht
    refine ⟨u, hu, .inl ⟨e, he.resolve_right fun hno => ?_, hgo⟩⟩
    rw [hok] at hno
    cases hno
  · exact ⟨u, hu, .inr ⟨asked, t, hasked, hpicks, hgo⟩⟩

/-! ## The outcome of a query -/

/-- The outcome of a query that cannot be asked. -/
def refusal (q : QueryDecl) : ProgramError → Except Fault QueryOutcome
  | .stopped f => .error f
  | e => .ok { query := q, error := some e }

/-- The outcome of a query, decided from scratch with the types of a universe. -/
def outcome (p : Program) (b : BuiltProgram) (q : QueryDecl) (asked : Question) (u : Universe)
    (t : Option TypeId) : Except Fault QueryOutcome :=
  let out := (ask (p.scene b) (sieve u (p.hierarchy.view u) t) asked).go (querier b, [])
  out.1.map fun ok => { query := q, ok, objects := Fact.sorted out.2.2 }

/-- The outcome does not depend on the number the type has got. -/
theorem outcome_congr (h₀ : p.Orderly) {u₁ u₂ : Universe} (h₁ : p.nodes.Interned u₁)
    (h₂ : p.nodes.Interned u₂) {t₁ t₂ : Option TypeId} (ht₁ : Picks u₁ q t₁)
    (ht₂ : Picks u₂ q t₂) (b : BuiltProgram) (asked : Question) :
    outcome p b q asked u₁ t₁ = outcome p b q asked u₂ t₂ := by
  have hsieve : sieve u₁ (p.hierarchy.view u₁) t₁ = sieve u₂ (p.hierarchy.view u₂) t₂ := by
    funext f
    match t₁, t₂, ht₁, ht₂ with
    | none, none, _, _ => rfl
    | none, some _, ht₁, ht₂ => simpa using ht₂.none_iff.2 (ht₁.none_iff.1 rfl)
    | some _, none, ht₁, ht₂ => simpa using ht₁.none_iff.2 (ht₂.none_iff.1 rfl)
    | some id₁, some id₂, ht₁, ht₂ =>
      have htype : ∀ {u : Universe}, p.nodes.Interned u →
          u.typeOf f.obj = p.nodes.typeOf f.obj := fun hu => by
        rw [Universe.typeOf, Universe.typeOf, node?, node?, hu.nodes]
      have hcast := castNeverFails_names h₁ h₂ h₀.nodes p.hierarchy h₀.root
        (h₀.nodes.typed f.obj) (ht₁.names id₁ rfl) (ht₂.names id₂ rfl)
      simp only [sieve, htype h₁, htype h₂, hcast]
  rw [outcome, outcome, hsieve]

variable {own : Querier}

/-- **A question is answered as it is from scratch**: what is remembered about casts and
what is left of the labels of a querier do not show. What is remembered
stays right, and the labels are used up again. -/
theorem go_ask_collector (h : Queried p₀ p) {t : Option TypeId}
    (ht : ∀ id ∈ t, p.nodes.Knows id) (hown : own.Ready b.frozen.encoding.graph.size)
    (asked : Question) :
    let out := (ask (p.scene b) (p.collector t) asked).go (own, p.casting, [])
    let scratch := (ask (p₀.scene b) (sieve p.nodes (p₀.hierarchy.view p.nodes) t) asked).go
      (querier b, [])
    out.1 = scratch.1 ∧ out.2.2.2 = scratch.2.2 ∧
      out.2.2.1.Sound p.nodes (some p.hierarchyView) ∧
      (out.1.isOk → out.2.1.Ready b.frozen.encoding.graph.size) := by
  intro out scratch
  have hnodes : p.nodes.nodes = (p₀.scene b).nodes.nodes := h.interned.nodes
  have hscene : ask (p.scene b) (p.collector t) asked = ask (p₀.scene b) (p.collector t) asked :=
    ask_congr hnodes (p.collector t) asked
  have hview : p.hierarchyView = p₀.hierarchy.view p.nodes := by rw [hierarchyView, h.hierarchy]
  -- the collector keeps in step with the visitor that decides from scratch
  obtain ⟨hend, -, hkept, hlist⟩ := tracks_ask (tracks_collector h.interned.sane ht)
    (p₀.scene b) asked (own, p.casting, []) (own, []) ⟨rfl, h.sound, rfl⟩
  rw [hview, ← hscene] at hend hlist
  rw [← hscene] at hkept
  -- and a querier whose labels are used up with a new one
  have hagrees : AgreesOn (ask (p₀.scene b) (sieve p.nodes (p₀.hierarchy.view p.nodes) t) asked)
      own (querier b) := agreesOn_ask (.inl ⟨hown, Querier.ready_new _⟩) _ _
  obtain ⟨hanswer, hfound⟩ := hagrees []
  refine ⟨hend.trans hanswer, hlist.trans hfound, hkept, fun hok => ?_⟩
  have hgo : (ask (p₀.scene b) (p.collector t) asked).go (own, p.casting, []) = out := by
    rw [← hscene]
  match out, hgo with
  | (.ok answer, q', s'), hgo => exact ready_of_ask hown asked hgo
  | (.error f, q', s'), _ => simp [Except.isOk, Except.toBool] at hok

/-- The outcome of a query that can be asked. -/
theorem run_of_asked {p' : Program} {t : Option TypeId} {asked : Question}
    (hgo : (task b q).go p = (.ok (ask (p'.scene b) (p'.collector t) asked), p')) :
    run b q own p =
      let out := (ask (p'.scene b) (p'.collector t) asked).go (own, p'.casting, [])
      (out.1.map fun ok => { query := q, ok, objects := Fact.sorted out.2.2.2 }, out.2.1,
        { p' with casting := out.2.2.1 }) := by
  rw [run, hgo]

/-- **The outcome of a query is decided from scratch**, whatever queries have left of the
program. They leave no more than that, and a querier whose labels are used
up has them used up again. -/
theorem run_spec (h : Queried p₀ p) (ht : ∃ t, ((type q.type).go p₀).1 = .ok t)
    (hown : own.Ready b.frozen.encoding.graph.size) :
    let out := run b q own p
    Queried p₀ out.2.2 ∧ (out.1.isOk → out.2.1.Ready b.frozen.encoding.graph.size) ∧
      ((∃ e, ((question q).go p₀).1 = .error e ∧ out.1 = refusal q e) ∨
      ∃ asked u t, ((question q).go p₀).1 = .ok asked ∧ p₀.nodes.Interned u ∧ Picks u q t ∧
        out.1 = outcome p₀ b q asked u t) := by
  obtain ⟨u, hu, ⟨e, hasked, hgo⟩ | ⟨asked, t, hasked, hpicks, hgo⟩⟩ := go_task h ht b
  · have hrun : run b q own p = (refusal q e, own, { p with nodes := u }) := by
      rw [run, hgo]
      cases e <;> rfl
    intro out
    rw [show out = _ from hrun]
    exact ⟨h.withNodes hu, fun _ => hown, .inl ⟨e, hasked, rfl⟩⟩
  · have hqueried := h.withNodes hu
    obtain ⟨hanswer, hfound, hsound, hready⟩ := go_ask_collector (b := b) hqueried (t := t)
      (fun id hid => (hpicks.names id hid).knows) hown asked
    intro out
    rw [show out = _ from run_of_asked hgo]
    refine ⟨hqueried.withCasting hsound, fun hok => hready ?_, .inr ⟨asked, u, t, hasked,
      h.interned.trans hu, hpicks, ?_⟩⟩
    · rwa [Steps.isOk_map] at hok
    · rw [outcome, ← hanswer, ← hfound]

/-- **A query has the outcome it has alone**, on what queries have left of the program. -/
theorem run_eq_alone (hp₀ : p₀.Orderly) (h : Queried p₀ p)
    (ht : ∃ t, ((type q.type).go p₀).1 = .ok t)
    (hown : own.Ready b.frozen.encoding.graph.size) :
    (run b q own p).1 = (run b q (querier b) p₀).1 := by
  obtain ⟨-, -, hout⟩ := run_spec (b := b) h ht hown
  obtain ⟨-, -, halone⟩ := run_spec (b := b) (.start hp₀) ht
    (Querier.ready_new b.frozen.encoding.graph.size)
  obtain ⟨e, hasked, hrun⟩ | ⟨asked, u, t, hasked, hu, hpicks, hrun⟩ := hout <;>
    obtain ⟨e', hasked', hrun'⟩ | ⟨asked', u', t', hasked', hu', hpicks', hrun'⟩ := halone <;>
    rw [hasked] at hasked' <;> cases hasked'
  · exact hrun.trans hrun'.symm
  · exact hrun.trans ((outcome_congr hp₀ hu hu' hpicks hpicks' b asked).trans hrun'.symm)

end Program

end PointsTo
