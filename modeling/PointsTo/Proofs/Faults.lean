import PointsTo.Proofs.Declarations
import PointsTo.Proofs.TypeNames
/-!
# Steps that stop with a fault

A step of a program may fail for two reasons: the description is wrong, which
it says, or it has run into a fault, which ends it for good. `Stops` says
where a step does the latter, part by part, and a step is `Clear` if it never
does. Reading a description is clear, whatever it says (`clear_declare`):
what it asks of the universe is there when it asks for it.
-/

namespace PointsTo

/-- The fault an error comes from, if it comes from one. -/
def ProgramError.fault? (e : ProgramError) : Option Fault :=
  match e.cause with
  | .stopped f => some f
  | _ => none

namespace Steps

variable {σ α β : Type} {E P P' : σ → Prop} {Q : α → σ → Prop} {s : σ} {f : Fault}
  {x : ExceptT ProgramError (StateM σ) α} {g : α → ExceptT ProgramError (StateM σ) β}

/-- **The step stops with that fault.** -/
def Stops (x : ExceptT ProgramError (StateM σ) α) (s : σ) (f : Fault) : Prop :=
  ∃ e s', (StateT.run (ExceptT.run x) s : Except ProgramError α × σ) = (.error e, s') ∧
    e.fault? = some f

/-- The fault of an outcome, if it is one. -/
def faultIn? : Except ProgramError α → Option Fault
  | .error e => e.fault?
  | .ok _ => none

/-- Where a step stops can be read off its outcome. -/
theorem stops_of_faultIn?
    (h : faultIn? (StateT.run (ExceptT.run x) s : Except ProgramError α × σ).1 = some f) :
    Stops x s f := by
  unfold Stops
  generalize (StateT.run (ExceptT.run x) s : Except ProgramError α × σ) = run at h
  obtain ⟨r, s'⟩ := run
  cases r with
  | ok a => cases h
  | error e => exact ⟨e, s', rfl, h⟩

/-- The step stops in its first part, or in what comes after that. -/
theorem stops_bind_iff : Stops (x >>= g) s f ↔ Stops x s f ∨
    ∃ a t, (StateT.run (ExceptT.run x) s : Except ProgramError α × σ) = (.ok a, t) ∧
      Stops (g a) t f := by
  unfold Stops
  rw [run_bind]
  generalize (StateT.run (ExceptT.run x) s : Except ProgramError α × σ) = run
  obtain ⟨r, t⟩ := run
  cases r with
  | ok a =>
    constructor
    · exact fun h => .inr ⟨a, t, rfl, h⟩
    · rintro (⟨e, s', h, -⟩ | ⟨a', t', h, hg⟩) <;> cases h
      exact hg
  | error e =>
    constructor
    · rintro ⟨e', s', h, hf⟩
      cases h
      exact .inl ⟨e, t, rfl, hf⟩
    · rintro (⟨e', s', h, hf⟩ | ⟨a, t', h, -⟩) <;> cases h
      exact ⟨e, t, rfl, hf⟩

/-- What a sequence gives, its parts give. -/
theorem run_bind_eq_ok {b : β} {t : σ} :
    (StateT.run (ExceptT.run (x >>= g)) s : Except ProgramError β × σ) = (.ok b, t) ↔
      ∃ a t', (StateT.run (ExceptT.run x) s : Except ProgramError α × σ) = (.ok a, t') ∧
        (StateT.run (ExceptT.run (g a)) t' : Except ProgramError β × σ) = (.ok b, t) := by
  rw [run_bind]
  generalize (StateT.run (ExceptT.run x) s : Except ProgramError α × σ) = run
  obtain ⟨r, t'⟩ := run
  constructor
  · intro h
    cases r with
    | ok a => exact ⟨a, t', rfl, h⟩
    | error e => cases h
  · rintro ⟨a, t'', h, hg⟩
    cases h
    exact hg

theorem not_stops_pure (a : α) : ¬ Stops (pure a : ExceptT ProgramError (StateM σ) α) s f := by
  rintro ⟨e, s', h, -⟩
  cases h

/-- **Where a loop stops**: in one of its rounds, after those before it. -/
theorem stops_foldlM_iff {l : List α} {g : β → α → ExceptT ProgramError (StateM σ) β} {b : β} :
    Stops (l.foldlM g b) s f ↔ ∃ done a rest b' t, l = done ++ a :: rest ∧
      (StateT.run (ExceptT.run (done.foldlM g b)) s : Except ProgramError β × σ) = (.ok b', t) ∧
      Stops (g b' a) t f := by
  induction l generalizing b s with
  | nil => simp [not_stops_pure]
  | cons a l ih =>
    rw [List.foldlM_cons, stops_bind_iff]
    constructor
    · rintro (h | ⟨b₁, s₁, hrun, h⟩)
      · exact ⟨[], a, l, b, s, rfl, rfl, h⟩
      · obtain ⟨done, a', rest, b', t, rfl, hdone, hstops⟩ := ih.1 h
        refine ⟨a :: done, a', rest, b', t, rfl, ?_, hstops⟩
        rw [List.foldlM_cons]
        exact run_bind_eq_ok.2 ⟨b₁, s₁, hrun, hdone⟩
    · rintro ⟨done, a', rest, b', t, hl, hdone, hstops⟩
      cases done with
      | nil =>
        obtain ⟨rfl, rfl⟩ := List.cons.inj hl
        cases hdone
        exact .inl hstops
      | cons a₀ done =>
        obtain ⟨rfl, rfl⟩ := List.cons.inj hl
        rw [List.foldlM_cons] at hdone
        obtain ⟨b₁, s₁, hrun, hdone⟩ := run_bind_eq_ok.1 hdone
        exact .inr ⟨b₁, s₁, hrun, ih.2 ⟨done, a', rest, b', t, rfl, hdone, hstops⟩⟩

/-! ## Clear steps -/

/-- From a state with `P` the step does not stop with a fault. -/
def Clear (P : σ → Prop) (x : ExceptT ProgramError (StateM σ) α) : Prop :=
  ∀ s, P s → ∀ f, ¬ Stops x s f

/-- A step that is clear of more states is clear of fewer. -/
theorem Clear.pre (h : Clear P x) (hP : ∀ s, P' s → P s) : Clear P' x := fun s hs =>
  h s (hP s hs)

/-- What a clear step fails for. -/
theorem Clear.fault? (h : Clear P x) (hs : P s) {e : ProgramError} {t : σ}
    (hrun : (StateT.run (ExceptT.run x) s : Except ProgramError α × σ) = (.error e, t)) :
    e.fault? = none := by
  by_contra hsome
  obtain ⟨f, hf⟩ := Option.ne_none_iff_exists'.1 hsome
  exact h s hs f ⟨e, t, hrun, hf⟩

theorem clear_pure (a : α) : Clear P (pure a : ExceptT ProgramError (StateM σ) α) :=
  fun _ _ _ => not_stops_pure a

/-- **An error that is no fault is clear.** -/
theorem clear_throw {e : ProgramError} (he : e.fault? = none) :
    Clear P (throw e : ExceptT ProgramError (StateM σ) α) := by
  rintro s _ f ⟨e', s', h, hf⟩
  obtain rfl : e = e' := Except.error.inj (Prod.mk.inj h).1
  rw [he] at hf
  cases hf

theorem clear_set (s' : σ) : Clear P (set s' : ExceptT ProgramError (StateM σ) PUnit) := by
  rintro s _ f ⟨e, t, h, -⟩
  cases h

theorem clear_modify (m : σ → σ) :
    Clear P (modify m : ExceptT ProgramError (StateM σ) PUnit) := by
  rintro s _ f ⟨e, t, h, -⟩
  cases h

/-- **One clear step after another**, in the states that the first one leaves. -/
theorem Clear.bind (hx : Clear P x) (hm : Meets E P x Q) (hg : ∀ a, Clear (Q a) (g a)) :
    Clear P (x >>= g) := by
  intro s hs f h
  obtain h | ⟨a, t, hrun, h⟩ := stops_bind_iff.1 h
  · exact hx s hs f h
  · exact hg a t (hm.of_ok hs hrun) f h

/-- What comes later is clear whatever the state is. -/
theorem Clear.then (hx : Clear P x) (hg : ∀ a, Clear (fun _ => True) (g a)) : Clear P (x >>= g) :=
  hx.bind (Q := fun _ _ => True) (meets_fact trivial) hg

/-- What is read is the state itself. -/
theorem clear_get_bind {g : σ → ExceptT ProgramError (StateM σ) β}
    (hg : ∀ s, P s → Clear (· = s) (g s)) : Clear P (get >>= g) :=
  fun s hs => hg s hs s rfl

/-- It does not matter to what follows when it was read. -/
theorem clear_read {g : σ → ExceptT ProgramError (StateM σ) β} (hg : ∀ s, Clear P (g s)) :
    Clear P (get >>= g) := fun s hs => hg s s hs

/-- The rest comes after a part that is left out in some cases. -/
theorem Clear.after_ite {c : Prop} {_ : Decidable c} {x : ExceptT ProgramError (StateM σ) PUnit}
    {g : PUnit → ExceptT ProgramError (StateM σ) β} (hx : c → Clear P x)
    (hm : c → Meets E P x fun _ => P) (hg : Clear P (g ⟨⟩)) :
    Clear P (if c then x >>= g else g ⟨⟩) := by
  split
  · next hc => exact (hx hc).bind (hm hc) fun _ => hg
  · exact hg

/-- A check comes before the rest. -/
theorem Clear.after_check {c : Prop} {_ : Decidable c} {e : ProgramError} (he : e.fault? = none)
    {g : PUnit → ExceptT ProgramError (StateM σ) β} (hg : ¬ c → Clear P (g ⟨⟩)) :
    Clear P (if c then throw e >>= g else g ⟨⟩) := by
  split
  · exact (clear_throw he).bind (E := fun _ => True) (Q := fun _ _ => False)
      (meets_throw fun _ _ => trivial) fun _ _ hno => hno.elim
  · next hc => exact hg hc

section Loops

variable {l : List α}

/-- A loop of clear steps is clear if each step keeps what the others need. -/
theorem clear_forM {g : α → ExceptT ProgramError (StateM σ) PUnit} (h : ∀ a, Clear P (g a))
    (hk : ∀ a, Keeps P (g a)) : Clear P (l.forM g) := by
  induction l with
  | nil => exact clear_pure _
  | cons a l ih => exact (h a).bind (hk a) fun _ => ih

/-- A loop whose steps are clear anywhere needs nothing. -/
theorem clear_forIn {g : α → β → ExceptT ProgramError (StateM σ) (ForInStep β)}
    (h : ∀ a b, Clear (fun _ => True) (g a b)) (b : β) : Clear P (forIn l b g) := by
  refine Clear.pre (P := fun _ => True) ?_ fun _ _ => trivial
  induction l generalizing b with
  | nil => exact clear_pure _
  | cons a l ih =>
    rw [List.forIn_cons]
    refine (h a b).then fun r => ?_
    cases r with
    | done b => exact clear_pure _
    | yield b => exact ih b

/-- The same for a loop that carries a value along. -/
theorem clear_foldlM {g : β → α → ExceptT ProgramError (StateM σ) β} {P : β → σ → Prop}
    (h : ∀ b a, Clear (P b) (g b a)) (hm : ∀ b a, Meets E (P b) (g b a) P) (b : β) :
    Clear (P b) (l.foldlM g b) := by
  induction l generalizing b with
  | nil => exact clear_pure _
  | cons a l ih =>
    rw [List.foldlM_cons]
    exact (h b a).bind (hm b a) ih

/-- And for one that makes a list. -/
theorem clear_mapM {g : α → ExceptT ProgramError (StateM σ) β}
    (h : ∀ a, Clear (fun _ => True) (g a)) : Clear P (l.mapM g) := by
  refine Clear.pre (P := fun _ => True) ?_ fun _ _ => trivial
  induction l with
  | nil => exact clear_pure _
  | cons a l ih =>
    rw [List.mapM_cons]
    exact (h a).then fun _ => ih.then fun _ => clear_pure _

end Loops

/-! ## Clear steps and what they leave -/

/-- From a state with `P` the step does not stop with a fault, and it ends in a state with
`Q` unless it fails. -/
structure Steady (P : σ → Prop) (x : ExceptT ProgramError (StateM σ) α) (Q : α → σ → Prop) :
    Prop where
  clear : Clear P x
  meets : Meets (fun _ => True) P x Q

section Steady

variable {Q' : β → σ → Prop} {e : ProgramError}

theorem steady_pure {a : α} (h : ∀ s, P s → Q a s) :
    Steady P (pure a : ExceptT ProgramError (StateM σ) α) Q :=
  ⟨clear_pure a, meets_pure h⟩

/-- An error that is no fault establishes anything. -/
theorem steady_throw (he : e.fault? = none) :
    Steady P (throw e : ExceptT ProgramError (StateM σ) α) Q :=
  ⟨clear_throw he, meets_throw fun _ _ => trivial⟩

theorem Steady.pre (h : Steady P x Q) (hP : ∀ s, P' s → P s) : Steady P' x Q :=
  ⟨h.clear.pre hP, h.meets.pre hP⟩

/-- **Steady steps are put together** as clear steps are, and what one establishes is
what the next one needs. -/
theorem Steady.bind (hx : Steady P x Q) (hg : ∀ a, Steady (Q a) (g a) Q') :
    Steady P (x >>= g) Q' :=
  ⟨hx.clear.bind hx.meets fun a => (hg a).clear, hx.meets.bind fun a => (hg a).meets⟩

theorem steady_read {g : σ → ExceptT ProgramError (StateM σ) β} (hg : ∀ s, Steady P (g s) Q') :
    Steady P (get >>= g) Q' :=
  ⟨clear_read fun s => (hg s).clear, meets_read fun s => (hg s).meets⟩

/-- What is read is the state itself, as long as nothing is changed. -/
theorem steady_get_bind {g : σ → ExceptT ProgramError (StateM σ) β}
    (hg : ∀ s, P s → Steady (· = s) (g s) Q') : Steady P (get >>= g) Q' :=
  ⟨clear_get_bind fun s hs => (hg s hs).clear, meets_get_bind fun s hs => (hg s hs).meets⟩

/-- What does not depend on the state is at hand all along. -/
theorem steady_of_and {φ : Prop} (h : φ → Steady P x Q) : Steady (fun s => φ ∧ P s) x Q :=
  ⟨fun s hs => (h hs.1).clear s hs.2, meets_of_and fun hφ => (h hφ).meets⟩

/-- A check comes before the rest. -/
theorem Steady.after_check {c : Prop} {_ : Decidable c} (he : e.fault? = none)
    {g : PUnit → ExceptT ProgramError (StateM σ) β} (hg : ¬ c → Steady P (g ⟨⟩) Q') :
    Steady P (if c then throw e >>= g else g ⟨⟩) Q' :=
  ⟨.after_check he fun hc => (hg hc).clear,
    .after_check (fun _ _ => trivial) fun hc => (hg hc).meets⟩

/-- **What every step keeps is kept by the loop.** -/
theorem steady_foldlM {l : List α} {g : β → α → ExceptT ProgramError (StateM σ) β}
    {P : β → σ → Prop} (h : ∀ b a, Steady (P b) (g b a) P) (b : β) :
    Steady (P b) (l.foldlM g b) P :=
  ⟨clear_foldlM (fun b a => (h b a).clear) (fun b a => (h b a).meets) b,
    meets_foldlM (fun b a => (h b a).meets) b⟩

end Steady

end Steps

namespace Program

open Steps

variable {α : Type} {P : Program → Prop}

/-! ## Names -/

/-- A value that is not there is no fault, but the error that is given. -/
theorem clear_orFail {e : ProgramError} (he : e.fault? = none) (o : Option α) :
    Clear P (orFail e o) := by
  cases o with
  | none => exact clear_throw he
  | some a => exact clear_pure a

/-- A method that is not there is an error. -/
theorem clear_method (name : String) : Clear P (method name) :=
  clear_read fun _ => clear_orFail rfl _

theorem clear_node (name : String) : Clear P (node name) :=
  clear_read fun _ => clear_orFail rfl _

/-- So is a call with an end that is not. -/
theorem clear_callSite (e : EdgeDecl) : Clear P (callSite e) :=
  (clear_method _).then fun _ => (clear_method _).then fun _ => clear_pure _

theorem clear_isAlloc (n : NodeId) : Clear P (isAlloc n) := clear_read fun _ => clear_pure _

/-- A name that is taken is an error, and so is the empty one. -/
theorem clear_bindName (name : String) (n : NodeId) : Clear P (bindName name n) := by
  unfold bindName
  refine .after_check rfl fun _ => clear_read fun p => ?_
  exact .after_check rfl fun _ => clear_set _

/-- A step of the universe that has a result. -/
theorem clear_onNodes {f : Universe → Except Fault (α × Universe)}
    (h : ∀ p, P p → ∃ out, f p.nodes = .ok out) : Clear P (onNodes f) := by
  refine clear_get_bind fun p hp => ?_
  obtain ⟨⟨a, u⟩, hf⟩ := h p hp
  simp only [hf]
  exact (clear_set _).then fun _ => clear_pure a

/-- **Naming a type is clear.** The type an array or any-subtype type is made of is
there by then. -/
theorem clear_typeWithin : ∀ (fuel : Nat) (name : String),
    Clear (fun p => p.nodes.Sane) (typeWithin fuel name) := by
  -- where a type has been found, it can be used
  have hfound : ∀ {fuel : Nat} {name : String}, Meets (fun _ => True) (fun p => p.nodes.Sane)
      (typeWithin fuel name) fun t p => p.nodes.Sane ∧ ∃ name, p.nodes.Names name t := by
    intro fuel name
    refine meets_at fun p hp => (meets_typeWithin_names hp fuel name).mono (fun _ h => h) ?_
    rintro t _ ⟨u, rfl, hinterned, ht⟩
    exact ⟨hinterned.sane, _, ht⟩
  intro fuel
  induction fuel with
  | zero => exact fun name => clear_pure _
  | succ fuel ih =>
    intro name
    unfold typeWithin
    split
    · exact clear_pure _
    split
    · exact clear_pure _
    split
    · refine (ih _).bind hfound fun t => clear_onNodes ?_
      rintro p ⟨hp, name, hname⟩
      obtain ⟨e, he, -⟩ := hname.slot hp.blank
      exact ⟨_, by rw [Universe.addArrayType, he]⟩
    · refine (ih _).bind hfound fun t => clear_onNodes ?_
      rintro p ⟨hp, name, hname⟩
      obtain ⟨b, hb, -⟩ := hname.slot hp.blank
      exact ⟨_, by rw [Universe.addAnySubtype, hb]⟩
    · exact clear_read fun _ => clear_orFail rfl _

/-- **A type that is named is there or an error.** Sane universes have the elements and
bases that names are made of. -/
theorem clear_type (name : String) : Clear (fun p => p.nodes.Sane) (type name) :=
  clear_typeWithin _ name

/-! ## Declarations -/

theorem clear_declareTypes : Clear P declareTypes := by
  refine clear_read fun p => (clear_forIn (fun prim _ => ?_) _).then fun _ => ?_
  · exact (clear_modify _).then fun _ => clear_pure _
  refine (clear_forIn (fun c _ => ?_) _).then fun _ => clear_pure _
  exact .after_check rfl fun _ => (clear_modify _).then fun _ => clear_pure _

/-- What a class extends is looked up, and only then declared. -/
theorem clear_declareClass (c : ClassDecl) : Clear P (declareClass c) := by
  refine clear_read fun p => (clear_mapM fun _ => clear_orFail rfl _).then fun supers => ?_
  dsimp only
  generalize (p.nodes.lookupType c.name).getD noType = t
  have hmarks : Clear (fun _ => True) (do
      if c.isAbstract then
        modify fun p => { p with hierarchy := p.hierarchy.setAbstract t }
      if c.isUnresolved then
        modify fun p => { p with nodes := p.nodes.markUnresolved t } : Step Unit) := by
    refine .after_ite (E := fun _ => True) (fun _ => clear_modify _)
      (fun _ => meets_modify fun _ _ => trivial) ?_
    dsimp only
    split
    · exact clear_modify _
    · exact clear_pure _
  split
  · exact (clear_modify _).then fun _ => hmarks
  · split
    · exact (clear_pure _).then fun _ => (clear_modify _).then fun _ => hmarks
    · exact (clear_orFail rfl _).then fun _ => (clear_modify _).then fun _ => hmarks

theorem clear_declareRoot : Clear P declareRoot := by
  refine clear_read fun p => ?_
  dsimp only
  split
  · exact clear_pure _
  · exact (clear_orFail rfl _).then fun t => clear_set _

theorem clear_declareMethod (name : String) : Clear P (declareMethod name) := by
  unfold declareMethod
  exact .after_check rfl fun _ => clear_modify _

/-- Calls are looked up by the names of their ends. -/
theorem clear_declareEdge (e : EdgeDecl) : Clear P (declareEdge e) :=
  (clear_callSite e).then fun _ => clear_modify _

/-- A variable is made once its type and its method are known. -/
theorem clear_declareVariable (v : VariableDecl) : Clear Orderly (declareVariable v) := by
  refine (clear_method _).bind (keeps_method _) fun m => ?_
  refine ((clear_type _).pre fun p hp => hp.nodes).then fun t => ?_
  exact (clear_onNodes fun p _ => ⟨_, rfl⟩).then fun n => clear_bindName _ n

theorem clear_declareAlloc (a : AllocDecl) : Clear Orderly (declareAlloc a) := by
  refine ((clear_type _).pre fun p hp => hp.nodes).then fun t => ?_
  dsimp only
  split
  · exact (clear_onNodes fun p _ => ⟨_, rfl⟩).then fun n => clear_bindName _ n
  · refine (clear_method _).then fun m => ?_
    exact (clear_onNodes fun p _ => ⟨_, rfl⟩).then fun n => clear_bindName _ n

/-- **Reading a description is clear.** -/
theorem clear_declare : Clear Orderly declare := by
  have hP := framed_orderly
  have hF := hP.typeFree
  refine clear_read fun p => clear_declareTypes.bind (keeps_declareTypes hF) fun _ => ?_
  refine (clear_forM clear_declareClass (keeps_declareClass hF)).bind
    (keeps_forM (keeps_declareClass hF)) fun _ => ?_
  refine clear_declareRoot.bind (keeps_declareRoot hF) fun _ => ?_
  refine (clear_forM clear_declareMethod keeps_declareMethod).bind
    (keeps_forM keeps_declareMethod) fun _ => ?_
  refine (clear_forM clear_declareEdge keeps_declareEdge).bind
    (keeps_forM keeps_declareEdge) fun _ => ?_
  refine (clear_forM clear_declareVariable (keeps_declareVariable hP)).bind
    (keeps_forM (keeps_declareVariable hP)) fun _ => ?_
  exact clear_forM clear_declareAlloc (keeps_declareAlloc hP)

/-- **A description that cannot be used is not to blame on a fault.** -/
theorem fault?_of_ofDescription {file : String} {d : Description} {e : ProgramError}
    (h : ofDescription file d = .error e) : e.fault? = none := by
  have hstart : Orderly { name := file, description := d } := ⟨Universe.sane_empty, .inl rfl, rfl⟩
  unfold ofDescription at h
  split at h <;> cases h
  · next hgo => exact clear_declare.fault? hstart hgo
  · next hgo => exact (clear_declare.fault? hstart hgo :)

end Program

end PointsTo
