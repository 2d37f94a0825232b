/-!
# Steps that may fail

A step changes a state and may fail, and what it changed before failing
stays changed. `Meets` says what holds at either end; the rules for it
follow the ways steps are put together. Most of what is shown of steps is
that they keep something, however they end (`Keeps`).
-/

namespace PointsTo

namespace Steps

variable {ε σ α β : Type}

/-- What a sequence gives, its parts give. -/
theorem exists_of_bind_eq_ok {r : Except ε α} {f : α → Except ε β} {b : β}
    (h : r >>= f = .ok b) : ∃ a, r = .ok a ∧ f a = .ok b := by
  cases r with
  | error e => cases h
  | ok a => exact ⟨a, rfl, h⟩

theorem isOk_iff {r : Except ε α} : r.isOk ↔ ∃ a, r = .ok a := by
  cases r <;> simp [Except.isOk, Except.toBool]

theorem isOk_map (f : α → β) (r : Except ε α) : (r.map f).isOk = r.isOk := by
  cases r <;> rfl

/-- From a state with `P` the step ends with a result in a state with `Q`, or
fails in a state with `E`. -/
def Meets (E P : σ → Prop) (x : ExceptT ε (StateM σ) α) (Q : α → σ → Prop) : Prop :=
  ∀ s, P s → match (StateT.run (ExceptT.run x) s : Except ε α × σ) with
    | (.ok a, s') => Q a s'
    | (.error _, s') => E s'

/-- The step keeps `P`, however it ends. -/
abbrev Keeps (P : σ → Prop) (x : ExceptT ε (StateM σ) α) : Prop := Meets P P x fun _ => P

variable {E E' P : σ → Prop} {Q Q' : α → σ → Prop} {x : ExceptT ε (StateM σ) α}

/-- How a step ends from a state with `P`. -/
theorem Meets.cases (h : Meets E P x Q) {s : σ} (hs : P s) :
    (∃ a s', (StateT.run (ExceptT.run x) s : Except ε α × σ) = (.ok a, s') ∧ Q a s') ∨
      ∃ e s', (StateT.run (ExceptT.run x) s : Except ε α × σ) = (.error e, s') ∧ E s' := by
  have hend := h s hs
  generalize (StateT.run (ExceptT.run x) s : Except ε α × σ) = run at hend ⊢
  obtain ⟨r, s'⟩ := run
  cases r with
  | ok a => exact .inl ⟨a, s', rfl, hend⟩
  | error e => exact .inr ⟨e, s', rfl, hend⟩

/-- What holds however the step ends. -/
theorem Meets.run (h : Meets P P x Q) (hQ : ∀ a s, Q a s → P s) {s : σ} (hs : P s) :
    P (StateT.run (ExceptT.run x) s : Except ε α × σ).2 := by
  obtain ⟨a, s', hrun, hend⟩ | ⟨e, s', hrun, hend⟩ := h.cases hs <;> rw [hrun]
  · exact hQ a s' hend
  · exact hend

/-- A step that meets what is stronger meets what is weaker. -/
theorem Meets.mono (h : Meets E P x Q) (hE : ∀ s, E s → E' s) (hQ : ∀ a s, Q a s → Q' a s) :
    Meets E' P x Q' := by
  intro s hs
  obtain ⟨a, s', hrun, hend⟩ | ⟨e, s', hrun, hend⟩ := h.cases hs <;> rw [hrun]
  · exact hQ a s' hend
  · exact hE s' hend

theorem Meets.pre {P' : σ → Prop} (h : Meets E P x Q) (hP : ∀ s, P' s → P s) : Meets E P' x Q :=
  fun s hs => h s (hP s hs)

/-- Nothing is said of a failure. -/
theorem Meets.loosen (h : Meets E P x Q) : Meets (fun _ => True) P x Q :=
  h.mono (fun _ _ => trivial) fun _ _ hQ => hQ

/-- A fact that is no matter of the state. -/
theorem meets_of_and {φ : Prop} (h : φ → Meets E P x Q) : Meets E (fun s => φ ∧ P s) x Q :=
  fun s hs => h hs.1 s hs.2

/-- A step may be looked at under what is known of its arguments. -/
theorem meets_of_fact {φ : Prop} (h : φ → Meets E (fun _ => True) x Q) :
    Meets E (fun _ => φ) x Q :=
  fun s hφ => h hφ s trivial

/-- It holds after every step that does not fail. -/
theorem meets_fact {φ : Prop} (hφ : φ) : Meets (fun _ => True) P x fun _ _ => φ := by
  intro s _
  split <;> trivial

/-- What holds of a result. -/
theorem Meets.of_ok (h : Meets E P x Q) {s s' : σ} {a : α} (hs : P s)
    (hrun : (StateT.run (ExceptT.run x) s : Except ε α × σ) = (.ok a, s')) : Q a s' := by
  have hend := h s hs
  rwa [hrun] at hend

/-! ## The parts of a step -/

theorem meets_pure {a : α} (h : ∀ s, P s → Q a s) :
    Meets E P (pure a : ExceptT ε (StateM σ) α) Q := h

theorem meets_throw {e : ε} (h : ∀ s, P s → E s) :
    Meets E P (throw e : ExceptT ε (StateM σ) α) Q := h

theorem keeps_pure (a : α) : Keeps P (pure a : ExceptT ε (StateM σ) α) :=
  meets_pure fun _ hs => hs

theorem keeps_throw (e : ε) : Keeps P (throw e : ExceptT ε (StateM σ) α) :=
  meets_throw fun _ hs => hs

theorem meets_set {s' : σ} {Q : PUnit → σ → Prop} (h : ∀ s, P s → Q ⟨⟩ s') :
    Meets E P (set s' : ExceptT ε (StateM σ) PUnit) Q := h

theorem meets_modify {f : σ → σ} {Q : PUnit → σ → Prop} (h : ∀ s, P s → Q ⟨⟩ (f s)) :
    Meets E P (modify f : ExceptT ε (StateM σ) PUnit) Q := h

/-- The second part runs where the first one has ended, unless that failed. -/
theorem run_bind (x : ExceptT ε (StateM σ) α) (f : α → ExceptT ε (StateM σ) β) (s : σ) :
    (StateT.run (ExceptT.run (x >>= f)) s : Except ε β × σ) =
      match (StateT.run (ExceptT.run x) s : Except ε α × σ) with
      | (.ok a, s') => StateT.run (ExceptT.run (f a)) s'
      | (.error e, s') => (.error e, s') := by
  simp only [Bind.bind, ExceptT.bind, ExceptT.mk, ExceptT.run, StateT.run, StateT.bind]
  generalize x s = run
  obtain ⟨r, s'⟩ := run
  cases r <;> rfl

/-- What the first step ends with is what the second one starts from. -/
theorem Meets.bind {f : α → ExceptT ε (StateM σ) β} {Q' : β → σ → Prop} (hx : Meets E P x Q)
    (hf : ∀ a, Meets E (Q a) (f a) Q') : Meets E P (x >>= f) Q' := by
  intro s hs
  rw [run_bind]
  obtain ⟨a, s', hrun, hend⟩ | ⟨e, s', hrun, hend⟩ := hx.cases hs <;> rw [hrun]
  · exact hf a s' hend
  · exact hend

/-- The state is read first, and the rest starts from it. -/
theorem meets_get_bind {f : σ → ExceptT ε (StateM σ) β} {Q : β → σ → Prop}
    (hf : ∀ s, P s → Meets E (· = s) (f s) Q) : Meets E P (get >>= f) Q :=
  fun s hs => hf s hs s rfl

/-- The state is read first, whatever it is. -/
theorem meets_read {f : σ → ExceptT ε (StateM σ) β} {Q : β → σ → Prop}
    (hf : ∀ s, Meets E P (f s) Q) : Meets E P (get >>= f) Q :=
  fun s hs => hf s s hs

/-- The state is known before the step. -/
theorem meets_at (h : ∀ s, P s → Meets E (· = s) x Q) : Meets E P x Q :=
  fun s hs => h s hs s rfl

/-- The rest comes after a part that is left out in some cases. -/
theorem Meets.after_ite {c : Prop} {_ : Decidable c} {x : ExceptT ε (StateM σ) PUnit}
    {f : PUnit → ExceptT ε (StateM σ) β} {Q : β → σ → Prop} (hx : c → Meets E P x fun _ => P)
    (hf : Meets E P (f ⟨⟩) Q) : Meets E P (if c then x >>= f else f ⟨⟩) Q := by
  split
  · next hc => exact (hx hc).bind fun _ => hf
  · exact hf

/-- A check comes before the rest. -/
theorem Meets.after_check {c : Prop} {_ : Decidable c} {e : ε}
    {f : PUnit → ExceptT ε (StateM σ) β} {Q : β → σ → Prop} (hE : ∀ s, P s → E s)
    (hf : ¬ c → Meets E P (f ⟨⟩) Q) : Meets E P (if c then throw e >>= f else f ⟨⟩) Q := by
  split
  · exact (meets_throw hE).bind (Q := fun _ _ => False) fun _ _ hno => hno.elim
  · next hc => exact hf hc

/-! ## Loops -/

section Loops

variable {l : List α}

/-- A loop that hands something on, whose rounds get on with what is to be done. -/
theorem meets_foldlM_done {f : β → α → ExceptT ε (StateM σ) β} {P : List α → β → σ → Prop}
    (h : ∀ done b a, Meets E (P done b) (f b a) (P (done ++ [a]))) (b : β) :
    Meets E (P [] b) (l.foldlM f b) (P l) := by
  have key : ∀ todo done b, Meets E (P done b) (todo.foldlM f b) (P (done ++ todo)) := by
    intro todo
    induction todo with
    | nil =>
      intro done b
      rw [List.append_nil]
      exact meets_pure fun _ hs => hs
    | cons a todo ih =>
      intro done b
      have hrest := ih (done ++ [a])
      rw [List.append_assoc, List.singleton_append] at hrest
      rw [List.foldlM_cons]
      exact (h done b a).bind hrest
  exact key l [] b

/-- A loop that hands nothing on. -/
theorem forM_eq_foldlM (l : List α) (f : α → ExceptT ε (StateM σ) PUnit) :
    l.forM f = l.foldlM (fun _ a => f a) ⟨⟩ := by
  induction l with
  | nil => rfl
  | cons a l ih => exact bind_congr fun _ => ih

/-- A loop whose rounds get on with what is to be done. -/
theorem meets_forM {f : α → ExceptT ε (StateM σ) PUnit} {P : List α → σ → Prop}
    (h : ∀ done a, Meets E (P done) (f a) fun _ => P (done ++ [a])) :
    Meets E (P []) (l.forM f) fun _ => P l := by
  rw [forM_eq_foldlM]
  exact meets_foldlM_done (P := fun done _ => P done) (fun done _ a => h done a) ⟨⟩

theorem keeps_forM {f : α → ExceptT ε (StateM σ) PUnit} (h : ∀ a, Keeps P (f a)) :
    Keeps P (l.forM f) :=
  meets_forM (P := fun _ => P) fun _ a => h a

/-- A loop that hands something on. -/
theorem meets_foldlM {f : β → α → ExceptT ε (StateM σ) β} {P : β → σ → Prop}
    (h : ∀ b a, Meets E (P b) (f b a) P) (b : β) : Meets E (P b) (l.foldlM f b) P :=
  meets_foldlM_done (P := fun _ => P) (fun _ => h) b

/-- What every step keeps, a fold of them does. -/
theorem keeps_foldlM {f : β → α → ExceptT ε (StateM σ) β} (h : ∀ b a, Keeps P (f b a)) (b : β) :
    Keeps P (l.foldlM f b) :=
  meets_foldlM h b

theorem keeps_forIn {f : α → β → ExceptT ε (StateM σ) (ForInStep β)}
    (h : ∀ a b, Keeps P (f a b)) (b : β) : Keeps P (forIn l b f) := by
  induction l generalizing b with
  | nil => exact keeps_pure _
  | cons a l ih =>
    rw [List.forIn_cons]
    refine (h a b).bind fun r => ?_
    cases r with
    | done b => exact keeps_pure _
    | yield b => exact ih b

theorem keeps_mapM {f : α → ExceptT ε (StateM σ) β} (h : ∀ a, Keeps P (f a)) :
    Keeps P (l.mapM f) := by
  induction l with
  | nil => exact keeps_pure _
  | cons a l ih =>
    rw [List.mapM_cons]
    exact (h a).bind fun _ => ih.bind fun _ => keeps_pure _

end Loops

end Steps

end PointsTo
