import PointsTo.Fault
/-!
# Running attempts

What an attempt leaves behind, read off its parts: the state is kept even
where a part stops with a fault.
-/

namespace PointsTo

namespace Attempt

variable {σ α β : Type}

@[simp] theorem go_pure (a : α) (s : σ) : (pure a : Attempt σ α).go s = (.ok a, s) := rfl

@[simp] theorem go_get (s : σ) : (get : Attempt σ σ).go s = (.ok s, s) := rfl

@[simp] theorem go_modify (f : σ → σ) (s : σ) :
    (modify f : Attempt σ Unit).go s = (.ok (), f s) := rfl

/-- What the state was is gone. -/
@[simp] theorem go_set (s s' : σ) : (set s' : Attempt σ PUnit).go s = (.ok ⟨⟩, s') := rfl

/-- A fault leaves the state as it was. -/
@[simp] theorem go_throw (f : Fault) (s : σ) :
    (throw f : Attempt σ α).go s = (.error f, s) := rfl

/-- What is worked out beside the state does not touch it. -/
@[simp] theorem go_liftM (x : Except Fault α) (s : σ) :
    (liftM x : Attempt σ α).go s = (x, s) := rfl

/-- The second part runs from where the first one ended, unless that
stopped. -/
theorem go_bind (x : Attempt σ α) (f : α → Attempt σ β) (s : σ) :
    (x >>= f).go s = match x.go s with
      | (.ok a, s') => (f a).go s'
      | (.error e, s') => (.error e, s') := by
  simp only [go, bind, ExceptT.bind, ExceptT.mk, ExceptT.run, StateT.run, StateT.bind]
  generalize x s = end₁
  obtain ⟨r, s'⟩ := end₁
  cases r <;> rfl

end Attempt

end PointsTo
