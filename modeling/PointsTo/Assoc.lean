/-!
# Association lists

A finite map as a list of pairs. `set` keeps one pair per key, so that the
list is the graph of the map it stands for: `get?_set_self` and
`get?_set_ne` are all that later modules read of it.
-/

namespace PointsTo

/-- A finite map from `κ` to `ν`, as its list of pairs. -/
abbrev Assoc (κ ν : Type) := List (κ × ν)

namespace Assoc

variable {κ ν : Type} [BEq κ]

/-- The value of a key. -/
def get? (m : Assoc κ ν) (k : κ) : Option ν := m.lookup k

/-- The value of a key, or a value for the keys the map does not have. -/
def getD (m : Assoc κ ν) (k : κ) (v : ν) : ν := (m.get? k).getD v

/-- Whether the map has the key. -/
def has (m : Assoc κ ν) (k : κ) : Bool := (m.get? k).isSome

/-- The map without the key. -/
def erase (m : Assoc κ ν) (k : κ) : Assoc κ ν := m.filter fun p => !(k == p.1)

/-- The map with the key bound to the value. -/
def set (m : Assoc κ ν) (k : κ) (v : ν) : Assoc κ ν := (k, v) :: m.erase k

/-- The keys, in no order that matters. -/
def keys (m : Assoc κ ν) : List κ := m.map (·.1)

/-- What was set is read back. -/
@[simp] theorem get?_set_self [ReflBEq κ] (m : Assoc κ ν) (k : κ) (v : ν) :
    (m.set k v).get? k = some v := by
  simp [get?, set]

/-- A key that was erased is not there. -/
@[simp] theorem get?_erase_self (m : Assoc κ ν) (k : κ) : (m.erase k).get? k = none := by
  induction m with
  | nil => rfl
  | cons p m ih =>
    obtain ⟨a, v⟩ := p
    cases h : k == a with
    | true => rwa [erase, List.filter_cons_of_neg (by simp [h])]
    | false =>
      rw [erase, List.filter_cons_of_pos (by simp [h]), get?, List.lookup_cons, h]
      exact ih

/-- Erasing a key leaves every other key as it was. -/
theorem get?_erase_ne [LawfulBEq κ] (m : Assoc κ ν) {k j : κ} (h : j ≠ k) :
    (m.erase k).get? j = m.get? j := by
  induction m with
  | nil => rfl
  | cons p m ih =>
    obtain ⟨a, v⟩ := p
    by_cases hk : k = a
    · have hj : (j == a) = false := by simpa [← hk] using h
      simpa [erase, get?, List.filter_cons, List.lookup_cons, hk, hj] using ih
    · have hk' : (k == a) = false := by simpa using hk
      cases hj : j == a <;> simp_all [erase, get?, List.lookup_cons]

/-- Setting a key leaves every other key as it was. -/
theorem get?_set_ne [LawfulBEq κ] (m : Assoc κ ν) {k j : κ} (v : ν) (h : j ≠ k) :
    (m.set k v).get? j = m.get? j := by
  have hj : (j == k) = false := by simpa using h
  rw [← get?_erase_ne m h]
  simp [set, get?, List.lookup_cons, hj]

end Assoc

end PointsTo
