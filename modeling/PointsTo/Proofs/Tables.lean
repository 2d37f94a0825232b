import Mathlib.Data.List.Induction
import PointsTo.CallGraph.Basic
/-!
# Tables by method, and runs over lists

The small facts that proofs about tables and loops share: what is read
from a table after it has been built from the methods of a graph or
changed at one entry, and induction along a fold, where the invariant
knows which part of the list has been run through.
-/

namespace PointsTo

/-! ## Loops -/

/-- **A loop keeps what each of its rounds keeps.** The invariant speaks of
the elements that have been run through, in order. -/
theorem foldl_run {α β : Type} {f : β → α → β} {l : List α} {b : β} (P : List α → β → Prop)
    (hstart : P [] b)
    (hstep : ∀ done x s, (∃ rest, l = done ++ x :: rest) → P done s → P (done ++ [x]) (f s x)) :
    P l (l.foldl f b) := by
  have key : ∀ (todo done : List α) (s : β), l = done ++ todo → P done s →
      P l (todo.foldl f s) := by
    intro todo
    induction todo with
    | nil =>
      intro done s hl hs
      rw [hl, List.append_nil]
      exact hs
    | cons x todo ih =>
      intro done s hl hs
      exact ih (done ++ [x]) (f s x) (by rw [hl]; simp) (hstep done x s ⟨todo, hl⟩ hs)
  exact key l [] b rfl hstart

/-- Two loops over one list stay related if their rounds keep them so. -/
theorem foldl_run₂ {α β γ : Type} {f : β → α → β} {f' : γ → α → γ} {b : β} {b' : γ}
    (P : List α → β → γ → Prop) (hstart : P [] b b')
    (hstep : ∀ done x s s', P done s s' → P (done ++ [x]) (f s x) (f' s' x)) (l : List α) :
    P l (l.foldl f b) (l.foldl f' b') := by
  induction l using List.reverseRecOn with
  | nil => exact hstart
  | append_singleton l x ih =>
    rw [List.foldl_append, List.foldl_append]
    exact hstep l x _ _ ih

/-! ## Entries -/

/-- What is in a table after one entry has been replaced. -/
theorem eq_or_mem_of_mem_modify {α : Type} {xs : Array α} {i : Nat} {a x : α}
    (h : x ∈ xs.modify i fun _ => a) : x = a ∨ x ∈ xs := by
  obtain ⟨j, hj⟩ := Array.mem_iff_getElem?.1 h
  rw [Array.getElem?_modify] at hj
  split at hj
  · obtain ⟨_, -, rfl⟩ := Option.map_eq_some_iff.1 hj
    exact .inl rfl
  · exact .inr (Array.mem_of_getElem? hj)

section Slots

variable {α : Type} {xs : Array α} {i j : Int} {a : α}

/-- **Numbers below zero have no entry.** -/
theorem slot?_eq_some : slot? xs i = some a ↔ 0 ≤ i ∧ xs[i.toNat]? = some a := by
  by_cases h : 0 ≤ i <;> simp [slot?, h]

/-- All others below the size have one. -/
theorem slot?_isSome : (slot? xs i).isSome ↔ 0 ≤ i ∧ i < xs.size := by
  by_cases h : 0 ≤ i
  · rw [slot?, if_pos h, isSome_getElem?]
    omega
  · simp [slot?, h]

/-- An entry that is there is within the bounds. -/
theorem slot?_bounds (h : slot? xs i = some a) : 0 ≤ i ∧ i < xs.size :=
  slot?_isSome.1 (Option.isSome_of_eq_some h)

theorem slot?_eq_none : slot? xs i = none ↔ ¬ (0 ≤ i ∧ i < xs.size) := by
  rw [← slot?_isSome, Option.not_isSome_iff_eq_none]

/-- Changing an entry changes what is read there and nothing else. -/
theorem slot?_modify {f : α → α} (hj : 0 ≤ j) :
    slot? (xs.modify j.toNat f) i = if i = j then (slot? xs i).map f else slot? xs i := by
  by_cases hi : 0 ≤ i
  · have hij : j.toNat = i.toNat ↔ i = j := by omega
    simp [slot?, hi, Array.getElem?_modify, hij]
  · have hij : i ≠ j := by omega
    simp [slot?, hi, hij]

/-- What is read at an entry that is there changes with it, whatever stands for one that
is not. -/
theorem slot?_getD_modify {f : α → α} (h0 : 0 ≤ j) (hlt : j < xs.size) :
    (slot? (xs.modify j.toNat f) i).getD a =
      if i = j then f ((slot? xs i).getD a) else (slot? xs i).getD a := by
  rw [slot?_modify h0]
  split
  · next hij =>
    obtain ⟨b, hb⟩ := Option.isSome_iff_exists.1 (slot?_isSome.2 ⟨h0, hlt⟩)
    rw [hij, hb]
    rfl
  · rfl

/-- Reading through a map. -/
theorem slot?_map {β : Type} (f : α → β) : slot? (xs.map f) i = (slot? xs i).map f := by
  by_cases hi : 0 ≤ i <;> simp [slot?, hi]

/-- Setting an entry before or after all are mapped. -/
theorem map_modify_const {β : Type} (f : α → β) (n : Nat) :
    (xs.modify n fun _ => a).map f = (xs.map f).modify n fun _ => f a := by
  refine Array.ext_getElem? fun k => ?_
  simp only [Array.getElem?_map, Array.getElem?_modify]
  split
  · simp [Function.comp_def]
  · rfl

/-- The last entry has the old size as its number. -/
theorem slot?_push : slot? (xs.push a) i = if i = xs.size then some a else slot? xs i := by
  by_cases hi : 0 ≤ i
  · have hsize : i.toNat = xs.size ↔ i = xs.size := by omega
    simp [slot?, hi, Array.getElem?_push, hsize]
  · have hne : i ≠ xs.size := by omega
    simp [slot?, hi, hne]

/-- A table of one value has it everywhere. -/
theorem slot?_replicate {n : Nat} :
    slot? (Array.replicate n a) i = if 0 ≤ i ∧ i < n then some a else none := by
  by_cases hi : 0 ≤ i
  · have hlt : i.toNat < n ↔ 0 ≤ i ∧ i < n := by omega
    rw [slot?, if_pos hi, Array.getElem?_replicate]
    exact if_congr hlt rfl rfl
  · simp [slot?, hi]

end Slots

namespace CallGraph

variable {g : CallGraph} {m : Int}

theorem hasMethod_iff : g.hasMethod m ↔ 0 ≤ m ∧ m < g.size := by simp [hasMethod]

@[simp] theorem mem_methods : m ∈ g.methods ↔ g.hasMethod m := by
  rw [hasMethod_iff]
  simp only [methods, List.mem_map, List.mem_range, Int.ofNat_eq_natCast]
  constructor
  · rintro ⟨n, hn, rfl⟩
    omega
  · rintro ⟨h0, hlt⟩
    exact ⟨m.toNat, by omega, by omega⟩

theorem nodup_methods : g.methods.Nodup :=
  List.Pairwise.map _ (fun _ _ h hab => h (Int.ofNat.inj hab)) List.nodup_range

theorem length_methods : g.methods.length = g.size := by simp [methods]

/-- A table with one entry per method. -/
theorem slot?_methods {β : Type} {f : MethodId → β} :
    slot? (g.methods.map f).toArray m = if g.hasMethod m then some (f m) else none := by
  by_cases h : g.hasMethod m
  · obtain ⟨h0, hlt⟩ := hasMethod_iff.1 h
    have hn : m.toNat < g.size := by omega
    have hm : Int.ofNat m.toNat = m := Int.toNat_of_nonneg h0
    rw [if_pos h, slot?_eq_some]
    refine ⟨h0, ?_⟩
    simp only [methods, List.map_map, List.getElem?_toArray, List.getElem?_map,
      List.getElem?_range hn, Option.map_some, Function.comp_apply, hm]
  · rw [if_neg h, slot?_eq_none]
    simpa [length_methods, hasMethod_iff] using h

end CallGraph

end PointsTo
