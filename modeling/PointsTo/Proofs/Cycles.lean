import Mathlib.Order.Bounds.Defs
import PointsTo.Proofs.Circuits
/-!
# All elementary cycles

`IsCycle` says what an elementary cycle is, and `elementaryCycles_complete_iff` what
`elementaryCycles` finds of them. A round of the enumeration starts at the least point
on a cycle among the keys that are left and finds the cycles through it
(`mem_circuit_iff`); what is left for the next rounds are the cycles above that point.
Components are only known below the order of the graph, and the largest 64-bit number
is not below it: cycles through that key are overlooked, and an arc that leads there
from another key is a fault.
-/

namespace PointsTo

/-- An elementary cycle, written from its least point back to it: from one point to the
next there is an arc, and no point is met twice on the way. -/
inductive IsCycle (arc : Int → Int → Prop) : List Int → Prop
  | mk {s : Int} {q : List Int} (chain : List.IsChain arc (s :: (q ++ [s])))
      (nodup : (s :: q).Nodup) (least : ∀ x ∈ q, s ≤ x) : IsCycle arc (s :: (q ++ [s]))

/-- A loop is an elementary cycle. -/
theorem isCycle_loop {arc : Int → Int → Prop} {a : Int} (h : arc a a) : IsCycle arc [a, a] :=
  .mk (q := []) (by simpa using h) (List.nodup_singleton a) (by simp)

/-! ## Cycles and reachability -/

section Chains

variable {next : Int → List Int} {a s x y : Int} {c l q : List Int}

/-- A chain leads from its first point to all of its points. -/
theorem reaches_of_isChain (h : List.IsChain (fun a b => b ∈ next a) (a :: l)) (hx : x ∈ a :: l) :
    Reaches next a x := by
  induction l generalizing a with
  | nil =>
    rw [List.mem_singleton.1 hx]
  | cons b l ih =>
    obtain ⟨hab, hchain⟩ := List.isChain_cons_cons.1 h
    rcases List.mem_cons.1 hx with rfl | hx
    · exact .refl
    · exact .head hab (ih hchain hx)

/-- A chain back to its start goes on from each of its points, and gets back. -/
theorem exists_next_of_isChain (h : List.IsChain (fun a b => b ∈ next a) (s :: (q ++ [s])))
    (hx : x ∈ s :: (q ++ [s])) :
    ∃ y ∈ next x, y ∈ s :: (q ++ [s]) ∧ Reaches next y s := by
  have hx : x ∈ s :: q := by
    rcases List.mem_cons.1 hx with rfl | hx
    · exact List.mem_cons_self
    · rcases List.mem_append.1 hx with hx | hx
      · exact List.mem_cons_of_mem _ hx
      · rw [List.mem_singleton.1 hx]
        exact List.mem_cons_self
  obtain ⟨l, r, hlr⟩ := List.append_of_mem hx
  have hsplit : s :: (q ++ [s]) = l ++ x :: (r ++ [s]) := by
    rw [← List.cons_append, hlr, List.append_assoc, List.cons_append]
  have hrest := (List.isChain_split.1 (hsplit ▸ h)).2
  obtain ⟨y, t, ht⟩ : ∃ y t, r ++ [s] = y :: t := List.exists_cons_of_ne_nil (by simp)
  rw [ht] at hrest
  obtain ⟨harc, hchain⟩ := List.isChain_cons_cons.1 hrest
  refine ⟨y, harc, ?_, reaches_of_isChain hchain (ht ▸ by simp)⟩
  rw [hsplit, ht]
  simp

/-- The points of a chain back to its start reach each other. -/
theorem reaches_of_closed (h : List.IsChain (fun a b => b ∈ next a) (s :: (q ++ [s])))
    (hx : x ∈ s :: (q ++ [s])) (hy : y ∈ s :: (q ++ [s])) : Reaches next x y := by
  obtain ⟨z, hz, -, hback⟩ := exists_next_of_isChain h hx
  exact .head hz (hback.trans (reaches_of_isChain h hy))

/-- What is a cycle for one relation is one for any other that holds along it. -/
theorem IsCycle.imp_of_mem {R S : Int → Int → Prop} (h : IsCycle R c)
    (himp : ∀ a b, a ∈ c → b ∈ c → R a b → S a b) : IsCycle S c := by
  obtain ⟨hchain, hnodup, hleast⟩ := h
  exact ⟨hchain.imp_of_mem_imp himp, hnodup, hleast⟩

end Chains

namespace Digraph

open CycleSearch

variable {g : Digraph} {start b m v w x : Int} {c q t : List Int}

/-- There is an arc. -/
abbrev Arc (g : Digraph) (a b : Int) : Prop := b ∈ g.succs a

/-- The point lies on a cycle. -/
def OnCycle (g : Digraph) (v : Int) : Prop := ∃ w ∈ g.succs v, Reaches g.succs w v

theorem onCycle_of_isChain (h : List.IsChain g.Arc (m :: (q ++ [m])))
    (hx : x ∈ m :: (q ++ [m])) : g.OnCycle x := by
  obtain ⟨y, hy, hyc, -⟩ := exists_next_of_isChain h hx
  exact ⟨y, hy, reaches_of_closed h hyc hx⟩

/-! ## The cycles through the start -/

/-- The ways to close a path are the chains to the start that avoid it. -/
theorem closing_iff {path : List Int} (hon : start ∈ v :: path) :
    Closing g start (v :: path) t ↔ ∃ q, t = q ++ [start] ∧
      List.IsChain g.Arc (v :: (q ++ [start])) ∧ q.Nodup ∧ ∀ x ∈ q, x ∉ v :: path := by
  constructor
  · intro h
    generalize hp : v :: path = p at h hon ⊢
    induction h generalizing v path with
    | close harc =>
      obtain ⟨rfl, rfl⟩ := List.cons.inj hp
      exact ⟨[], rfl, by simpa using harc, List.nodup_nil, by simp⟩
    | step harc hnew _ ih =>
      obtain ⟨rfl, rfl⟩ := List.cons.inj hp
      obtain ⟨q, rfl, hchain, hnodup, havoid⟩ := ih rfl (List.mem_cons_of_mem _ hon)
      refine ⟨_ :: q, rfl, List.isChain_cons_cons.2 ⟨harc, hchain⟩,
        List.nodup_cons.2 ⟨fun hq => havoid _ hq List.mem_cons_self, hnodup⟩, fun x hx => ?_⟩
      rcases List.mem_cons.1 hx with rfl | hx
      · exact hnew
      · exact fun hp => havoid x hx (List.mem_cons_of_mem _ hp)
  · rintro ⟨q, rfl, hchain, hnodup, havoid⟩
    induction q generalizing v path with
    | nil => exact .close (by simpa using hchain)
    | cons w q ih =>
      obtain ⟨harc, hchain⟩ := List.isChain_cons_cons.1 hchain
      obtain ⟨hw, hnodup⟩ := List.nodup_cons.1 hnodup
      refine .step harc (havoid w List.mem_cons_self) (ih (List.mem_cons_of_mem _ hon) hchain
        hnodup fun x hx => ?_)
      rw [List.mem_cons, not_or]
      exact ⟨fun heq => hw (heq ▸ hx), havoid x (List.mem_cons_of_mem _ hx)⟩

/-- The search through a key adds, each once, the chains from the key back to it. -/
theorem circuit_found (hg : g.Plain) (hm : m ∈ g.keys) (found : List (List Int)) :
    ∃ cs, (circuit g 0 m (g.keys.length + 1) m { found }).2.found = found ++ cs ∧ cs.Nodup ∧
      ∀ c, c ∈ cs ↔ ∃ q, c = m :: (q ++ [m]) ∧ List.IsChain g.Arc c ∧ (m :: q).Nodup := by
  obtain ⟨cs, hcs, -, hlists⟩ := (circuit_searched hg le_rfl (g.keys.length + 1) m { found }
    (.initial found) hm List.not_mem_nil List.mem_cons_self (Nat.le_succ _)).found
  refine ⟨cs, hcs, hlists.nodup, fun c => ?_⟩
  simp only [hlists.mem_iff_closing, closing_iff List.mem_cons_self, List.nodup_cons]
  constructor
  · rintro ⟨_, ⟨q, rfl, hchain, hnodup, havoid⟩, rfl⟩
    exact ⟨q, rfl, hchain, fun hmq => havoid m hmq List.mem_cons_self, hnodup⟩
  · rintro ⟨q, rfl, hchain, hmq, hnodup⟩
    refine ⟨_, ⟨q, rfl, hchain, hnodup, fun x hx hxm => ?_⟩, rfl⟩
    rw [List.mem_singleton.1 hxm] at hx
    exact hmq hx

/-! ## The least point on a cycle -/

/-- The key is below the order. -/
def Inside (g : Digraph) (k : Int) : Prop := k ∈ g.keys ∧ 0 ≤ k ∧ k < g.order

/-- No arc leads out of the keys below the order. -/
def Sealed (g : Digraph) : Prop := ∀ a, g.Inside a → ∀ b ∈ g.succs a, g.Inside b

theorem leastOnCycle_of_not_sealed (hg : g.Plain) (h : ¬ g.Sealed) :
    g.leastOnCycle = .error .outOfRange := by
  simp only [Sealed, not_forall] at h
  obtain ⟨a, ⟨ha, ha0, halt⟩, b, hb, hout⟩ := h
  refine if_pos (List.any_eq_true.2 ⟨a, List.mem_filter.2 ⟨ha, by simp [ha0, halt]⟩,
    List.any_eq_true.2 ⟨b, hb, ?_⟩⟩)
  have := (hg.mem_keys_of_succ hb).2
  simp only [Inside, this, true_and, not_and_or] at hout
  simpa [Int.not_le] using hout

/-- A component has a point on a cycle if it has more than one point, or a loop, and then
all its points are on one. -/
theorem cyclic_iff (hg : g.Plain) (c : List Int) : c.Nodup → v ∈ c →
    (∀ w, w ∈ c ↔ Reaches g.succs v w ∧ Reaches g.succs w v) →
    ((match c with
      | [v] => g.hasArc v v
      | _ => true) = true ↔ g.OnCycle v) := by
  intro hnodup hv hclass
  match c with
  | [] => cases hv
  | [u] =>
    obtain rfl := List.mem_singleton.1 hv
    dsimp only
    rw [hg.hasArc_iff]
    constructor
    · exact fun hloop => ⟨v, hloop, .refl⟩
    · rintro ⟨w, hw, hback⟩
      have := List.mem_singleton.1 ((hclass w).2 ⟨.single hw, hback⟩)
      exact this ▸ hw
  | u₁ :: u₂ :: us =>
    refine iff_of_true rfl ?_
    have hne : u₁ ≠ u₂ := by
      rintro rfl
      simp at hnodup
    obtain ⟨u, hu, huv⟩ : ∃ u ∈ u₁ :: u₂ :: us, u ≠ v := by
      by_cases h : u₁ = v
      · exact ⟨u₂, by simp, fun h' => hne (h.trans h'.symm)⟩
      · exact ⟨u₁, by simp, h⟩
    obtain ⟨hto, hback⟩ := (hclass u).1 hu
    obtain ⟨x, hx, hxu⟩ := (Reaches.iff_eq_or_head.1 hto).resolve_left huv
    exact ⟨x, hx, hxu.trans hback⟩

/-- The keys below the order. -/
def insideKeys (g : Digraph) : List Int := g.keys.filter fun k => 0 ≤ k && k < g.order

theorem mem_insideKeys : v ∈ g.insideKeys ↔ g.Inside v := by simp [insideKeys, Inside]

/-- The points of the components that a cycle goes through. -/
def cyclicPoints (g : Digraph) : List Int :=
  ((components g.succs g.keys.length g.insideKeys).filter fun c =>
    match c with
    | [v] => g.hasArc v v
    | _ => true).flatten

theorem mem_cyclicPoints (hg : g.Plain) (h : g.Sealed) :
    v ∈ g.cyclicPoints ↔ g.Inside v ∧ g.OnCycle v := by
  have hU : ∀ a ∈ g.insideKeys, ∀ b ∈ g.succs a, b ∈ g.insideKeys := fun a ha b hb =>
    mem_insideKeys.2 (h a (mem_insideKeys.1 ha) b hb)
  have hbound : g.insideKeys.length ≤ g.keys.length := List.length_filter_le ..
  obtain ⟨hnodup, hreached⟩ := mem_components hU (fun _ => id) hbound
  -- the components are those of the keys below the order
  have hin : ∀ v, v ∈ (components g.succs g.keys.length g.insideKeys).flatten ↔ g.Inside v := by
    intro v
    rw [hreached, ← mem_insideKeys]
    exact ⟨fun ⟨u, hu, hr⟩ => hr.mem_of_closed (fun a b ha hb => hU a ha b hb) hu,
      fun hv => ⟨v, hv, .refl⟩⟩
  have hcyclic : ∀ c ∈ components g.succs g.keys.length g.insideKeys, ∀ v ∈ c,
      ((match c with
        | [v] => g.hasArc v v
        | _ => true) = true ↔ g.OnCycle v) := fun c hc v hv =>
    cyclic_iff hg c ((List.nodup_flatten.1 hnodup).1 c hc) hv fun w =>
      mem_component_iff hU (fun _ => id) hbound hc hv
  rw [cyclicPoints, List.mem_flatten, ← hin]
  constructor
  · rintro ⟨c, hc, hv⟩
    obtain ⟨hc, hcyc⟩ := List.mem_filter.1 hc
    exact ⟨List.mem_flatten.2 ⟨c, hc, hv⟩, (hcyclic c hc v hv).1 hcyc⟩
  · rintro ⟨hv, hon⟩
    obtain ⟨c, hc, hv⟩ := List.mem_flatten.1 hv
    exact ⟨c, List.mem_filter.2 ⟨hc, (hcyclic c hc v hv).2 hon⟩, hv⟩

theorem leastOnCycle_eq (h : g.Sealed) : g.leastOnCycle = .ok g.cyclicPoints.min? := by
  refine if_neg ?_
  simp only [List.any_eq_true, not_exists, not_and, Bool.not_eq_true', Bool.not_eq_false]
  intro a ha b hb
  have hb := h a (mem_insideKeys.1 ha) b hb
  simp [hb.2.1, hb.2.2]

/-- **Where the components are known, the least point on a cycle is found.** -/
theorem leastOnCycle_of_sealed (hg : g.Plain) (h : g.Sealed) :
    g.leastOnCycle = .ok none ∧ (∀ v, g.Inside v → ¬ g.OnCycle v) ∨
      ∃ m, g.leastOnCycle = .ok (some m) ∧ IsLeast {v | g.Inside v ∧ g.OnCycle v} m := by
  rw [leastOnCycle_eq h]
  cases hmin : g.cyclicPoints.min? with
  | none =>
    refine .inl ⟨rfl, fun v hv hon => ?_⟩
    have hmem := (mem_cyclicPoints hg h).2 ⟨hv, hon⟩
    rw [List.min?_eq_none_iff.1 hmin] at hmem
    cases hmem
  | some m =>
    obtain ⟨hm, hle⟩ := List.min?_eq_some_iff.1 hmin
    exact .inr ⟨m, rfl, (mem_cyclicPoints hg h).1 hm, fun v hv =>
      hle v ((mem_cyclicPoints hg h).2 hv)⟩

/-! ## The rounds -/

/-- The keys above a number. -/
def keysAbove (g : Digraph) (b : Int) : List Int := g.keys.filter (b < ·)

/-- The graph over the keys above a number. -/
abbrev above (g : Digraph) (b : Int) : Digraph := g.restrict (g.keysAbove b)

theorem mem_keysAbove : v ∈ g.keysAbove b ↔ v ∈ g.keys ∧ b < v := by simp [keysAbove]

theorem nodup_keysAbove (hg : g.Plain) : (g.keysAbove b).Nodup := hg.nodup_keys.filter _

theorem keys_above (hg : g.Plain) : (g.above b).keys = g.keysAbove b :=
  increasing_eq_self (hg.sorted.filter _)

theorem arc_above (hg : g.Plain) : (g.above b).Arc v w ↔ g.Arc v w ∧ b < v ∧ b < w := by
  rw [Arc, hg.mem_succs_restrict (nodup_keysAbove hg), mem_keysAbove, mem_keysAbove]
  constructor
  · rintro ⟨harc, ⟨-, hv⟩, -, hw⟩
    exact ⟨harc, hv, hw⟩
  · rintro ⟨harc, hv, hw⟩
    obtain ⟨hv', hw'⟩ := hg.mem_keys_of_succ harc
    exact ⟨harc, ⟨hv', hv⟩, hw', hw⟩

theorem inside_above (hg : g.Plain) : (g.above b).Inside v ↔ g.Inside v ∧ b < v := by
  rw [Inside, keys_above hg, mem_keysAbove, Inside]
  show (v ∈ g.keys ∧ b < v) ∧ 0 ≤ v ∧ v < g.order ↔ _
  tauto

theorem Sealed.above (hg : g.Plain) (h : g.Sealed) : (g.above b).Sealed := by
  intro a ha w hw
  obtain ⟨harc, -, hbw⟩ := (arc_above hg).1 hw
  exact (inside_above hg).2 ⟨h a ((inside_above hg).1 ha).1 w harc, hbw⟩

/-- The cycles of the graph over the keys above a number are the cycles above it. -/
theorem isCycle_above_iff (hg : g.Plain) :
    IsCycle (g.above b).Arc c ↔ IsCycle g.Arc c ∧ ∀ x ∈ c, b < x := by
  constructor
  · intro h
    refine ⟨h.imp_of_mem fun _ _ _ _ harc => ((arc_above hg).1 harc).1, fun x hx => ?_⟩
    obtain ⟨hchain, -, -⟩ := h
    obtain ⟨y, hy, -⟩ := exists_next_of_isChain hchain hx
    exact ((arc_above hg).1 hy).2.1
  · rintro ⟨h, habove⟩
    exact h.imp_of_mem fun x y hx hy harc => (arc_above hg).2 ⟨harc, habove x hx, habove y hy⟩

/-- A chain back to its start stays below the order. -/
theorem Sealed.inside_of_isChain (h : g.Sealed) (hchain : List.IsChain g.Arc (v :: (q ++ [v])))
    (hx : x ∈ v :: (q ++ [v])) (hin : g.Inside x) : ∀ y ∈ v :: (q ++ [v]), g.Inside y :=
  fun _ hy => (reaches_of_closed hchain hx hy).mem_of_closed (fun a b ha hb => h a ha b hb) hin

/-- **The cycles through the least point on a cycle** are the chains from that point back to
it. -/
theorem chain_iff_isCycle (h : g.Sealed) (hm : IsLeast {v | g.Inside v ∧ g.OnCycle v} m) :
    (∃ q, c = m :: (q ++ [m]) ∧ List.IsChain g.Arc c ∧ (m :: q).Nodup) ↔
      IsCycle g.Arc c ∧ m ∈ c := by
  have hle : ∀ {v q}, List.IsChain g.Arc (v :: (q ++ [v])) → m ∈ v :: (q ++ [v]) →
      ∀ x ∈ v :: (q ++ [v]), m ≤ x := fun hchain hmc x hx =>
    hm.2 ⟨h.inside_of_isChain hchain hmc hm.1.1 x hx, onCycle_of_isChain hchain hx⟩
  constructor
  · rintro ⟨q, rfl, hchain, hnodup⟩
    refine ⟨⟨hchain, hnodup, fun x hx => ?_⟩, List.mem_cons_self⟩
    exact hle hchain List.mem_cons_self x (by simp [hx])
  · rintro ⟨⟨hchain, hnodup, hleast⟩, hmc⟩
    next s q =>
    have hms : m ≤ s := hle hchain hmc s List.mem_cons_self
    have hsm : s ≤ m := by
      rcases List.mem_cons.1 hmc with rfl | hmq
      · exact le_rfl
      · rcases List.mem_append.1 hmq with hmq | hmq
        · exact hleast m hmq
        · rw [List.mem_singleton.1 hmq]
    obtain rfl := le_antisymm hms hsm
    exact ⟨q, rfl, hchain, hnodup⟩

section Rounds

variable {limit : Int} {fuel : Nat} {found : List (List Int)}

/-- A round without a point on a cycle is the last. -/
theorem cyclesFrom_of_none (h : (g.above b).leastOnCycle = .ok none) (limit : Int) :
    ∀ (fuel : Nat) (found : List (List Int)),
      g.cyclesFrom limit fuel (g.keysAbove b) found = .ok found
  | 0, _ => rfl
  | fuel + 1, found => by
    rw [cyclesFrom]
    dsimp only
    split
    · rfl
    · rw [show (g.restrict (g.keysAbove b)).leastOnCycle = _ from h]
      rfl

/-- A round with a point on a cycle goes on above the least of these. -/
theorem cyclesFrom_of_some (hg : g.Plain) (hm : m ∈ g.keysAbove b)
    (h : (g.above b).leastOnCycle = .ok (some m))
    (hfull : ({ found } : CycleSearch).full limit = false) :
    g.cyclesFrom limit (fuel + 1) (g.keysAbove b) found = g.cyclesFrom limit fuel (g.keysAbove m)
      (circuit (g.above b) limit m ((g.above b).keys.length + 1) m { found }).2.found := by
  have hkeys : (g.keysAbove b).isEmpty = false := by
    cases hks : g.keysAbove b with
    | nil => simp [hks] at hm
    | cons => rfl
  rw [cyclesFrom, if_neg (by simp [hkeys, hfull])]
  dsimp only
  rw [show (g.restrict (g.keysAbove b)).leastOnCycle = _ from h]
  show g.cyclesFrom limit fuel (g.keys.drop ((g.keys.takeWhile (· < m)).length + 1)) _ = _
  rw [drop_takeWhile_lt hg.sorted (mem_keysAbove.1 hm).1]
  rfl

/-- What the cycles above a number are, those below the order, when the least point on one of
them is known. -/
theorem isCycle_above_split (hg : g.Plain) (h : g.Sealed)
    (hm : IsLeast {v | (g.above b).Inside v ∧ (g.above b).OnCycle v} m) (c : List Int) :
    (IsCycle g.Arc c ∧ ∀ x ∈ c, g.Inside x ∧ b < x) ↔
      (IsCycle (g.above b).Arc c ∧ m ∈ c) ∨ IsCycle g.Arc c ∧ ∀ x ∈ c, g.Inside x ∧ m < x := by
  have hsealed : (g.above b).Sealed := h.above hg
  constructor
  · rintro ⟨hc, hin⟩
    have hc' := (isCycle_above_iff hg).2 ⟨hc, fun x hx => (hin x hx).2⟩
    by_cases hmc : m ∈ c
    · exact .inl ⟨hc', hmc⟩
    · refine .inr ⟨hc, fun x hx => ⟨(hin x hx).1, ?_⟩⟩
      obtain ⟨hchain, -, -⟩ := hc'
      have hle := hm.2 ⟨(inside_above hg).2 (hin x hx), onCycle_of_isChain hchain hx⟩
      exact lt_of_le_of_ne hle fun heq => hmc (heq ▸ hx)
  · rintro (⟨hc, hmc⟩ | ⟨hc, hin⟩)
    · refine ⟨((isCycle_above_iff hg).1 hc).1, fun x hx => (inside_above hg).1 ?_⟩
      obtain ⟨hchain, -, -⟩ := hc
      exact hsealed.inside_of_isChain hchain hmc hm.1.1 x hx
    · have hbm := ((inside_above hg).1 hm.1.1).2
      exact ⟨hc, fun x hx => ⟨(hin x hx).1, hbm.trans (hin x hx).2⟩⟩

/-- What is left after a round is shorter. -/
theorem length_keysAbove_lt (hm : m ∈ g.keysAbove b) :
    (g.keysAbove m).length < (g.keysAbove b).length := by
  have hbm := (mem_keysAbove.1 hm).2
  have hfilter : g.keysAbove m = (g.keysAbove b).filter (m < ·) := by
    rw [keysAbove, keysAbove, List.filter_filter]
    refine List.filter_congr fun x _ => ?_
    by_cases hx : m < x
    · simp [hx, hbm.trans hx]
    · simp [hx]
  rw [hfilter, List.length_filter_lt_length_iff_exists]
  exact ⟨m, hm, by simp⟩

/-- **The rounds find the cycles below the order, each once.** -/
theorem cyclesFrom_found (hg : g.Plain) (h : g.Sealed) (fuel : Nat) (b : Int)
    (found : List (List Int)) (hfuel : (g.keysAbove b).length ≤ fuel) :
    ∃ cs, g.cyclesFrom 0 fuel (g.keysAbove b) found = .ok (found ++ cs) ∧ cs.Nodup ∧
      ∀ c, c ∈ cs ↔ IsCycle g.Arc c ∧ ∀ x ∈ c, g.Inside x ∧ b < x := by
  have hplain : (g.above b).Plain := hg.restrict (nodup_keysAbove hg)
  have hsealed : (g.above b).Sealed := h.above hg
  rcases leastOnCycle_of_sealed hplain hsealed with ⟨hnone, hno⟩ | ⟨m, hsome, hm⟩
  · refine ⟨[], by rw [cyclesFrom_of_none hnone, List.append_nil], List.nodup_nil, fun c =>
      iff_of_false List.not_mem_nil ?_⟩
    rintro ⟨hc, hin⟩
    obtain ⟨hchain, -, -⟩ := (isCycle_above_iff hg).2 ⟨hc, fun x hx => (hin x hx).2⟩
    exact hno _ ((inside_above hg).2 (hin _ List.mem_cons_self))
      (onCycle_of_isChain hchain List.mem_cons_self)
  · have hmkeys : m ∈ (g.above b).keys := hm.1.1.1
    have hmb : m ∈ g.keysAbove b := keys_above hg ▸ hmkeys
    have hlt := length_keysAbove_lt hmb
    obtain ⟨fuel, rfl⟩ := Nat.exists_eq_succ_of_ne_zero (n := fuel) (by omega)
    obtain ⟨cs, hcs, hnodup, hmem⟩ := circuit_found hplain hmkeys found
    obtain ⟨ds, hds, hnodup', hmem'⟩ := cyclesFrom_found hg h fuel m (found ++ cs) (by omega)
    have hthrough : ∀ c, c ∈ cs ↔ IsCycle (g.above b).Arc c ∧ m ∈ c := fun c =>
      (hmem c).trans (chain_iff_isCycle hsealed hm)
    refine ⟨cs ++ ds, ?_, List.nodup_append.2 ⟨hnodup, hnodup', ?_⟩, fun c => ?_⟩
    · rw [cyclesFrom_of_some hg hmb hsome (full_of_nonpos le_rfl _), hcs, hds, List.append_assoc]
    · rintro c hc _ hd rfl
      exact lt_irrefl m (((hmem' c).1 hd).2 m ((hthrough c).1 hc).2).2
    · rw [List.mem_append, hthrough, hmem', ← isCycle_above_split hg h hm]
termination_by fuel

theorem cyclesFrom_of_full (h : ({ found } : CycleSearch).full limit) (ks : List Int) :
    ∀ fuel, g.cyclesFrom limit fuel ks found = .ok found
  | 0 => rfl
  | fuel + 1 => by rw [cyclesFrom, if_pos (.inr h)]

/-- **Under a limit the rounds find the first of these cycles.** -/
theorem cyclesFrom_take (hg : g.Plain) (h : g.Sealed) {n : Nat} (hn : 0 < n) (fuel fuel' : Nat)
    (b : Int) (found : List (List Int)) (hfuel : (g.keysAbove b).length ≤ fuel)
    (hfuel' : (g.keysAbove b).length ≤ fuel') :
    g.cyclesFrom n fuel (g.keysAbove b) (found.take n) =
      (g.cyclesFrom 0 fuel' (g.keysAbove b) found).map (·.take n) := by
  rcases Nat.lt_or_ge found.length n with hlt | hge
  · rw [List.take_of_length_le (le_of_lt hlt)]
    rcases leastOnCycle_of_sealed (hg.restrict (nodup_keysAbove hg)) (h.above hg) with
      ⟨hnone, -⟩ | ⟨m, hsome, hm⟩
    · rw [cyclesFrom_of_none hnone, cyclesFrom_of_none hnone]
      exact congrArg Except.ok (List.take_of_length_le (le_of_lt hlt)).symm
    · have hmb : m ∈ g.keysAbove b := keys_above hg ▸ hm.1.1.1
      have hlength := length_keysAbove_lt hmb
      obtain ⟨fuel, rfl⟩ := Nat.exists_eq_succ_of_ne_zero (n := fuel) (by omega)
      obtain ⟨fuel', rfl⟩ := Nat.exists_eq_succ_of_ne_zero (n := fuel') (by omega)
      have hfull : ({ found } : CycleSearch).full n = false := by
        rw [← Bool.not_eq_true, full_iff hn]
        exact Nat.not_le.2 hlt
      rw [cyclesFrom_of_some hg hmb hsome hfull,
        cyclesFrom_of_some hg hmb hsome (full_of_nonpos le_rfl _),
        (circuit_cut hn _ m { found } hlt).found_eq]
      exact cyclesFrom_take hg h hn fuel fuel' m _ (by omega) (by omega)
  · obtain ⟨cs, hcs, -⟩ := cyclesFrom_found hg h fuel' b found hfuel'
    rw [cyclesFrom_of_full, hcs]
    · exact congrArg Except.ok (List.take_append_of_le_length hge).symm
    · rw [full_iff hn]
      simp [hge]
termination_by fuel

end Rounds

/-! ## The whole enumeration -/

/-- An arc that leads out of the keys below the order is a fault. -/
theorem elementaryCycles_of_not_sealed (hg : g.Plain) (h : ¬ g.Sealed) (limit : Int) :
    g.elementaryCycles limit = .error .outOfRange := by
  have hkeys : g.keys.isEmpty = false := by
    cases hks : g.keys with
    | nil => exact absurd (fun a ha => by simp [Inside, hks] at ha) h
    | cons => rfl
  have hsame : ∀ {a b}, b ∈ (g.restrict g.keys).succs a ↔ b ∈ g.succs a := by
    intro a b
    rw [hg.mem_succs_restrict hg.nodup_keys]
    exact ⟨And.left, fun hb => ⟨hb, hg.mem_keys_of_succ hb⟩⟩
  have hinside : ∀ a, (g.restrict g.keys).Inside a ↔ g.Inside a := fun a =>
    and_congr_left fun _ => mem_increasing
  have hnot : ¬ (g.restrict g.keys).Sealed := fun hs => h fun a ha b hb =>
    (hinside b).1 (hs a ((hinside a).2 ha) b (hsame.2 hb))
  rw [elementaryCycles, cyclesFrom, if_neg]
  · dsimp only
    rw [leastOnCycle_of_not_sealed (hg.restrict hg.nodup_keys) hnot]
    rfl
  · simp [hkeys, full]

theorem keysAbove_eq (hpos : ∀ k ∈ g.keys, 0 ≤ k) : g.keysAbove (-1) = g.keys :=
  List.filter_eq_self.2 fun k hk => by
    have := hpos k hk
    simp
    omega

/-- If there is none, the cycles below the order are found, each once. -/
theorem elementaryCycles_of_sealed (hg : g.Plain) (hpos : ∀ k ∈ g.keys, 0 ≤ k) (h : g.Sealed) :
    ∃ cs, g.elementaryCycles 0 = .ok cs ∧ cs.Nodup ∧
      ∀ c, c ∈ cs ↔ IsCycle g.Arc c ∧ ∀ x ∈ c, g.Inside x := by
  obtain ⟨cs, hcs, hnodup, hmem⟩ := cyclesFrom_found hg h
    (g.keys.length + (0 : Int).toNat + 1) (-1) [] (by rw [keysAbove_eq hpos]; omega)
  rw [keysAbove_eq hpos] at hcs
  refine ⟨cs, hcs, hnodup, fun c => (hmem c).trans (and_congr_right fun _ => ?_)⟩
  refine forall₂_congr fun x _ => and_iff_left_of_imp fun hx => ?_
  have := hpos x hx.1
  omega

/-- In every case a limit cuts the enumeration off. -/
theorem elementaryCycles_take (hg : g.Plain) (hpos : ∀ k ∈ g.keys, 0 ≤ k) {limit : Int}
    (hlimit : 0 < limit) :
    g.elementaryCycles limit = (g.elementaryCycles 0).map (·.take limit.toNat) := by
  by_cases h : g.Sealed
  · have htake := cyclesFrom_take hg h (n := limit.toNat) (by omega)
      (g.keys.length + limit.toNat + 1) (g.keys.length + (0 : Int).toNat + 1) (-1) []
      (by rw [keysAbove_eq hpos]; omega) (by rw [keysAbove_eq hpos]; omega)
    rw [keysAbove_eq hpos, Int.toNat_of_nonneg (le_of_lt hlimit), List.take_nil] at htake
    exact htake
  · rw [elementaryCycles_of_not_sealed hg h, elementaryCycles_of_not_sealed hg h]
    rfl

section Keys

variable {keys : List Int} {next : Int → List Int} {label : Int → String}

/-- There is an arc between two of the keys. -/
def Joins (keys : List Int) (next : Int → List Int) (a b : Int) : Prop :=
  a ∈ keys ∧ b ∈ keys ∧ b ∈ next a

instance (a b : Int) : Decidable (Joins keys next a b) :=
  inferInstanceAs (Decidable (a ∈ keys ∧ b ∈ keys ∧ b ∈ next a))

theorem arc_ofSuccessors (hnodup : keys.Nodup) (next : Int → List Int) (label : Int → String) :
    (ofSuccessors keys next label).Arc = Joins keys next := by
  funext a b
  exact propext (mem_succs_ofSuccessors hnodup)

theorem inside_ofSuccessors (hkeys : ∀ k ∈ keys, 0 ≤ k ∧ k ≤ keyLimit) :
    (ofSuccessors keys next label).Inside v ↔ v ∈ keys ∧ v ≠ keyLimit := by
  have hmem : v ∈ (ofSuccessors keys next label).keys ↔ v ∈ keys := mem_increasing
  rw [Inside, hmem]
  refine and_congr_right fun hv => ?_
  have hlt : v < orderOf (increasing keys) ↔ v ≠ keyLimit := lt_orderOf_iff
    (fun k hk => (hkeys k (mem_increasing.1 hk)).2) (mem_increasing.2 hv)
  rw [← hlt]
  exact and_iff_right (hkeys v hv).1

theorem sealed_ofSuccessors_iff (hnodup : keys.Nodup) (hkeys : ∀ k ∈ keys, 0 ≤ k ∧ k ≤ keyLimit) :
    (ofSuccessors keys next label).Sealed ↔ ∀ a, Joins keys next a keyLimit → a = keyLimit := by
  simp only [Sealed, inside_ofSuccessors hkeys, mem_succs_ofSuccessors hnodup]
  constructor
  · intro h a harc
    by_contra hne
    exact (h a ⟨harc.1, hne⟩ keyLimit harc).2 rfl
  · rintro h a ⟨-, hne⟩ b harc
    exact ⟨harc.2.1, fun heq => hne (h a (heq ▸ harc))⟩

/-- The points of a cycle are keys to which an arc leads. -/
theorem exists_joins_of_mem (hnodup : keys.Nodup) (hc : IsCycle (Joins keys next) c) (hx : x ∈ c) :
    ∃ a, Joins keys next a x := by
  rw [← arc_ofSuccessors hnodup next keyLabel] at hc ⊢
  obtain ⟨hchain, -, -⟩ := hc
  obtain ⟨y, hy, hr⟩ := onCycle_of_isChain hchain hx
  rcases hr.cases_tail with rfl | ⟨a, -, ha⟩
  · exact ⟨x, hy⟩
  · exact ⟨a, ha⟩

/-- **The enumeration is complete unless an arc leads to the largest 64-bit number.** In a
graph over distinct 64-bit keys that are not negative, a limit cuts the enumeration off
after so many cycles. An arc that leads to the largest number from another key is a fault.
If there is none, the cycles found are, each once, those that do not meet that number; so
that all elementary cycles are found, each once, iff no arc leads there at all. -/
theorem elementaryCycles_complete_iff (hnodup : keys.Nodup)
    (hkeys : ∀ k ∈ keys, 0 ≤ k ∧ k ≤ keyLimit) (next : Int → List Int) (label : Int → String) :
    let g := ofSuccessors keys next label
    let arc := Joins keys next
    (∀ limit > 0, g.elementaryCycles limit =
      (g.elementaryCycles 0).map (·.take limit.toNat)) ∧
    ((∃ a, a ≠ keyLimit ∧ arc a keyLimit) → g.elementaryCycles 0 = .error .outOfRange) ∧
    ((∀ a, arc a keyLimit → a = keyLimit) → ∃ cs, g.elementaryCycles 0 = .ok cs ∧ cs.Nodup ∧
      ∀ c, c ∈ cs ↔ IsCycle arc c ∧ keyLimit ∉ c) ∧
    ((∃ cs, g.elementaryCycles 0 = .ok cs ∧ cs.Nodup ∧ ∀ c, c ∈ cs ↔ IsCycle arc c) ↔
      ∀ a, ¬ arc a keyLimit) := by
  intro g arc
  have hg : g.Plain := plain_ofSuccessors hnodup next label
  have hpos : ∀ k ∈ g.keys, 0 ≤ k := fun k hk => (hkeys k (mem_increasing.1 hk)).1
  have hsealed : g.Sealed ↔ ∀ a, arc a keyLimit → a = keyLimit :=
    sealed_ofSuccessors_iff hnodup hkeys
  have hfault : (∃ a, a ≠ keyLimit ∧ arc a keyLimit) →
      g.elementaryCycles 0 = .error .outOfRange := by
    rintro ⟨a, hne, harc⟩
    exact elementaryCycles_of_not_sealed hg (fun hs => hne (hsealed.1 hs a harc)) 0
  have hfound : (∀ a, arc a keyLimit → a = keyLimit) → ∃ cs, g.elementaryCycles 0 = .ok cs ∧
      cs.Nodup ∧ ∀ c, c ∈ cs ↔ IsCycle arc c ∧ keyLimit ∉ c := by
    intro hs
    obtain ⟨cs, hcs, hcs', hmem⟩ := elementaryCycles_of_sealed hg hpos (hsealed.2 hs)
    refine ⟨cs, hcs, hcs', fun c => ?_⟩
    rw [hmem, show g.Arc = arc from arc_ofSuccessors hnodup next label]
    refine and_congr_right fun hc => ⟨fun hin hL => ?_, fun hL x hx => ?_⟩
    · exact ((inside_ofSuccessors hkeys).1 (hin _ hL)).2 rfl
    · obtain ⟨a, -, hxkeys, -⟩ := exists_joins_of_mem hnodup hc hx
      exact (inside_ofSuccessors hkeys).2 ⟨hxkeys, fun heq => hL (heq ▸ hx)⟩
  refine ⟨fun limit => elementaryCycles_take hg hpos, hfault, hfound, ?_, fun hno => ?_⟩
  · rintro ⟨cs, hcs, -, hmem⟩ a harc
    by_cases hne : a = keyLimit
    · -- the loop is an elementary cycle, and it is not found
      subst hne
      obtain ⟨ds, hds, -, hmem'⟩ := hfound fun a ha => by
        by_contra hne
        rw [hfault ⟨a, hne, ha⟩] at hcs
        cases hcs
      rw [hds, Except.ok.injEq] at hcs
      exact ((hmem' _).1 (hcs ▸ (hmem _).2 (isCycle_loop harc))).2 List.mem_cons_self
    · rw [hfault ⟨a, hne, harc⟩] at hcs
      cases hcs
  · obtain ⟨cs, hcs, hcs', hmem⟩ := hfound fun a harc => absurd harc (hno a)
    refine ⟨cs, hcs, hcs', fun c => (hmem c).trans (and_iff_left_of_imp fun hc hL => ?_)⟩
    obtain ⟨a, harc⟩ := exists_joins_of_mem hnodup hc hL
    exact hno a harc

/-- Two points lead to each other, one of them to itself and the other one to a third, which
also leads to itself. -/
def threeLoops (k : Int) : List Int :=
  if k = 1 then [2, 1] else if k = 2 then [5, 1, 5] else if k = 5 then [5] else []

/-- The cycle through two points is found, and a limit of one leaves the first cycle. -/
theorem elementaryCycles_complete_threeLoops :
    let g := ofSuccessors [5, 1, 2] threeLoops keyLabel
    ∃ cs, g.elementaryCycles 0 = .ok cs ∧ [1, 2, 1] ∈ cs ∧ [5, 5] ∈ cs ∧
      g.elementaryCycles 1 = .ok (cs.take 1) := by
  intro g
  have hnodup : [(5 : Int), 1, 2].Nodup := by decide
  have hkeys : ∀ k ∈ [(5 : Int), 1, 2], 0 ≤ k ∧ k ≤ keyLimit := by decide
  obtain ⟨hlimit, -, -, hall⟩ := elementaryCycles_complete_iff hnodup hkeys threeLoops keyLabel
  obtain ⟨cs, hcs, -, hmem⟩ := hall.2 fun a ha => absurd ha.2.1 (by decide)
  refine ⟨cs, hcs, (hmem _).2 ?_, (hmem _).2 (isCycle_loop (by decide)), ?_⟩
  · exact .mk (q := [2]) (by simp [Joins, threeLoops]) (by decide) (by decide)
  · rw [hlimit 1 (by decide), hcs]
    rfl

/-- A loop at the largest 64-bit number is an elementary cycle that is overlooked, and an arc
that leads there from another key is a fault. -/
theorem elementaryCycles_misses_loop :
    let g := ofSuccessors [keyLimit] (fun _ => [keyLimit]) keyLabel
    (g.elementaryCycles 0 = .ok [] ∧
      IsCycle (Joins [keyLimit] fun _ => [keyLimit]) [keyLimit, keyLimit]) ∧
    (ofSuccessors [1, keyLimit] (fun _ => [keyLimit]) keyLabel).elementaryCycles 0 =
      .error .outOfRange := by
  have hkeys : ∀ k ∈ [1, keyLimit], 0 ≤ k ∧ k ≤ keyLimit := by decide
  refine ⟨⟨by decide +kernel, isCycle_loop (by decide)⟩, ?_⟩
  refine elementaryCycles_of_not_sealed (plain_ofSuccessors (by decide) _ _) (fun h => ?_) 0
  exact absurd ((sealed_ofSuccessors_iff (by decide) hkeys).1 h 1 (by decide)) (by decide)

end Keys

end Digraph

end PointsTo
