import Mathlib
import PointsTo.Context
/-!
# Packing ranges into blocks

Contexts are handed out range by range, and a range that does not fit in
the current block starts a new one. `Tiled` says how the ranges lie that
have been handed out, in exact numbers; `Tiled.place` hands out one more.
The first part relates the 64-bit numbers of the program to exact ones.
-/

namespace PointsTo

/-! ## Numbers that stop at the largest -/

namespace Context

variable {a b : Int64}

theorem toInt_largest : largest.toInt = 2 ^ 63 - 1 := Int64.toInt_maxValue

theorem toInt_le_largest (a : Int64) : a.toInt ≤ largest.toInt := Int64.toInt_le a

/-- A number in range is not wrapped around. -/
theorem bmod_eq {x : Int} (hlo : -2 ^ 63 ≤ x) (hhi : x < 2 ^ 63) : x.bmod (2 ^ 64) = x :=
  Int.bmod_eq_of_le (by omega) (by omega)

theorem toInt_add_of_le (hlo : -2 ^ 63 ≤ a.toInt + b.toInt) (hhi : a.toInt + b.toInt < 2 ^ 63) :
    (a + b).toInt = a.toInt + b.toInt := by
  rw [Int64.toInt_add, bmod_eq hlo hhi]

theorem toInt_sub_of_le (hlo : -2 ^ 63 ≤ a.toInt - b.toInt) (hhi : a.toInt - b.toInt < 2 ^ 63) :
    (a - b).toInt = a.toInt - b.toInt := by
  rw [Int64.toInt_sub, bmod_eq hlo hhi]

/-- The next number, unless there is none. -/
theorem toInt_add_one (h : a.toInt < largest.toInt) : (a + 1).toInt = a.toInt + 1 := by
  have hlargest := toInt_largest
  have hleast := Int64.le_toInt a
  exact toInt_add_of_le (by rw [Int64.toInt_one]; omega) (by rw [Int64.toInt_one]; omega)

theorem toInt_one_add (h : a.toInt < largest.toInt) : (1 + a).toInt = 1 + a.toInt := by
  rw [Int64.add_comm, toInt_add_one h, Int.add_comm]

/-- The sum of numbers that are not negative, cut off at the largest. -/
theorem toInt_satAdd (ha : 0 ≤ a.toInt) (hb : 0 ≤ b.toInt) :
    (satAdd a b).toInt = min (a.toInt + b.toInt) largest.toInt := by
  have hroom : (largest - b).toInt = largest.toInt - b.toInt := by
    have := toInt_largest
    have := toInt_le_largest b
    exact toInt_sub_of_le (by omega) (by omega)
  unfold satAdd
  by_cases hover : largest - b < a
  · rw [if_pos hover]
    rw [Int64.lt_iff_toInt_lt, hroom] at hover
    omega
  · rw [if_neg hover]
    rw [Int64.lt_iff_toInt_lt, hroom] at hover
    have := toInt_largest
    rw [toInt_add_of_le (by omega) (by omega)]
    omega

/-- The product of numbers that are not negative, cut off at the largest. -/
theorem toInt_satMul (ha : 0 ≤ a.toInt) (hb : 0 ≤ b.toInt) :
    (satMul a b).toInt = min (a.toInt * b.toInt) largest.toInt := by
  have hlargest := toInt_largest
  unfold satMul
  by_cases hzero : a = 0
  · rw [hzero, if_neg fun h => h.1 rfl]
    simp only [Int64.zero_mul, Int64.toInt_zero, Int.zero_mul]
    omega
  have hpos : 0 < a.toInt := by
    have hne : a.toInt ≠ 0 := fun h => hzero (Int64.toInt_inj.1 (by simpa using h))
    omega
  have hdiv : (largest / a).toInt = largest.toInt / a.toInt := by
    rw [Int64.toInt_div_of_ne_left _ _ (by decide), Int.tdiv_eq_ediv_of_nonneg (by omega)]
  -- the quotient is the largest factor that fits
  have hfits : b.toInt ≤ largest.toInt / a.toInt ↔ a.toInt * b.toInt ≤ largest.toInt := by
    rw [Int.le_ediv_iff_mul_le hpos, Int.mul_comm]
  by_cases hover : largest / a < b
  · rw [if_pos ⟨hzero, hover⟩]
    rw [Int64.lt_iff_toInt_lt, hdiv] at hover
    omega
  · rw [if_neg fun h => hover h.2]
    rw [Int64.lt_iff_toInt_lt, hdiv] at hover
    have hle := hfits.1 (by omega)
    have hmul : 0 ≤ a.toInt * b.toInt := Int.mul_nonneg ha hb
    rw [Int64.toInt_mul, bmod_eq (by omega) (by omega)]
    omega

/-- The place of a context in its block, counted from zero. -/
theorem toInt_place {x b : Int64} (hx : 1 ≤ x.toInt) :
    ((x - 1) % b).toInt = (x.toInt - 1) % b.toInt := by
  have hsub : (x - 1).toInt = x.toInt - 1 := by
    have := Int64.toInt_lt x
    exact toInt_sub_of_le (by rw [Int64.toInt_one]; omega) (by rw [Int64.toInt_one]; omega)
  rw [Int64.toInt_mod, hsub, Int.tmod_eq_emod_of_nonneg (by omega)]

theorem toInt_place_mem {x b : Int64} (hx : 1 ≤ x.toInt) (hb : 1 ≤ b.toInt) :
    0 ≤ ((x - 1) % b).toInt ∧ ((x - 1) % b).toInt < b.toInt := by
  rw [toInt_place hx]
  exact ⟨Int.emod_nonneg _ (by omega), Int.emod_lt_of_pos _ (by omega)⟩

/-- The context of a place in the first block. -/
theorem toInt_first {x b : Int64} (hx : 1 ≤ x.toInt) (hb : 1 ≤ b.toInt) :
    (1 + (x - 1) % b).toInt = 1 + ((x - 1) % b).toInt := by
  obtain ⟨-, hlt⟩ := toInt_place_mem hx hb
  exact toInt_one_add (Int.lt_of_lt_of_le hlt (toInt_le_largest b))

/-- A context of the first block is the one of its place there. -/
theorem first_eq {x b : Int64} (hx : 1 ≤ x.toInt) (hle : x.toInt ≤ b.toInt) :
    1 + (x - 1) % b = x := by
  have hplace : ((x - 1) % b).toInt = x.toInt - 1 := by
    rw [toInt_place hx, Int.emod_eq_of_lt (by omega) (by omega)]
  rw [← Int64.toInt_inj, toInt_first hx (by omega), hplace]
  omega

/-- Bringing a context back to the first block keeps its place. -/
theorem place_first (x b : Int64) : (1 + (x - 1) % b - 1) % b = (x - 1) % b := by
  have hplace : 1 + (x - 1) % b - 1 = (x - 1) % b := by
    rw [Int64.add_comm, Int64.add_sub_cancel]
  rw [hplace, ← Int64.toInt_inj, Int64.toInt_mod, Int64.toInt_mod, Int.tmod_tmod]

end Context

/-! ## Ranges in blocks -/

/-- A range of numbers: where it starts, and how long it is. -/
structure Share where
  start : Nat
  size : Nat
  deriving DecidableEq, Repr

/-- The ranges do not meet. -/
def Share.Apart (s s' : Share) : Prop :=
  s.start + s.size ≤ s'.start ∨ s'.start + s'.size ≤ s.start

/-- How the shares lie that have been handed out, one after the other, when
`full` blocks of `span` numbers are full and `used` numbers are used in the
next one. -/
structure Tiled (span : Nat) (shares : List Share) (full used : Nat) : Prop where
  used_le : used ≤ span
  sizes : ∀ s ∈ shares, 1 ≤ s.size ∧ s.size ≤ span
  ordered : shares.Pairwise fun s s' => s.start + s.size ≤ s'.start
  below : ∀ s ∈ shares, s.start + s.size ≤ full * span + used
  /-- No share crosses from one block to the next. -/
  oneBlock : ∀ s ∈ shares, s.start % span + s.size ≤ span
  started : shares ≠ [] → 0 < used ∧ full < shares.length
  empty : shares = [] → full = 0 ∧ used = 0
  /-- The first block is filled without gaps. -/
  total : full = 0 → used = (shares.map (·.size)).sum
  cover : full = 0 → ∀ x < used, ∃ s ∈ shares, s.start ≤ x ∧ x < s.start + s.size
  overflow : 0 < full → span < (shares.map (·.size)).sum

namespace Tiled

variable {span full used size : Nat} {shares : List Share}

/-- Shares of different owners do not meet. -/
theorem apart {α : Type} {owners : List α} {share : α → Share}
    (h : Tiled span (owners.map share) full used) {a b : α} (ha : a ∈ owners) (hb : b ∈ owners)
    (hne : a ≠ b) : (share a).Apart (share b) := by
  have : Std.Symm fun a b => (share a).Apart (share b) := ⟨fun _ _ hor => hor.symm⟩
  have hpairwise : owners.Pairwise fun a b => (share a).Apart (share b) :=
    (List.pairwise_map.1 h.ordered).imp .inl
  exact hpairwise.forall ha hb hne

theorem start (span : Nat) : Tiled span [] 0 0 where
  used_le := Nat.zero_le _
  sizes := by simp
  ordered := .nil
  below := by simp
  oneBlock := by simp
  started h := absurd rfl h
  empty _ := ⟨rfl, rfl⟩
  total _ := rfl
  cover _ x hx := absurd hx (Nat.not_lt_zero x)
  overflow h := absurd h (Nat.lt_irrefl 0)

/-- A share that fits goes to the current block. -/
theorem fit (h : Tiled span shares full used) (hsize : 1 ≤ size) (hfit : used + size ≤ span) :
    Tiled span (shares ++ [⟨full * span + used, size⟩]) full (used + size) := by
  have hbelow := h.below
  refine { used_le := hfit, sizes := ?_, ordered := ?_, below := ?_, oneBlock := ?_, started := ?_
           empty := by simp, total := ?_, cover := ?_, overflow := ?_ }
  · intro s hs
    rcases List.mem_append.1 hs with hs | hs
    · exact h.sizes s hs
    · rw [List.mem_singleton.1 hs]
      exact ⟨hsize, by simp only; omega⟩
  · refine List.pairwise_append.2 ⟨h.ordered, List.pairwise_singleton _ _, fun s hs s' hs' => ?_⟩
    rw [List.mem_singleton.1 hs']
    exact hbelow s hs
  · intro s hs
    rcases List.mem_append.1 hs with hs | hs
    · have := hbelow s hs
      omega
    · rw [List.mem_singleton.1 hs]
      simp only
      omega
  · intro s hs
    rcases List.mem_append.1 hs with hs | hs
    · exact h.oneBlock s hs
    · rw [List.mem_singleton.1 hs]
      have hmod : (full * span + used) % span = used :=
        (Nat.mul_add_mod_self_right ..).trans (Nat.mod_eq_of_lt (by omega))
      simp only [hmod]
      exact hfit
  · intro _
    have : full ≤ shares.length := by
      by_cases hnil : shares = []
      · rw [(h.empty hnil).1]
        exact Nat.zero_le _
      · exact Nat.le_of_lt (h.started hnil).2
    rw [List.length_append, List.length_singleton]
    omega
  · intro hfull
    rw [List.map_append, List.sum_append, ← h.total hfull]
    simp
  · intro hfull x hx
    by_cases hlt : x < used
    · obtain ⟨s, hs, hin⟩ := h.cover hfull x hlt
      exact ⟨s, List.mem_append_left _ hs, hin⟩
    · refine ⟨_, List.mem_append_right _ (List.mem_singleton_self _), ?_⟩
      simp only [hfull]
      omega
  · intro hfull
    have := h.overflow hfull
    rw [List.map_append, List.sum_append]
    omega

/-- A share that does not fit starts a new block. -/
theorem overflowing (h : Tiled span shares full used) (hsize : 1 ≤ size) (hle : size ≤ span)
    (hused : 0 < used) (hover : span < used + size) :
    Tiled span (shares ++ [⟨(full + 1) * span, size⟩]) (full + 1) size := by
  have hnil : shares ≠ [] := fun hnil => by
    have := (h.empty hnil).2
    omega
  have hblock : (full + 1) * span = full * span + span := Nat.succ_mul full span
  have hbound := h.used_le
  have hbelow := h.below
  refine { used_le := hle, sizes := ?_, ordered := ?_, below := ?_, oneBlock := ?_, started := ?_
           empty := by simp, total := by omega, cover := by omega, overflow := ?_ }
  · intro s hs
    rcases List.mem_append.1 hs with hs | hs
    · exact h.sizes s hs
    · rw [List.mem_singleton.1 hs]
      exact ⟨hsize, hle⟩
  · refine List.pairwise_append.2 ⟨h.ordered, List.pairwise_singleton _ _, fun s hs s' hs' => ?_⟩
    rw [List.mem_singleton.1 hs']
    have := hbelow s hs
    simp only
    omega
  · intro s hs
    rcases List.mem_append.1 hs with hs | hs
    · have := hbelow s hs
      omega
    · obtain rfl := List.mem_singleton.1 hs
      exact Nat.le_refl _
  · intro s hs
    rcases List.mem_append.1 hs with hs | hs
    · exact h.oneBlock s hs
    · rw [List.mem_singleton.1 hs]
      simp only [Nat.mul_mod_left]
      omega
  · intro _
    have := (h.started hnil).2
    rw [List.length_append, List.length_singleton]
    omega
  · intro _
    rw [List.map_append, List.sum_append]
    by_cases hfull : full = 0
    · have := h.total hfull
      simp only [List.map_cons, List.map_nil, List.sum_cons, List.sum_nil]
      omega
    · have := h.overflow (Nat.pos_of_ne_zero hfull)
      omega

end Tiled

/-! ## The numbers of the program -/

/-- The counts of full blocks and of used numbers are those of a tiling. -/
def Packed (span : Int64) (shares : List Share) (full used : Int64) : Prop :=
  ∃ F U : Nat, full.toInt = F ∧ used.toInt = U ∧ Tiled span.toInt.toNat shares F U

namespace Packed

variable {span size full used : Int64} {shares : List Share}

theorem start (span : Int64) : Packed span [] 0 0 := ⟨0, 0, rfl, rfl, Tiled.start _⟩

/-- Makes room for `size` numbers: in the current block, or in a new one. -/
def room (span size full used : Int64) : Int64 × Int64 :=
  if 0 < used ∧ span - size < used then (full + 1, 0) else (full, used)

/-- The offset of the next share, after `U` numbers of the block `F`. -/
theorem toInt_offset {F U : Nat} (hspan : 0 ≤ span.toInt) (hF : full.toInt = F)
    (hU : used.toInt = U) :
    (Context.satAdd (Context.satMul full span) (Context.satAdd used 1)).toInt =
      min (((F * span.toInt.toNat + U : Nat) : Int) + 1) Context.largest.toInt := by
  have hlargest := Context.toInt_largest
  have hone : (1 : Int64).toInt = 1 := rfl
  have hmul : ((F * span.toInt.toNat : Nat) : Int) = full.toInt * span.toInt := by
    rw [Int.natCast_mul, Int.toNat_of_nonneg hspan, hF]
  have hpos : 0 ≤ full.toInt * span.toInt := Int.mul_nonneg (by omega) hspan
  -- cutting off twice is cutting off once, since nothing is negative
  have hm := Context.toInt_satMul (a := full) (b := span) (by omega) hspan
  have hu := Context.toInt_satAdd (a := used) (b := 1) (by omega) (by omega)
  rw [Context.toInt_satAdd (by omega) (by omega), hm, hu, hone, Int.natCast_add, hmul]
  omega

/-- **Handing out one more share.** Its offset is where it starts, counted
from one and cut off at the largest number. -/
theorem place (h : Packed span shares full used) (hsize : 1 ≤ size.toInt)
    (hle : size.toInt ≤ span.toInt) (hfew : shares.length + 1 < 2 ^ 63) :
    ∃ start : Nat,
      (Context.satAdd (Context.satMul (room span size full used).1 span)
        (Context.satAdd (room span size full used).2 1)).toInt =
          min ((start : Int) + 1) Context.largest.toInt ∧
      Packed span (shares ++ [⟨start, size.toInt.toNat⟩]) (room span size full used).1
        ((room span size full used).2 + size) := by
  have hlargest := Context.toInt_largest
  have hspanle := Context.toInt_le_largest span
  have hone : (1 : Int64).toInt = 1 := rfl
  have hroom : (span - size).toInt = span.toInt - size.toInt :=
    Context.toInt_sub_of_le (by omega) (by omega)
  obtain ⟨F, U, hF, hU, ht⟩ := h
  have hused := ht.used_le
  by_cases hover : 0 < used ∧ span - size < used
  · rw [room, if_pos hover]
    obtain ⟨hpos, hlt⟩ := hover
    rw [Int64.lt_iff_toInt_lt, Int64.toInt_zero] at hpos
    rw [Int64.lt_iff_toInt_lt, hroom] at hlt
    have hlength : F < shares.length :=
      (ht.started fun hnil => by have := (ht.empty hnil).2; omega).2
    have hF' : (full + 1).toInt = ((F + 1 : Nat) : Int) := by
      rw [Context.toInt_add_of_le (by omega) (by omega)]
      omega
    have hstart := toInt_offset (U := 0) (Int.le_trans (by omega) hle) hF' Int64.toInt_zero
    rw [Nat.add_zero] at hstart
    refine ⟨(F + 1) * span.toInt.toNat, hstart, F + 1, size.toInt.toNat, hF', ?_,
      ht.overflowing (by omega) (by omega) (by omega) (by omega)⟩
    rw [Int64.zero_add]
    omega
  · rw [room, if_neg hover]
    rw [Int64.lt_iff_toInt_lt, Int64.lt_iff_toInt_lt, hroom, Int64.toInt_zero] at hover
    refine ⟨F * span.toInt.toNat + U, toInt_offset (by omega) hF hU, F, U + size.toInt.toNat, hF,
      ?_, ht.fit (by omega) (by omega)⟩
    dsimp only
    rw [Context.toInt_add_of_le (by omega) (by omega)]
    omega

end Packed

end PointsTo
