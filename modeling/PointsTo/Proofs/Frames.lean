import PointsTo.Proofs.Accesses
import PointsTo.Proofs.Classes
/-!
# The traversal with its frames laid out

`Components.visit` calls itself on every new successor. Here the points that it
is inside of are frames on a stack of their own, each with the successors that
have not been looked at, and a round of the loop deals with the frame on top
(`frameRound`). The least numbers that points get back to are kept in a table and
handed on to the frame below. A component is taken off the stack of points one
by one, and it is a fault that the stack runs out before.

`exists_returned` joins the two: once the loop is back from a point that it has
entered, it has done what a visit of the point does, and the frame below knows
the outcome. So the loop ends without a fault and in one way only, and what it
has completed are the `components` (`descends_components`).
-/

namespace PointsTo

namespace Components

open Progress

variable {α : Type} [DecidableEq α]

/-! ## The loop -/

/-- A point the traversal is inside of, and its successors that have not been
looked at. -/
structure Frame (α : Type) where
  point : α
  todo : List α

/-- The state of the loop. -/
structure Descent (α : Type) where
  progress : Progress α := {}
  /-- The least numbers that the points are known to get back to. -/
  lowlink : Assoc α Nat := []
  /-- The points the traversal is inside of, last first. -/
  frames : List (Frame α) := []

namespace Descent

variable {next : α → List α} {s : Descent α} {v x : α} {n : Nat}

/-- The least number that a point is known to get back to. -/
def low (s : Descent α) (v : α) : Nat := s.lowlink.getD v 0

/-- The points the traversal is inside of. -/
def path (s : Descent α) : List α := s.frames.map (·.point)

/-- Enters a point, which gets a frame. -/
def push (next : α → List α) (s : Descent α) (v : α) : Descent α where
  progress := s.progress.enter v
  lowlink := s.lowlink.set v s.progress.entered.length
  frames := ⟨v, next v⟩ :: s.frames

/-- A point gets back to that number as well. -/
def lower (s : Descent α) (v : α) (n : Nat) : Descent α :=
  if n < s.low v then { s with lowlink := s.lowlink.set v n } else s

/-- The frame below gets back to what `v` gets back to. -/
def handOn (s : Descent α) (v : α) : Descent α :=
  match s.frames with
  | [] => s
  | f :: _ => s.lower f.point (s.low v)

@[simp] theorem progress_lower : (s.lower v n).progress = s.progress := by
  rw [lower]
  split <;> rfl

@[simp] theorem frames_lower : (s.lower v n).frames = s.frames := by
  rw [lower]
  split <;> rfl

theorem low_lower : (s.lower v n).low x = if x = v then min (s.low x) n else s.low x := by
  by_cases hx : x = v
  · subst hx
    rw [if_pos rfl, lower]
    split
    · next hlt =>
      rw [Nat.min_eq_right (Nat.le_of_lt hlt), low, Assoc.getD, Assoc.get?_set_self]
      rfl
    · next hle => rw [Nat.min_eq_left (Nat.not_lt.1 hle)]
  · rw [if_neg hx, lower]
    split
    · rw [low, low, Assoc.getD, Assoc.get?_set_ne _ _ hx, Assoc.getD]
    · rfl

@[simp] theorem progress_handOn : (s.handOn v).progress = s.progress := by
  rw [handOn]
  split
  · rfl
  · exact progress_lower

@[simp] theorem frames_handOn : (s.handOn v).frames = s.frames := by
  rw [handOn]
  split
  · rfl
  · exact frames_lower

/-- Only the frame below is told. -/
theorem low_handOn : (s.handOn v).low x =
    if s.path.head? = some x then min (s.low x) (s.low v) else s.low x := by
  obtain ⟨progress, lowlink, _ | ⟨f, below⟩⟩ := s
  · rfl
  · refine low_lower.trans (if_congr ?_ rfl rfl)
    simp [path, eq_comm]

end Descent

/-- Takes points off a stack up to `v`. It is a fault that `v` is not there. -/
def popTo (v : α) : List α → Except Fault (List α × List α)
  | [] => .error .outOfRange
  | w :: stack =>
    if w = v then .ok ([w], stack) else (popTo v stack).map fun out => (w :: out.1, out.2)

theorem popTo_append {v : α} {top rest : List α} (hv : v ∉ top) :
    popTo v (top ++ v :: rest) = .ok (top ++ [v], rest) := by
  induction top with
  | nil => simp [popTo]
  | cons w top ih =>
    obtain ⟨hne, hv⟩ := not_or.1 (mt List.mem_cons.2 hv)
    rw [List.cons_append, popTo, if_neg (Ne.symm hne), ih hv]
    rfl

/-- Completes the component of `v`. -/
def Progress.pop (p : Progress α) (v : α) : Except Fault (Progress α) :=
  (popTo v p.stack).map fun out => { p with stack := out.2, complete := p.complete ++ [out.1] }

/-- A component that is on the stack can be taken off it. -/
theorem Progress.pop_eq {p : Progress α} {v : α} {top rest : List α}
    (hstack : p.stack = top ++ v :: rest) (hv : v ∉ top) : p.pop v = .ok (p.close v) := by
  rw [pop, close_eq (by rw [hstack, List.append_assoc, List.singleton_append]) hv, hstack,
    popTo_append hv]
  rfl

/-- **One round**: the top frame looks at a successor, which is entered if it is new, or
else it is done, hands on what it gets back to, and completes its component if
that is no further than its own point. -/
def frameRound (next : α → List α) (s : Descent α) : Except Fault (Option (Descent α)) :=
  match s.frames with
  | [] => .ok none
  | ⟨v, w :: todo⟩ :: below =>
    let s := { s with frames := ⟨v, todo⟩ :: below }
    match s.progress.entered.get? w with
    | none => .ok (some (s.push next w))
    | some j => .ok (some (if w ∈ s.progress.stack then s.lower v j else s))
  | ⟨v, []⟩ :: below =>
    let s := { s with frames := below }.handOn v
    if s.low v = s.progress.num v then
      (s.progress.pop v).map fun progress => some { s with progress }
    else .ok (some s)

/-- **The loop over the starting points.** One that has been entered is passed over, and
from any other the rounds go on until no frame is left. -/
inductive Descends (next : α → List α) : List α → Descent α → Descent α → Prop
  | nil (s : Descent α) : Descends next [] s s
  | seen {v : α} {points : List α} {s t : Descent α} (hv : s.progress.Entered v)
      (hrest : Descends next points s t) : Descends next (v :: points) s t
  | root {v : α} {points : List α} {s s' t : Descent α} {n : Nat} (hv : ¬ s.progress.Entered v)
      (hrun : Loops (frameRound next) n (s.push next v) s')
      (hrest : Descends next points s' t) : Descends next (v :: points) s t

theorem Descends.unique {next : α → List α} {points : List α} {s t t' : Descent α}
    (h : Descends next points s t) (h' : Descends next points s t') : t = t' := by
  induction h with
  | nil s =>
    cases h'
    rfl
  | seen hv _ ih =>
    cases h' with
    | seen _ hrest' => exact ih hrest'
    | root hv' => exact absurd hv hv'
  | root hv hrun _ ih =>
    cases h' with
    | seen hv' => exact absurd hv' hv
    | root _ hrun' hrest' =>
      obtain ⟨-, rfl⟩ := hrun.unique hrun'
      exact ih hrest'

/-! ## One visit -/

/-- The loop gets from one state to the other. -/
abbrev Runs (next : α → List α) : Descent α → Descent α → Prop :=
  Relation.ReflTransGen fun s t => frameRound next s = .ok (some t)

/-- **What the loop has done once it is back** from a point that it entered in the state
`s`: what a visit of it does, and the frame below knows what the visit got back to. -/
structure Returned (s : Descent α) (out : Nat × Progress α) (t : Descent α) : Prop where
  progress : t.progress = out.2
  frames : t.frames = s.frames
  low : ∀ x, s.progress.Entered x →
    t.low x = if s.path.head? = some x then min (s.low x) out.1 else s.low x

/-- What it has done while the successors `todo` of the point are left. -/
structure Scanning (s : Descent α) (v : α) (todo : List α) (out : Nat × Progress α)
    (t : Descent α) : Prop where
  progress : t.progress = out.2
  frames : t.frames = ⟨v, todo⟩ :: s.frames
  low_self : t.low v = out.1
  low : ∀ x, s.progress.Entered x → t.low x = s.low x

section Visit

variable {next : α → List α} {s t : Descent α} {v w : α} {todo : List α} {q : Progress α}
  {l : Nat}

/-- A new point has all of its successors left. -/
theorem scanning_push (hnew : ¬ s.progress.Entered v) :
    Scanning s v (next v) (s.progress.entered.length, s.progress.enter v) (s.push next v) where
  progress := rfl
  frames := rfl
  low_self := by
    rw [Descent.low, Descent.push, Assoc.getD, Assoc.get?_set_self]
    rfl
  low x hx := by
    have hne : x ≠ v := fun heq => hnew (heq ▸ hx)
    rw [Descent.low, Descent.push, Assoc.getD, Assoc.get?_set_ne _ _ hne, Descent.low, Assoc.getD]

namespace Scanning

/-- A successor that has been entered is looked at in one round. -/
theorem old (h : Scanning s v (w :: todo) (l, q) t) (hnew : ¬ s.progress.Entered v) {j : Nat}
    (hget : q.entered.get? w = some j) : ∃ t', frameRound next t = .ok (some t') ∧
      Scanning s v todo (if w ∈ q.stack then min l j else l, q) t' := by
  obtain ⟨progress, lowlink, frames⟩ := t
  obtain ⟨rfl, rfl, hself, hlow⟩ := h
  refine ⟨if w ∈ progress.stack then Descent.lower ⟨progress, lowlink, ⟨v, todo⟩ :: s.frames⟩ v j
    else ⟨progress, lowlink, ⟨v, todo⟩ :: s.frames⟩, by simp only [frameRound, hget], ?_⟩
  dsimp only
  split
  · refine ⟨Descent.progress_lower, Descent.frames_lower, ?_, fun x hx => ?_⟩
    · rw [Descent.low_lower, if_pos rfl]
      exact congrArg (min · j) hself
    · have hne : x ≠ v := fun heq => hnew (heq ▸ hx)
      rw [Descent.low_lower, if_neg hne]
      exact hlow x hx
  · exact ⟨rfl, rfl, hself, hlow⟩

/-- One that has not is entered. -/
theorem new (h : Scanning s v (w :: todo) (l, q) t) (hget : q.entered.get? w = none) :
    ∃ s', frameRound next t = .ok (some (s'.push next w)) ∧ Scanning s v todo (l, q) s' := by
  obtain ⟨progress, lowlink, frames⟩ := t
  obtain ⟨rfl, rfl, hself, hlow⟩ := h
  exact ⟨⟨progress, lowlink, ⟨v, todo⟩ :: s.frames⟩, by simp only [frameRound, hget], rfl, rfl,
    hself, hlow⟩

/-- Back from a successor, the point gets back to what the successor does. -/
theorem returned (h : Scanning s v todo (l, q) t) (hnew : ¬ s.progress.Entered v)
    (hv : q.Entered v) (hgrows : ∀ x, s.progress.Entered x → q.Entered x)
    {out : Nat × Progress α} {t' : Descent α} (h' : Returned t out t') :
    Scanning s v todo (min l out.1, out.2) t' := by
  have hpath : t.path.head? = some v := by rw [Descent.path, h.frames]; rfl
  have hentered : ∀ x, q.Entered x → t.progress.Entered x := fun x hx => h.progress ▸ hx
  refine ⟨h'.progress, h'.frames.trans h.frames, ?_, fun x hx => ?_⟩
  · rw [h'.low v (hentered v hv), if_pos hpath, h.low_self]
  · rw [h'.low x (hentered x (hgrows x hx)), hpath, if_neg, h.low x hx]
    exact fun heq => hnew (Option.some.inj heq ▸ hx)

/-- **The round in which a frame is left.** -/
theorem finish (h : Scanning s v [] (l, q) t) (hp : Inv next s.path s.progress)
    (hnew : ¬ s.progress.Entered v) (hscan : Scanned next s.path s.progress v (next v) l q) :
    ∃ t', frameRound next t = .ok (some t') ∧
      Returned s (if l = s.progress.entered.length then (l, q.close v) else (l, q)) t' := by
  obtain ⟨progress, lowlink, frames⟩ := t
  obtain ⟨rfl, rfl, hself, hlow⟩ := h
  -- the frame below is about another point
  have hbelow : s.path.head? ≠ some v := fun heq =>
    hnew ((hp.entered_iff v).2 (.inl (hp.path_subset v (List.mem_of_mem_head? heq))))
  generalize hdone : Descent.handOn ⟨progress, lowlink, s.frames⟩ v = t
  have hprogress : t.progress = progress := hdone ▸ Descent.progress_handOn
  have hframes : t.frames = s.frames := hdone ▸ Descent.frames_handOn
  have hlow' : ∀ x, t.low x = if s.path.head? = some x
      then min (Descent.low ⟨progress, lowlink, s.frames⟩ x) l
      else Descent.low ⟨progress, lowlink, s.frames⟩ x := fun x => by
    rw [← hdone, Descent.low_handOn]
    exact if_congr Iff.rfl (congrArg (min _) hself) rfl
  have hv : t.low v = l := by rw [hlow', if_neg hbelow]; exact hself
  have hnum : t.progress.num v = s.progress.entered.length := hprogress ▸ hscan.num_self
  have hreturned : ∀ x, s.progress.Entered x →
      t.low x = if s.path.head? = some x then min (s.low x) l else s.low x := fun x hx => by
    rw [hlow', ← hlow x hx]
    rfl
  simp only [frameRound, hdone, hv, hnum]
  split
  · obtain ⟨top, hstack⟩ := hscan.stack_eq
    have hnot : v ∉ top := fun hv => by
      have hnodup := (List.nodup_append.1 hscan.inv.nodup).1
      rw [hstack, List.nodup_append] at hnodup
      exact hnodup.2.2 v hv v List.mem_cons_self rfl
    rw [hprogress, Progress.pop_eq hstack hnot]
    exact ⟨_, rfl, rfl, hframes, hreturned⟩
  · exact ⟨t, rfl, hprogress, hframes, hreturned⟩

end Scanning

end Visit

section Induction

variable {next : α → List α} {U : List α} {fuel : Nat}

/-- The loop gets back from every point that may be visited so deep. -/
def Returns (next : α → List α) (U : List α) (fuel : Nat) : Prop :=
  ∀ (v : α) (s : Descent α), Inv next s.path s.progress → ¬ s.progress.Entered v →
    (∀ b ∈ s.path, Reaches next b v) → v ∈ U → left U s.progress ≤ fuel →
    ∃ t, Runs next (s.push next v) t ∧ Returned s (visit next fuel v s.progress) t

/-- **One successor more**, whether it is new or not. -/
theorem Scanning.look (hback : Returns next U fuel) (hU : ∀ a ∈ U, ∀ b ∈ next a, b ∈ U)
    {s t : Descent α} {v w : α} {done todo : List α} {out : Nat × Progress α}
    (h : Scanning s v (w :: todo) out t) (hnew : ¬ s.progress.Entered v)
    (hscan : Scanned next s.path s.progress v done out.1 out.2)
    (hpath : ∀ b ∈ s.path, Reaches next b v) (hv : v ∈ U) (hleft : left U s.progress ≤ fuel + 1)
    (hw : w ∈ next v) :
    ∃ t', Runs next t t' ∧ Scanning s v todo (Components.look next fuel out w) t' := by
  obtain ⟨l, q⟩ := out
  cases hget : q.entered.get? w with
  | some j =>
    obtain ⟨t', hround, ht'⟩ := h.old hnew hget
    rw [Components.look, hget]
    exact ⟨t', .single hround, ht'⟩
  | none =>
    obtain ⟨s', hround, hs'⟩ : ∃ s', frameRound next t = .ok (some (s'.push next w)) ∧
        Scanning s v todo (l, q) s' := h.new hget
    have hpath' : s'.path = v :: s.path := by rw [Descent.path, hs'.frames]; rfl
    obtain rfl : s'.progress = q := hs'.progress
    have hreach : ∀ b ∈ s'.path, Reaches next b w := fun b hb => by
      rw [hpath', List.mem_cons] at hb
      obtain rfl | hb := hb
      · exact .single hw
      · exact (hpath b hb).tail hw
    have hless : left U s'.progress ≤ fuel := by
      have hmono : left U s'.progress ≤ left U (s.progress.enter v) :=
        left_mono hscan.grows.entered
      have := left_enter_lt hv hnew
      omega
    obtain ⟨t', hrun, ht'⟩ := hback w s' (hpath' ▸ hscan.inv)
      (by simp [Entered, Assoc.has, hget]) hreach (hU v hv w hw) hless
    rw [Components.look, hget]
    exact ⟨t', .head hround hrun, hs'.returned hnew
      (hscan.grows.entered v (entered_enter.2 (.inl rfl)))
      (fun x hx => hscan.grows.entered x (entered_enter.2 (.inr hx))) ht'⟩

/-- **A visit is what the loop does** between entering a point and leaving it. The
induction is that of `visit`: a new successor is a visit with one frame more. -/
theorem exists_returned (hU : ∀ a ∈ U, ∀ b ∈ next a, b ∈ U) : ∀ fuel, Returns next U fuel := by
  intro fuel
  induction fuel with
  | zero =>
    intro v s _ hnew _ hv hleft
    have := left_enter_lt hv hnew
    omega
  | succ fuel ih =>
    intro v s hp hnew hpath hv hleft
    -- one successor after the other, along with what the visit has found so far
    obtain ⟨hscan, t, hrun, ht⟩ := foldl_run (fun done (x : Nat × Progress α) =>
      Scanned next s.path s.progress v done x.1 x.2 ∧
        ∃ t, Runs next (s.push next v) t ∧ Scanning s v ((next v).drop done.length) x t)
      (f := look next fuel) (l := next v)
      ⟨.start hp hnew hpath, _, .refl, scanning_push hnew⟩ (by
        rintro done w x ⟨todo, htodo⟩ ⟨hscan, t, hrun, ht⟩
        have hw : w ∈ next v := by rw [htodo]; simp
        refine ⟨hscan.look hU (visit_visited hU fuel) hp hnew hpath hv hleft hw, ?_⟩
        rw [htodo, List.drop_left] at ht
        rw [htodo, List.length_append, List.length_singleton, ← List.drop_drop, List.drop_left,
          List.drop_one, List.tail_cons]
        obtain ⟨t', hrun', ht'⟩ := ht.look ih hU hnew hscan hpath hv hleft hw
        exact ⟨t', hrun.trans hrun', ht'⟩)
    rw [List.drop_length] at ht
    obtain ⟨t', hround, ht'⟩ := ht.finish hp hnew hscan
    refine ⟨t', hrun.tail hround, ?_⟩
    rw [visit_succ]
    exact ht'

end Induction

/-! ## The whole traversal -/

section Descends

variable {next : α → List α} {U points : List α} {bound : Nat}

/-- **The frames find what the visits find.** -/
theorem exists_descends (hU : ∀ a ∈ U, ∀ b ∈ next a, b ∈ U) (hbound : U.length ≤ bound)
    (hpoints : ∀ v ∈ points, v ∈ U) {s : Descent α} (hframes : s.frames = [])
    (hp : Inv next [] s.progress) : ∃ t, Descends next points s t ∧ t.frames = [] ∧
      t.progress = points.foldl (fun p v =>
        if p.entered.has v then p else (visit next bound v p).2) s.progress := by
  induction points generalizing s with
  | nil => exact ⟨s, .nil s, hframes, rfl⟩
  | cons v points ih =>
    obtain ⟨hv, hpoints⟩ := List.forall_mem_cons.1 hpoints
    rw [List.foldl_cons]
    by_cases hseen : s.progress.entered.has v
    · obtain ⟨t, ht, hend⟩ := ih hpoints hframes hp
      rw [if_pos hseen]
      exact ⟨t, .seen hseen ht, hend⟩
    · have hpath : s.path = [] := by rw [Descent.path, hframes]; rfl
      have hleft : left U s.progress ≤ bound := (List.length_filter_le ..).trans hbound
      have hvisited := visit_visited hU bound v [] s.progress hp hseen (by simp) hv hleft
      obtain ⟨s', hrun, hs'⟩ := exists_returned hU bound v s (hpath ▸ hp) hseen
        (by simp [hpath]) hv hleft
      -- no frame is left, and so the loop is
      have hempty : s'.frames = [] := hs'.frames.trans hframes
      have hleave : Loops (frameRound next) 0 s' s' := .leave (by rw [frameRound, hempty])
      obtain ⟨n, hloops⟩ := hleave.after hrun
      obtain ⟨t, ht, hend⟩ := ih hpoints hempty (hs'.progress ▸ hvisited.inv)
      rw [if_neg hseen, ← hs'.progress]
      exact ⟨t, .root hseen hloops ht, hend⟩

/-- **The loop ends, without a fault and in one way only, and what it has completed are the
components.** This holds where the starting points reach finitely many points, for any
bound that `components` may be given. -/
theorem descends_components (hfin : (reachedFrom next points).Finite)
    (hbound : (reachedFrom next points).ncard ≤ bound) :
    ∃ t, (∀ t', Descends next points {} t' ↔ t' = t) ∧
      t.progress.complete = components next bound points ∧
      t.progress.stack = [] ∧ t.frames = [] := by
  obtain ⟨U, hmem, hlen⟩ : ∃ U : List α,
      (∀ w, w ∈ U ↔ w ∈ reachedFrom next points) ∧ U.length = (reachedFrom next points).ncard :=
    ⟨hfin.toFinset.toList, by simp, by
      rw [Finset.length_toList, Set.ncard_eq_toFinset_card _ hfin]⟩
  have hU : ∀ a ∈ U, ∀ b ∈ next a, b ∈ U := fun a ha b hb =>
    (hmem b).2 (reachedFrom_closed ((hmem a).1 ha) hb)
  have hpoints : ∀ v ∈ points, v ∈ U := fun v hv => (hmem v).2 ⟨v, hv, .refl⟩
  have hbound' : U.length ≤ bound := hlen.trans_le hbound
  obtain ⟨t, ht, hframes, hprogress⟩ := exists_descends hU hbound' hpoints
    (s := ({} : Descent α)) rfl inv_start
  refine ⟨t, fun t' => ⟨fun ht' => ht'.unique ht, fun heq => heq ▸ ht⟩, ?_, ?_, hframes⟩
  · rw [hprogress]
    rfl
  · have hfound := visitAll_found hU hpoints hbound'
    rw [hprogress]
    exact hfound.stack_eq_nil

end Descends

end Components

end PointsTo
