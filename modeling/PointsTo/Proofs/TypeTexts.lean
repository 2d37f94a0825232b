import PointsTo.Proofs.TypeNames
/-!
# Texts that name types

A text is the name of a type with brackets at its end and `any` in front of
it, taken off one by one. `TypeText` is a text taken apart like that, and
finding its type is a recursion over that (`type_eq`): what is at its core
is looked up, and the rest is made of it.
-/

namespace PointsTo

namespace Universe

/-- A text whose beginning has no bracket is the name of an array only if the rest of it
is. -/
theorem isArrayName_of_append {start name : String} (hstart : '[' ∉ start.toList)
    (h : IsArrayName (start ++ name)) : IsArrayName name := by
  rw [IsArrayName, String.toList_append] at h
  obtain ⟨front, hfront⟩ := h
  obtain ⟨more, hmore, hname⟩ | ⟨more, -, hname⟩ := List.append_eq_append_iff.1 hfront
  · cases more with
    | nil => exact ⟨[], hname⟩
    | cons c more =>
      obtain rfl : '[' = c := (List.cons.inj hname).1
      exact absurd (hmore ▸ by simp) hstart
  · exact ⟨more, hname.symm⟩

/-- The name of an array type is the name of another type and two brackets. -/
theorem exists_eq_of_isArrayName {name : String} (h : IsArrayName name) :
    ∃ elem, name = elem ++ "[]" := by
  obtain ⟨front, hfront⟩ := h
  exact ⟨String.ofList front, String.toList_injective (by simp [← hfront])⟩

end Universe

namespace Program

open Universe

/-! ## Taking texts apart -/

theorem startsWith_iff {name start : String} :
    name.startsWith start ↔ start.toList <+: name.toList := by
  rw [String.startsWith_eq_startsWith_toSlice, String.Slice.startsWith_string_iff,
    String.copy_toSlice]

/-- What is dropped at the start and what is left make up the name. -/
theorem eq_append_of_dropStart? {name start rest : String}
    (h : dropStart? name start = some rest) : name = start ++ rest := by
  rw [dropStart?, ← String.length_toList] at h
  split at h
  · next hstarts =>
    obtain ⟨more, hmore⟩ := startsWith_iff.1 hstarts
    refine String.toList_injective ?_
    rw [← Option.some.inj h, String.toList_append, String.Slice.toString,
      String.toList_copy_drop, ← hmore, List.drop_left]
  · cases h

theorem length_of_dropStart? {name start rest : String} (h : dropStart? name start = some rest) :
    name.length = start.length + rest.length := by
  rw [eq_append_of_dropStart? h, String.length_append]

/-- What was put in front can be dropped again. -/
theorem dropStart?_append (start rest : String) :
    dropStart? (start ++ rest) start = some rest := by
  rw [dropStart?, if_pos (startsWith_iff.2 (by simp)), Option.some.injEq, ← String.length_toList]
  refine String.toList_injective ?_
  rw [String.Slice.toString, String.toList_copy_drop, String.toList_append, List.drop_left]

/-- What is left and what is dropped at the end make up the name. -/
theorem eq_append_of_dropEnd? {name suffix rest : String}
    (h : dropEnd? name suffix = some rest) : name = rest ++ suffix := by
  obtain ⟨front, hfront⟩ := dropEnd?_isSome.1 (Option.isSome_of_eq_some h)
  rw [dropEnd?, ← String.length_toList] at h
  split at h
  · refine String.toList_injective ?_
    rw [← Option.some.inj h, String.toList_append, String.Slice.toString,
      String.toList_copy_dropEnd, ← hfront, List.length_append, Nat.add_sub_cancel, List.take_left]
  · cases h

theorem length_of_dropEnd? {name suffix rest : String} (h : dropEnd? name suffix = some rest) :
    name.length = rest.length + suffix.length := by
  rw [eq_append_of_dropEnd? h, String.length_append]

/-- What was put at the end can be dropped again. -/
theorem dropEnd?_append (rest suffix : String) :
    dropEnd? (rest ++ suffix) suffix = some rest := by
  have hsome : (dropEnd? (rest ++ suffix) suffix).isSome := dropEnd?_isSome.2 (by simp)
  obtain ⟨x, hx⟩ := Option.isSome_iff_exists.1 hsome
  have hlists := congrArg String.toList (eq_append_of_dropEnd? hx)
  rw [String.toList_append, String.toList_append] at hlists
  rw [hx, String.toList_injective (List.append_cancel_right hlists)]

end Program

/-- **How a text names a type**: the text taken apart. -/
inductive TypeText where
  /-- The empty text, which names no type. -/
  | none
  /-- The type of the null constant. -/
  | null
  /-- A type that is looked up. -/
  | plain (name : String)
  | array (elem : TypeText)
  | anySubtype (base : TypeText)
  deriving DecidableEq, Repr

namespace TypeText

open Universe Program

variable {u : Universe} {p : Program} {e : TypeText} {name : String}

/-- Takes a text of fewer than `fuel` characters apart. -/
def readWithin : Nat → String → TypeText
  | 0, _ => none
  | fuel + 1, name =>
    if name = "" then none
    else if name = "null" then null
    else
      match dropEnd? name "[]", dropStart? name "any " with
      | some elem, _ => array (readWithin fuel elem)
      | .none, some base => anySubtype (readWithin fuel base)
      | .none, .none => plain name

/-- Takes a text apart. -/
def read (name : String) : TypeText := readWithin (name.length + 1) name

/-- The name of the type. -/
def typeName : TypeText → String
  | none => ""
  | null => nullTypeName
  | plain name => name
  | array elem => arrayName elem.typeName
  | anySubtype base => anySubtypeName base.typeName

/-- What is looked up. -/
def core? : TypeText → Option String
  | none | null => .none
  | plain name => name
  | array elem => elem.core?
  | anySubtype base => base.core?

/-- Finds the type, or makes it. -/
def resolve : TypeText → Step TypeId
  | none => pure noType
  | null => pure nullType
  | plain name => do orFail (.unknownType name) ((← get).nodes.lookupType name)
  | array elem => do
    let t ← elem.resolve
    onNodes (·.addArrayType t)
  | anySubtype base => do
    let t ← base.resolve
    onNodes (·.addAnySubtype t)

/-- **Naming a type is finding what the text has been taken apart to.** -/
theorem typeWithin_eq : ∀ (fuel : Nat) (name : String),
    typeWithin fuel name = (readWithin fuel name).resolve := by
  intro fuel
  induction fuel with
  | zero => exact fun _ => rfl
  | succ fuel ih =>
    intro name
    unfold typeWithin readWithin
    split
    · rfl
    split
    · rfl
    cases dropEnd? name "[]" with
    | some elem =>
      dsimp only
      rw [ih, resolve]
    | none =>
      cases dropStart? name "any " with
      | some base =>
        dsimp only
        rw [ih, resolve]
      | none => rfl

/-- **Naming a type is reading its name and resolving what was read.** -/
theorem type_eq (name : String) : type name = (read name).resolve := typeWithin_eq _ name

/-- The name of what was read is the name that the universe gives to the type. -/
theorem typeName_readWithin : ∀ (fuel : Nat) (name : String),
    (readWithin fuel name).typeName = Program.typeName fuel name := by
  intro fuel
  induction fuel with
  | zero => exact fun _ => rfl
  | succ fuel ih =>
    intro name
    unfold readWithin Program.typeName
    split
    · rfl
    split
    · rfl
    cases dropEnd? name "[]" with
    | some elem => exact congrArg arrayName (ih elem)
    | none =>
      cases dropStart? name "any " with
      | some base => exact congrArg anySubtypeName (ih base)
      | none => rfl

/-- The number of steps does not matter, if there are enough for the text. -/
theorem readWithin_congr : ∀ (fuel fuel' : Nat) (name : String), name.length < fuel →
    name.length < fuel' → readWithin fuel name = readWithin fuel' name := by
  intro fuel
  induction fuel with
  | zero => exact fun _ _ h => absurd h (Nat.not_lt_zero _)
  | succ fuel ih =>
    intro fuel' name h h'
    obtain ⟨k, rfl⟩ : ∃ k, fuel' = k + 1 := ⟨fuel' - 1, by omega⟩
    unfold readWithin
    split
    · rfl
    split
    · rfl
    split
    · next elem hend =>
      have hlength : name.length = elem.length + 2 := length_of_dropEnd? hend
      rw [ih k elem (by omega) (by omega)]
    · next base _ hstart =>
      have hlength : name.length = 4 + base.length := length_of_dropStart? hstart
      rw [ih k base (by omega) (by omega)]
    · rfl

/-- Brackets are read before anything else. -/
theorem read_array (elem : String) : read (elem ++ "[]") = array (read elem) := by
  have hend : dropEnd? (elem ++ "[]") "[]" = some elem := dropEnd?_append elem "[]"
  have hne : elem ++ "[]" ≠ "" := fun h => by simpa using congrArg String.length h
  have hnull : elem ++ "[]" ≠ "null" := fun h => by
    simpa using congrArg (fun s => s.toList.getLast?) h
  rw [read, readWithin, if_neg hne, if_neg hnull, hend]
  refine congrArg array (readWithin_congr _ _ elem ?_ (Nat.lt_succ_self _))
  rw [String.length_append]
  exact Nat.lt_add_of_pos_right (by decide)

/-- The word in front is read if there are no brackets at the end. -/
theorem read_anySubtype {base : String} (h : ¬ IsArrayName base) :
    read ("any " ++ base) = anySubtype (read base) := by
  have hend : dropEnd? ("any " ++ base) "[]" = .none :=
    Option.not_isSome_iff_eq_none.1 fun hsome =>
      h (isArrayName_of_append (by decide) (dropEnd?_isSome.1 hsome))
  have hstart : dropStart? ("any " ++ base) "any " = some base := dropStart?_append "any " base
  have hne : "any " ++ base ≠ "" := fun h => by simpa using congrArg String.length h
  have hnull : "any " ++ base ≠ "null" := fun h => by
    simpa using congrArg (fun s => s.toList.head?) h
  rw [read, readWithin, if_neg hne, if_neg hnull, hend, hstart]
  refine congrArg anySubtype (readWithin_congr _ _ base ?_ (Nat.lt_succ_self _))
  rw [String.length_append]
  exact Nat.lt_add_of_pos_left (by decide)

/-! ## Texts that have been read -/

/-- The text can have been read: what is looked up is not taken apart any further, and
nothing of which there is any subtype is an array. -/
def Readable : TypeText → Prop
  | none | null => True
  | plain name => read name = plain name
  | array elem => elem.Readable
  | anySubtype base => base.Readable ∧ ¬ IsArrayName base.typeName

/-- **What has been read is readable**, if there are more steps than characters. -/
theorem readable_readWithin : ∀ (fuel : Nat) (name : String), name.length < fuel →
    (readWithin fuel name).Readable := by
  intro fuel
  induction fuel with
  | zero => exact fun _ h => absurd h (Nat.not_lt_zero _)
  | succ fuel ih =>
    intro name h
    unfold readWithin
    by_cases hempty : name = ""
    · rw [if_pos hempty]
      trivial
    by_cases hnull : name = "null"
    · rw [if_neg hempty, if_pos hnull]
      trivial
    rw [if_neg hempty, if_neg hnull]
    match hend : dropEnd? name "[]", hstart : dropStart? name "any " with
    | some elem, _ =>
      have hlength : name.length = elem.length + 2 := length_of_dropEnd? hend
      exact ih elem (by omega)
    | .none, some base =>
      have hlength : name.length = 4 + base.length := length_of_dropStart? hstart
      refine ⟨ih base (by omega), fun harray => ?_⟩
      rw [typeName_readWithin] at harray
      have hsuffix := (isArrayName_of_typeName _ _ harray).trans (toList_dropStart? hstart)
      simpa [hend] using dropEnd?_isSome.2 hsuffix
    | .none, .none =>
      rw [Readable, read, readWithin, if_neg hempty, if_neg hnull, hend, hstart]

theorem readable_read (name : String) : (read name).Readable :=
  readable_readWithin _ name (Nat.lt_succ_self _)

end TypeText

end PointsTo
