import Motion.Proofs.Scene.Pushing

/-!
Conditions on the values under tags (`Tagged.Holds`), and the texts that joining a value to a
binding can make (`IsJoined`).
-/

set_option autoImplicit false
set_option relaxedAutoImplicit false

namespace Motion

/-- Tags each of which is there once, with a value that satisfies a condition. -/
structure Tagged.Holds (P : Tag → Data → Prop) (tags : Tagged) : Prop where
  nodup : (Entries.keys tags).Nodup
  holds : ∀ tag value, Entries.get? tags tag = some value → P tag value

namespace Tagged

variable {P : Tag → Data → Prop} {tags : Tagged}

theorem holds_nil : Holds P [] := by
  constructor
  · exact List.nodup_nil
  · intro tag value hget
    simp at hget

theorem Holds.put (h : tags.Holds P) {tag : Tag} {value : Data} (hvalue : P tag value) :
    Holds P (Entries.put tags tag value) := by
  constructor
  · exact Entries.nodup_keys_put h.nodup tag value
  · intro other current hget
    rw [Entries.get?_put] at hget
    split_ifs at hget with hother
    · rw [← hother, ← Option.some_inj.mp hget]
      exact hvalue
    · exact h.holds other current hget

theorem Holds.sublist (h : tags.Holds P) {part : Tagged} (hpart : part.Sublist tags) :
    Holds P part := by
  have hnodup : (Entries.keys part).Nodup := (hpart.map Prod.fst).nodup h.nodup
  refine ⟨hnodup, fun tag value hget ↦ ?_⟩
  exact h.holds tag value (Entries.get?_of_mem h.nodup (hpart.subset (Entries.mem_of_get? hget)))

theorem Holds.filter (h : tags.Holds P) (keep : Tag × Data → Bool) : Holds P (tags.filter keep) :=
  h.sublist List.filter_sublist

theorem Holds.inTagOrder (h : tags.Holds P) : Holds P (Motion.inTagOrder tags) := by
  constructor
  · exact nodup_inTagOrder tags
  · intro tag value hget
    rw [get?_inTagOrder] at hget
    exact h.holds tag value hget

/-- The first of some tags, and the others. -/
theorem Holds.of_cons {tag : Tag} {value : Data} {rest : Tagged} (h : Holds P ((tag, value) :: rest)) :
    P tag value ∧ Entries.get? rest tag = none ∧ Holds P rest := by
  obtain ⟨habsent, hnodup, hrest⟩ := Entries.of_nodup_cons h.nodup
  have hfirst : Entries.get? ((tag, value) :: rest) tag = some value := by
    rw [Entries.get?_cons, if_pos rfl]
  refine ⟨h.holds tag value hfirst, habsent, hnodup, fun other current hget ↦ ?_⟩
  exact h.holds other current (hrest other current hget)

end Tagged

section Joining

variable {κ : Type} [DecidableEq κ] [HasFamily κ]

/-- The texts that joining a value to a binding can make. -/
inductive IsJoined (operator : Operator) (current value : Data) : List Char → Prop
  | operand (hvalue : operandText value (some operator) ≠ []) :
      IsJoined operator current value (operandText value (some operator))
  | opposite (hoperator : operator = .sub) (hvalue : operandText value (some operator) ≠ []) :
      IsJoined operator current value ('-' :: operandText value (some operator))
  | both (hcurrent : operandText current (some operator) ≠ [])
      (hvalue : operandText value (some operator) ≠ []) :
      IsJoined operator current value (operandText current (some operator) ++
        operator.symbol.toList ++ operandText value (some operator))

/-- Joining leaves the entries as they are or puts a joined text under the key. -/
theorem joinText_cases (entries : Entries κ Data) (key : κ) (value : Data) (op : Option Operator) :
    joinText entries key value op = entries ∨
      ∃ text, joinText entries key value op =
          Entries.put entries key (.str (Scalar.binding (String.ofList text))) ∧
        IsJoined (op.getD (mergeOperator key)) ((Entries.get? entries key).getD .null) value text := by
  unfold joinText
  dsimp only
  split_ifs with hnothing hcurrent hsub
  · exact Or.inl rfl
  · simp only [Bool.or_eq_true, Bool.and_eq_true, not_or, not_and, List.isEmpty_iff] at hnothing
    exact Or.inr ⟨_, rfl, .both (hnothing.2 hcurrent) hnothing.1⟩
  · simp only [Bool.or_eq_true, not_or, List.isEmpty_iff] at hnothing
    exact Or.inr ⟨_, rfl, .opposite hsub hnothing.1⟩
  · simp only [Bool.or_eq_true, not_or, List.isEmpty_iff] at hnothing
    exact Or.inr ⟨_, rfl, .operand hnothing.1⟩

end Joining

namespace Data

/-- A number or a simple binding: what takes part in arithmetic. -/
def IsArithmetic (value : Data) : Prop :=
  (∃ n, value = .num n) ∨ ∃ s, value.interior? = some s

/-- The bare expression of a number is the number as expressions write it. -/
theorem eq_textChars {n : Number} {s : List Char} (h : bareExpression? (.num n) = some s) :
    s = n.textChars := by
  cases hnumber : (Data.num n).number? with
  | none =>
    simp only [bareExpression?, hnumber] at h
    cases h
  | some m =>
    simp only [bareExpression?, hnumber] at h
    exact (Option.some_inj.mp h).symm

/-- The text of such a value as an operand is made of the characters of bindings without blanks. -/
theorem IsArithmetic.isDense_operandText {value : Data} (h : value.IsArithmetic)
    (op : Option Operator) : ∀ c ∈ operandText value op, isDense c = true := by
  have hbare (s : List Char) (hs : bareExpression? value = some s) :
      ∀ c ∈ s, isBindingCharacter c = true := by
    rcases h with ⟨n, rfl⟩ | ⟨interior, hinterior⟩
    · rw [eq_textChars hs]
      exact fun c hc ↦ isBindingCharacter_of_isNumberCharacter
        (n.isNumberCharacter_of_mem_textChars c hc)
    · rw [bareExpression?_of_interior? hinterior, Option.some_inj] at hs
      rw [← hs]
      exact List.all_eq_true.mp (all_of_interior? hinterior)
  unfold operandText
  cases hs : bareExpression? value with
  | none => exact List.forall_mem_nil _
  | some s =>
    have hdense : ∀ c ∈ Text.removeBlanks s, isDense c = true := by
      intro c hc
      obtain ⟨hmem, hblank⟩ := List.mem_filter.mp hc
      rw [isDense, hbare s hs c hmem, hblank]
      rfl
    dsimp only
    split_ifs
    · have hclosing : ∀ c ∈ [')'], isDense c = true := List.all_eq_true.mp (by decide)
      exact List.forall_mem_append.mpr
        ⟨List.forall_mem_cons.mpr ⟨by decide, hdense⟩, hclosing⟩
    · exact hdense

end Data

section Joining

variable {operator : Operator} {current value : Data} {text : List Char}

/-- What is joined from values that take part in arithmetic has no blanks. -/
theorem IsJoined.isDense (h : IsJoined operator current value text) (hvalue : value.IsArithmetic)
    (hcurrent : current = .null ∨ current.IsArithmetic) : ∀ c ∈ text, isDense c = true := by
  have hoperand := hvalue.isDense_operandText (some operator)
  have hpresent : ∀ c ∈ operandText current (some operator), Motion.isDense c = true := by
    rcases hcurrent with rfl | hcurrent
    · exact List.forall_mem_nil _
    · exact hcurrent.isDense_operandText (some operator)
  have hsymbol : ∀ c ∈ operator.symbol.toList, Motion.isDense c = true := by
    cases operator <;> exact List.all_eq_true.mp (by decide)
  cases h with
  | operand => exact hoperand
  | opposite => exact List.forall_mem_cons.mpr ⟨by decide, hoperand⟩
  | both =>
    exact List.forall_mem_append.mpr ⟨List.forall_mem_append.mpr ⟨hpresent, hsymbol⟩, hoperand⟩

/-- It is the expression of a simple binding. -/
theorem IsJoined.interior? (h : IsJoined operator current value text) (hvalue : value.IsArithmetic)
    (hcurrent : current = .null ∨ current.IsArithmetic) :
    (Data.str (Scalar.binding (String.ofList text))).interior? = some text := by
  have hall : text.all Data.isBindingCharacter = true := by
    refine List.all_eq_true.mpr fun c hc ↦ ?_
    have hdense := h.isDense hvalue hcurrent c hc
    rw [Motion.isDense, Bool.and_eq_true] at hdense
    exact hdense.1
  rw [Data.interior?_binding (by rwa [String.toList_ofList]), String.toList_ofList]

end Joining

end Motion
