import Motion.Proofs.Scalar.Slope
import Motion.Scalar.Function

/-!
Which scalars know their slope. A binary operation ends in one of five ways (`Outcome`): with a
number, with an operand or its opposite where the other operand is a number, or with the text of both
operands. Numbers have a slope, and the text of both operands has one exactly if both have; so no
operation brings a slope back or loses one (`Outcome.hasSlope`). Along a whole course of operations
the slope of an expression, where it is known, is a text that is not empty (`IsMade.hasPlainSlope`).
-/

set_option autoImplicit false
set_option relaxedAutoImplicit false

namespace Motion.Scalar

/-- The scalars that come from given numbers and texts by operations and by functions. A text may be
given with the text of its slope. -/
inductive IsMade : Scalar → Prop
  | given {value : Data} {slope : Option String} {x : Scalar}
      (h : ofData value (slope.map .expr) = .ok x) : IsMade x
  | negate {x : Scalar} (hx : IsMade x) : IsMade x.negate
  | operate {x y z : Scalar} {op : Operator} (hx : IsMade x) (hy : IsMade y)
      (h : x.operate op y = .ok z) : IsMade z
  | applyWith {x z : Scalar} {name : String} {f : Number → List Number → Except Fault Number}
      {arguments : List Operand} (hx : IsMade x)
      (harguments : ∀ y, Operand.scalar y ∈ arguments → IsMade y)
      (h : x.applyWith name f arguments = .ok z) : IsMade z

/-- How a binary operation may end. -/
inductive Outcome (op : Operator) (x y : Scalar) : Scalar → Prop
  | number (n : Number) : Outcome op x y (literal n)
  | right (hx : x.isNumber = true) : Outcome op x y y
  | opposite (hx : x.isNumber = true) : Outcome op x y y.negate
  | left (hy : y.isNumber = true) : Outcome op x y x
  | written : Outcome op x y (x.combine op y)

/-- Whether the slope of an expression, where it is known, is a text that is not empty. -/
def HasPlainSlope : Scalar → Prop
  | literal _ => True
  | expr _ slope => slope = none ∨ ∃ text, text ≠ "" ∧ slope = some (.expr text)

variable {x y z : Scalar} {op : Operator}

section Outcomes

theorem isNumber_of_isLiteral {n : Number} (h : x.isLiteral n = true) : x.isNumber = true := by
  obtain ⟨m, rfl⟩ := eq_literal_of_isLiteral h
  rfl

/-- An operation on two numbers that are not dropped, or one that is written. -/
theorem operation_outcome (h : (match x, y with
      | .literal a, .literal b => inRange ((a.operate op b).map literal)
      | x, y => x.combine? op y) = .ok z) : Outcome op x y z := by
  have hwritten (h : x.combine? op y = .ok z) : Outcome op x y z := by
    obtain ⟨_, -, h⟩ := Except.bind_eq_ok h
    cases h
    exact .written
  cases x with
  | expr text slope => exact hwritten h
  | literal a =>
    cases y with
    | expr text slope => exact hwritten h
    | literal b =>
      cases hc : a.operate op b with
      | none => simp [hc, inRange] at h
      | some c =>
        simp only [hc, Option.map_some, inRange] at h
        cases h
        exact .number c

theorem add_outcome (h : x.add y = .ok z) : Outcome .add x y z := by
  unfold Scalar.add at h
  split_ifs at h with hzero hzero'
  · cases h
    exact .right (isNumber_of_isLiteral hzero)
  · cases h
    exact .left (isNumber_of_isLiteral hzero')
  · exact operation_outcome h

theorem subtract_outcome (h : x.subtract y = .ok z) : Outcome .sub x y z := by
  unfold Scalar.subtract at h
  split_ifs at h with hzero hzero'
  · cases h
    exact .opposite (isNumber_of_isLiteral hzero)
  · cases h
    exact .left (isNumber_of_isLiteral hzero')
  · exact operation_outcome h

theorem multiply_outcome (h : x.multiply y = .ok z) : Outcome .mul x y z := by
  unfold multiply at h
  split_ifs at h with hzero hone hone'
  · cases h
    exact .number 0
  · cases h
    exact .right (isNumber_of_isLiteral hone)
  · cases h
    exact .left (isNumber_of_isLiteral hone')
  · exact operation_outcome h

theorem divide_outcome (h : x.divide y = .ok z) : Outcome .div x y z := by
  unfold divide at h
  split_ifs at h with hdivisor hwritable hzero hone
  · cases h
    exact .number 0
  · cases h
    exact .left (isNumber_of_isLiteral hone)
  · exact operation_outcome h

theorem operate_outcome (h : x.operate op y = .ok z) : Outcome op x y z := by
  cases op with
  | add => exact add_outcome h
  | sub => exact subtract_outcome h
  | mul => exact multiply_outcome h
  | div => exact divide_outcome h

end Outcomes

section Slopes

theorem hasSlope_of_isNumber (h : x.isNumber = true) : x.hasSlope = true := by
  cases x with
  | literal value => rfl
  | expr text slope => cases h

theorem hasSlope_negate (x : Scalar) : x.negate.hasSlope = x.hasSlope := by
  cases x with
  | literal value => rfl
  | expr text slope => cases slope <;> rfl

/-- The text of two operands has a slope if both have one, and that is the text of their slopes. -/
theorem combine_eq (x y : Scalar) (op : Operator) : ∃ text sign, x.combine op y =
    .expr text (match x.slope?, y.slope? with
      | some p, some q => some (.expr (infixText p.text sign q.text))
      | _, _ => none) := by
  unfold combine
  split
  exact ⟨_, _, rfl⟩

theorem hasSlope_combine (x y : Scalar) (op : Operator) :
    (x.combine op y).hasSlope = (x.hasSlope && y.hasSlope) := by
  obtain ⟨text, sign, hcombine⟩ := combine_eq x y op
  rw [hcombine]
  unfold hasSlope
  cases x.slope? <;> cases y.slope? <;> rfl

/-- An expression that an operation ends with knows its slope exactly if both operands know theirs. -/
theorem Outcome.hasSlope (h : Outcome op x y z) (hz : z.isNumber = false) :
    z.hasSlope = (x.hasSlope && y.hasSlope) := by
  cases h with
  | number n => cases hz
  | right hx => rw [hasSlope_of_isNumber hx, Bool.true_and]
  | opposite hx => rw [hasSlope_negate, hasSlope_of_isNumber hx, Bool.true_and]
  | left hy => rw [hasSlope_of_isNumber hy, Bool.and_true]
  | written => exact hasSlope_combine x y op

/-- A call of a function in an expression knows no slope. -/
theorem hasSlope_applyWith {name : String} {f : Number → List Number → Except Fault Number}
    {arguments : List Operand} (h : x.applyWith name f arguments = .ok z) :
    z.hasSlope = z.isNumber := by
  unfold applyWith at h
  split at h
  · rename_i value numbers hnumbers
    cases hf : f value numbers with
    | error fault => simp [hf, Except.map] at h
    | ok n =>
      simp only [hf, Except.map] at h
      cases h
      rfl
  · obtain ⟨first, -, h⟩ := Except.bind_eq_ok h
    obtain ⟨more, -, h⟩ := Except.bind_eq_ok h
    cases h
    rfl

end Slopes

section Invariant

theorem HasPlainSlope.negate (h : x.HasPlainSlope) : x.negate.HasPlainSlope := by
  cases x with
  | literal value => trivial
  | expr text slope =>
    cases slope with
    | none => exact Or.inl rfl
    | some slope =>
      refine Or.inr ⟨_, ?_, rfl⟩
      simp

theorem hasPlainSlope_combine (x y : Scalar) (op : Operator) : (x.combine op y).HasPlainSlope := by
  obtain ⟨text, sign, hcombine⟩ := combine_eq x y op
  rw [hcombine]
  cases x.slope? with
  | none => exact Or.inl rfl
  | some p =>
    cases y.slope? with
    | none => exact Or.inl rfl
    | some q =>
      refine Or.inr ⟨_, ?_, rfl⟩
      simp [infixText]

theorem Outcome.hasPlainSlope (h : Outcome op x y z) (hx : x.HasPlainSlope)
    (hy : y.HasPlainSlope) : z.HasPlainSlope := by
  cases h with
  | number n => trivial
  | right => exact hy
  | opposite => exact hy.negate
  | left => exact hx
  | written => exact hasPlainSlope_combine x y op

theorem hasPlainSlope_ofData {value : Data} {slope : Option String}
    (h : ofData value (slope.map .expr) = .ok x) : x.HasPlainSlope := by
  cases value with
  | num n =>
    cases h
    trivial
  | str s =>
    cases h
    cases slope with
    | none => exact Or.inl rfl
    | some text =>
      by_cases hempty : text = ""
      · subst hempty
        exact Or.inl rfl
      · refine Or.inr ⟨text, hempty, ?_⟩
        simp [Option.filter, Slope.isTruthy, hempty]
  | _ => cases h

theorem hasPlainSlope_of_hasSlope (h : x.hasSlope = x.isNumber) : x.HasPlainSlope := by
  cases x with
  | literal value => trivial
  | expr text slope => exact Or.inl (Option.not_isSome_iff_eq_none.mp (Bool.eq_false_iff.mp h))

theorem IsMade.hasPlainSlope (h : x.IsMade) : x.HasPlainSlope := by
  induction h with
  | given h => exact hasPlainSlope_ofData h
  | negate _ ih => exact ih.negate
  | operate _ _ h ihx ihy => exact (operate_outcome h).hasPlainSlope ihx ihy
  | applyWith _ _ h => exact hasPlainSlope_of_hasSlope (hasSlope_applyWith h)

end Invariant

/-- The slope of a number is 0, that of an expression is not known or a text that is not empty. An
operation that ends with an expression knows its slope exactly if both operands know theirs, a function
that ends with one never does, and one that ends with a number always does. -/
theorem IsMade.slope_known (h : x.IsMade) :
    (x.isNumber = true → x.slope? = some (.num 0)) ∧
    (x.isNumber = false →
      x.slope? = none ∨ ∃ text, text ≠ "" ∧ x.slope? = some (.expr text)) ∧
    (∀ op y z, x.operate op y = .ok z →
      (z.isNumber = true → z.hasSlope = true) ∧
      (z.isNumber = false → (z.hasSlope = true ↔ x.hasSlope = true ∧ y.hasSlope = true))) ∧
    x.negate.hasSlope = x.hasSlope ∧
    ∀ name f arguments z, x.applyWith name f arguments = .ok z →
      (z.isNumber = true → z.hasSlope = true) ∧ (z.isNumber = false → z.hasSlope = false) := by
  refine ⟨fun hnumber ↦ ?_, fun hnumber ↦ ?_, fun op y z hz ↦ ⟨hasSlope_of_isNumber, fun hexpr ↦ ?_⟩,
    hasSlope_negate x, fun name f arguments z hz ↦ ⟨hasSlope_of_isNumber, fun hexpr ↦ ?_⟩⟩
  · cases x with
    | literal value => rfl
    | expr text slope => cases hnumber
  · have hplain := h.hasPlainSlope
    cases x with
    | literal value => cases hnumber
    | expr text slope => exact hplain
  · rw [(operate_outcome hz).hasSlope hexpr, Bool.and_eq_true]
  · rw [hasSlope_applyWith hz, hexpr]

/-- What is left of 2 once the greater one of an easing and 3 has been taken off. -/
def belowPeak : Scalar :=
  .expr "(2-max(@ease1(frame),3))" none

theorem isMade_belowPeak : belowPeak.IsMade := by
  have hease : ofData (.str "@ease1(frame)")
      ((some "(@ease1(frame+1)-@ease1(frame))").map .expr) = .ok (.ofToken "@ease1") := rfl
  have hpeak : (ofToken "@ease1").applyWith "max" Function.max.apply [.data (.num (.int 3))] =
      .ok (.expr "max(@ease1(frame),3)" none) := by decide +kernel
  have htwo : ofData (.num (.int 2)) ((none : Option String).map .expr) = .ok (.literal (.int 2)) :=
    rfl
  have hdifference : (literal (.int 2)).operate .sub (.expr "max(@ease1(frame),3)" none) =
      .ok belowPeak := by decide +kernel
  exact .operate (.given htwo) (.applyWith (.given hease) (fun y hy ↦ by simp at hy) hpeak) hdifference

theorem IsMade.slope_known_lost : belowPeak.IsMade ∧
    ∃ z, belowPeak.operate .mul (.ofToken "@ease1") = .ok z ∧ z.isNumber = false ∧
      z.hasSlope = false := by
  have hknown := IsMade.slope_known isMade_belowPeak
  refine ⟨isMade_belowPeak, _, rfl, rfl, Bool.eq_false_iff.mpr fun hslope ↦ ?_⟩
  have hboth := ((hknown.2.2.1 .mul (.ofToken "@ease1") _ rfl).2 rfl).mp hslope
  exact absurd hboth.1 (by decide)

end Motion.Scalar
