import Motion.Proofs.Expression.Numeral
import Motion.Proofs.Number.Text
import Motion.Proofs.Scalar.Formula

/-!
The values of scalars. For integers the formula that an operation makes of two others has the value
that the operation gives; the text of such a formula reads as an expression with that value, and no
two operators in it run together.
-/

set_option autoImplicit false
set_option relaxedAutoImplicit false

namespace Motion

namespace Number

theorem lt_int {i j : ℤ} : (Number.int i).lt (.int j) = true ↔ i < j := by
  have hlt : ((i : ℚ) < j) ↔ i < j := Int.cast_lt
  rw [lt, compare?_of_toRat? rfl rfl, compareRat]
  split_ifs with hless hgreater
  · simpa using hlt.mp hless
  · simpa using fun h ↦ hless (hlt.mpr h)
  · simpa using fun h ↦ hless (hlt.mpr h)

theorem value_int (i : ℤ) : (Number.int i).value = i :=
  rfl

/-- Operations on integers other than the division are exact. -/
theorem operate_int {op : Operator} (hop : op ≠ .div) (i j : ℤ) : ∃ k : ℤ,
    (Number.int i).operate op (.int j) = some (.int k) ∧ (k : ℚ) = op.apply i j := by
  cases op with
  | add => exact ⟨i + j, rfl, Int.cast_add i j⟩
  | sub => exact ⟨i - j, rfl, Int.cast_sub i j⟩
  | mul => exact ⟨i * j, rfl, Int.cast_mul i j⟩
  | div => exact absurd rfl hop

end Number

/-- Formulas all of whose numbers are integers. -/
def Formula.IsIntegral : Formula → Prop
  | number n => ∃ i : ℤ, n = .int i
  | atom _ => True
  | neg operand => operand.IsIntegral
  | binary _ left right => left.IsIntegral ∧ right.IsIntegral

/-- Recipes that begin with integers and easings only. -/
def Recipe.IsIntegral : Recipe → Prop
  | number n => ∃ i : ℤ, n = .int i
  | atom _ => True
  | neg operand => operand.IsIntegral
  | binary _ left right => left.IsIntegral ∧ right.IsIntegral

/-- Recipes that divide no number by a number. -/
def Recipe.DividesNoNumbers : Recipe → Prop
  | number _ => True
  | atom _ => True
  | neg operand => operand.DividesNoNumbers
  | binary op left right =>
    (op = .div → ¬ ∃ m n, left.build = .ok (.literal m) ∧ right.build = .ok (.literal n)) ∧
      left.DividesNoNumbers ∧ right.DividesNoNumbers

theorem Formula.eq_of_same {n : Number} {j : ℤ} (hn : (Formula.number n).IsIntegral)
    (h : n.same (.int j) = true) : n = .int j := by
  obtain ⟨i, rfl⟩ := hn
  rw [Number.same_int.mp h]

namespace Folded

/-- Where no number is divided by a number, the formula that an operation on integral formulas makes
has the exact value. -/
theorem isIntegral_value {op : Operator} {f g k : Formula} (h : Folded op f g k)
    (hf : f.IsIntegral) (hg : g.IsIntegral)
    (hdiv : op = .div → (f.isNumber && g.isNumber) = false) :
    k.IsIntegral ∧ ∀ atoms, k.value atoms = op.apply (f.value atoms) (g.value atoms) := by
  have hzero : Formula.IsIntegral (.number 0) := ⟨0, rfl⟩
  have zero_value (atoms : ℕ → ℚ) : Formula.value atoms (.number (.int 0)) = 0 := rfl
  have one_value (atoms : ℕ → ℚ) : Formula.value atoms (.number (.int 1)) = 1 := rfl
  cases h with
  | numbers h =>
    obtain ⟨i, rfl⟩ := hf
    obtain ⟨j, rfl⟩ := hg
    have hop : op ≠ .div := fun hop ↦ Bool.noConfusion (hdiv hop)
    obtain ⟨k, hk, hvalue⟩ := Number.operate_int hop i j
    rw [hk] at h
    cases h
    exact ⟨⟨k, rfl⟩, fun atoms ↦ hvalue⟩
  | zeroAdd h =>
    obtain rfl := Formula.eq_of_same hf h
    exact ⟨hg, fun atoms ↦ by rw [zero_value, Operator.apply, zero_add]⟩
  | addZero h =>
    obtain rfl := Formula.eq_of_same hg h
    exact ⟨hf, fun atoms ↦ by rw [zero_value, Operator.apply, add_zero]⟩
  | zeroSubNumber h =>
    obtain rfl := Formula.eq_of_same hf h
    obtain ⟨j, rfl⟩ := hg
    refine ⟨⟨-j, rfl⟩, fun atoms ↦ ?_⟩
    rw [zero_value, Operator.apply, zero_sub]
    exact Int.cast_neg j
  | zeroSub h hnumber =>
    obtain rfl := Formula.eq_of_same hf h
    exact ⟨hg, fun atoms ↦ by rw [zero_value, Operator.apply, zero_sub, Formula.value]⟩
  | subZero h =>
    obtain rfl := Formula.eq_of_same hg h
    exact ⟨hf, fun atoms ↦ by rw [zero_value, Operator.apply, sub_zero]⟩
  | zeroMul h =>
    obtain rfl := Formula.eq_of_same hf h
    refine ⟨hzero, fun atoms ↦ ?_⟩
    rw [zero_value, Operator.apply, zero_mul]
    exact zero_value atoms
  | mulZero h =>
    obtain rfl := Formula.eq_of_same hg h
    refine ⟨hzero, fun atoms ↦ ?_⟩
    rw [zero_value, Operator.apply, mul_zero]
    exact zero_value atoms
  | oneMul h =>
    obtain rfl := Formula.eq_of_same hf h
    exact ⟨hg, fun atoms ↦ by rw [one_value, Operator.apply, one_mul]⟩
  | mulOne h =>
    obtain rfl := Formula.eq_of_same hg h
    exact ⟨hf, fun atoms ↦ by rw [one_value, Operator.apply, mul_one]⟩
  | zeroDiv h =>
    obtain rfl := Formula.eq_of_same hf h
    refine ⟨hzero, fun atoms ↦ ?_⟩
    rw [zero_value, Operator.apply, zero_div]
    exact zero_value atoms
  | divOne h =>
    obtain rfl := Formula.eq_of_same hg h
    exact ⟨hf, fun atoms ↦ by rw [one_value, Operator.apply, div_one]⟩
  | subNegative hnumber h =>
    obtain ⟨i, rfl⟩ := hg
    have hnegative := Number.lt_int.mp h
    refine ⟨⟨hf, ⟨i.natAbs, rfl⟩⟩, fun atoms ↦ ?_⟩
    have habs : (Number.int i).abs.value = -i := by
      rw [Number.abs, Number.value_int, Int.ofNat_natAbs_of_nonpos hnegative.le, Int.cast_neg]
    have hnumber : Formula.value atoms (.number (Number.int i).abs) = -i := habs
    change f.value atoms + Formula.value atoms (.number (Number.int i).abs) = f.value atoms - i
    rw [hnumber, sub_eq_add_neg]
  | written => exact ⟨⟨hf, hg⟩, fun atoms ↦ rfl⟩

end Folded

/-- The scalar that a recipe makes of integers and easings is written by an integral formula with
the value of the recipe. -/
theorem Recipe.build_value {recipe : Recipe} {v : Scalar} (hint : recipe.IsIntegral)
    (hdiv : recipe.DividesNoNumbers) (h : recipe.build = .ok v) :
    ∃ f, v.IsWrittenBy f ∧ f.IsFolded ∧ f.IsIntegral ∧
      ∀ atoms, f.value atoms = recipe.value atoms := by
  induction recipe generalizing v with
  | number value =>
    cases h
    exact ⟨.number value, rfl, trivial, hint, fun atoms ↦ rfl⟩
  | atom index =>
    cases h
    exact ⟨.atom index, ⟨rfl, String.toList_append⟩, trivial, trivial, fun atoms ↦ rfl⟩
  | neg operand ih =>
    obtain ⟨x, hx, rfl⟩ := build_neg h
    obtain ⟨f, hf, hfolded, hintegral, hvalue⟩ := ih hint hdiv hx
    obtain ⟨g, hg, ⟨n, rfl, rfl⟩ | ⟨hnumber, rfl⟩⟩ := Scalar.isWrittenBy_negate hf
    · obtain ⟨i, rfl⟩ := hintegral
      refine ⟨_, hg, trivial, ⟨-i, rfl⟩, fun atoms ↦ ?_⟩
      rw [Recipe.value, ← hvalue]
      exact Int.cast_neg i
    · refine ⟨_, hg, ⟨hnumber, hfolded⟩, hintegral, fun atoms ↦ ?_⟩
      rw [Recipe.value, ← hvalue, Formula.value]
  | binary op left right ihleft ihright =>
    obtain ⟨hquotient, hdivleft, hdivright⟩ := hdiv
    obtain ⟨x, hx, h⟩ := Except.bind_eq_ok h
    obtain ⟨y, hy, h⟩ := Except.bind_eq_ok h
    obtain ⟨f, hf, hfolded, hfint, hfvalue⟩ := ihleft hint.1 hdivleft hx
    obtain ⟨g, hg, hgfolded, hgint, hgvalue⟩ := ihright hint.2 hdivright hy
    obtain ⟨k, hk, hop⟩ := Scalar.operate_folded hf hg h
    have hnumbers (hop : op = .div) : (f.isNumber && g.isNumber) = false := by
      rw [← Scalar.isNumber_eq hf, ← Scalar.isNumber_eq hg, Bool.eq_false_iff]
      intro hboth
      cases x <;> cases y <;> first | exact hquotient hop ⟨_, _, hx, hy⟩ | cases hboth
    obtain ⟨hkint, hkvalue⟩ := hop.isIntegral_value hfint hgint hnumbers
    refine ⟨k, hk, hop.isFolded hfolded hgfolded, hkint, fun atoms ↦ ?_⟩
    rw [hkvalue, hfvalue, hgvalue, Recipe.value]

end Motion
