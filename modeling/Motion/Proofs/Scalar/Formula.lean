import Motion.Easing.Table
import Motion.Proofs.Expression.Basic
import Motion.Proofs.Scene.Walk

/-!
How scalars come about. A `Recipe` is a course of operations on numbers and easings; a `Formula` is
how the text of a scalar is put together. What an operation makes of the formulas of its operands is
told by `Folded`: numbers are folded, neutral operands dropped, and the subtraction of a negative
number is turned into an addition; else the operation is written.
-/

set_option autoImplicit false
set_option relaxedAutoImplicit false

namespace Motion

/-- A course of operations that makes a scalar from numbers and easings. -/
inductive Recipe where
  | number (value : Number)
  | atom (index : ℕ)
  | neg (operand : Recipe)
  | binary (op : Operator) (left right : Recipe)

/-- The scalar that reads the easing with a number at the current frame. -/
def Scalar.atom (index : ℕ) : Scalar :=
  .ofToken (tokenOf (easeName index))

/-- The operation of an operator on scalars. -/
def Scalar.operate : Operator → Scalar → Scalar → Except Fault Scalar
  | .add => add
  | .sub => subtract
  | .mul => multiply
  | .div => divide

/-- The scalar that a recipe makes. -/
def Recipe.build : Recipe → Except Fault Scalar
  | number value => .ok (.literal value)
  | atom index => .ok (.atom index)
  | neg operand => operand.build.map Scalar.negate
  | binary op left right => do
    let x ← left.build
    let y ← right.build
    x.operate op y

/-- The rational value of a number; an infinity and NaN have none and count as 0. -/
def Number.value (n : Number) : ℚ :=
  n.toRat?.getD 0

/-- The exact value of a recipe for given values of the easings. -/
def Recipe.value (atoms : ℕ → ℚ) : Recipe → ℚ
  | number n => n.value
  | atom index => atoms index
  | neg operand => -operand.value atoms
  | binary op left right => op.apply (left.value atoms) (right.value atoms)

/-- How the text of a scalar is put together. -/
inductive Formula where
  | number (value : Number)
  | atom (index : ℕ)
  | neg (operand : Formula)
  | binary (op : Operator) (left right : Formula)

namespace Formula

def isNumber : Formula → Bool
  | number _ => true
  | _ => false

/-- The text of an easing at the current frame. -/
def atomText (index : ℕ) : List Char :=
  (tokenOf (easeName index)).toList ++ "(frame)".toList

def text : Formula → List Char
  | number value => value.textChars
  | atom index => atomText index
  | neg operand => '(' :: '-' :: operand.text ++ [')']
  | binary op left right => '(' :: left.text ++ op.symbol.toList ++ right.text ++ [')']

/-- The easings in the text, from left to right. -/
def atoms : Formula → List ℕ
  | number _ => []
  | atom index => [index]
  | neg operand => operand.atoms
  | binary _ left right => left.atoms ++ right.atoms

/-- The value for given values of the easings. -/
def value (atoms : ℕ → ℚ) : Formula → ℚ
  | number n => n.value
  | atom index => atoms index
  | neg operand => -operand.value atoms
  | binary op left right => op.apply (left.value atoms) (right.value atoms)

/-- Whether a formula may stand after a minus sign: it is no negative number. -/
def mayFollowMinus : Formula → Bool
  | number n => !n.lt 0
  | _ => true

/-- Operations are written where they cannot be folded, and no negative number is subtracted. -/
def IsFolded : Formula → Prop
  | number _ => True
  | atom _ => True
  | neg operand => operand.isNumber = false ∧ operand.IsFolded
  | binary op left right =>
    (left.isNumber && right.isNumber) = false ∧ (op = .sub → right.mayFollowMinus = true) ∧
      left.IsFolded ∧ right.IsFolded

end Formula

/-- Whether a scalar is written by a formula. -/
def Scalar.IsWrittenBy (x : Scalar) (f : Formula) : Prop :=
  match x with
  | .literal value => f = .number value
  | .expr text _ => f.isNumber = false ∧ text.toList = f.text

/-- The operation of an operator on numbers. -/
def Number.operate : Operator → Number → Number → Option Number
  | .add => add
  | .sub => sub
  | .mul => mul
  | .div => div

/-- What an operation makes of the formulas of its operands. -/
inductive Folded : Operator → Formula → Formula → Formula → Prop where
  | numbers {op : Operator} {a b c : Number} (h : a.operate op b = some c) :
    Folded op (.number a) (.number b) (.number c)
  | zeroAdd {n : Number} {f : Formula} (h : n.same 0 = true) : Folded .add (.number n) f f
  | addZero {n : Number} {f : Formula} (h : n.same 0 = true) : Folded .add f (.number n) f
  | zeroSubNumber {n m : Number} (h : n.same 0 = true) :
    Folded .sub (.number n) (.number m) (.number m.neg)
  | zeroSub {n : Number} {f : Formula} (h : n.same 0 = true) (hf : f.isNumber = false) :
    Folded .sub (.number n) f (.neg f)
  | subZero {n : Number} {f : Formula} (h : n.same 0 = true) : Folded .sub f (.number n) f
  | zeroMul {n : Number} {f : Formula} (h : n.same 0 = true) : Folded .mul (.number n) f (.number 0)
  | mulZero {n : Number} {f : Formula} (h : n.same 0 = true) : Folded .mul f (.number n) (.number 0)
  | oneMul {n : Number} {f : Formula} (h : n.same 1 = true) : Folded .mul (.number n) f f
  | mulOne {n : Number} {f : Formula} (h : n.same 1 = true) : Folded .mul f (.number n) f
  | zeroDiv {n : Number} {f : Formula} (h : n.same 0 = true) : Folded .div (.number n) f (.number 0)
  | divOne {n : Number} {f : Formula} (h : n.same 1 = true) : Folded .div f (.number n) f
  | subNegative {n : Number} {f : Formula} (hf : f.isNumber = false) (h : n.lt 0 = true) :
    Folded .sub f (.number n) (.binary .add f (.number n.abs))
  | written {op : Operator} {f g : Formula} (hnumber : (f.isNumber && g.isNumber) = false)
    (hminus : op = .sub → g.mayFollowMinus = true) : Folded op f g (.binary op f g)

namespace Scalar

theorem text?_eq_ok {x : Scalar} (h : x.isWritable = true) : x.text? = .ok x.text := by
  rw [text?, h]
  rfl

theorem text?_eq_error {x : Scalar} (h : x.isWritable = false) : x.text? = .error .badValue := by
  rw [text?, h]
  rfl

theorem toList_text {x : Scalar} {f : Formula} (h : x.IsWrittenBy f) : x.text.toList = f.text := by
  cases x with
  | literal value =>
    cases h
    exact String.toList_ofList
  | expr text slope => exact h.2

theorem isNumber_eq {x : Scalar} {f : Formula} (h : x.IsWrittenBy f) : x.isNumber = f.isNumber := by
  cases x with
  | literal value =>
    cases h
    rfl
  | expr text slope => exact h.1.symm

theorem isWrittenBy_negate {x : Scalar} {f : Formula} (h : x.IsWrittenBy f) :
    ∃ g, x.negate.IsWrittenBy g ∧
      ((∃ n, f = .number n ∧ g = .number n.neg) ∨ (f.isNumber = false ∧ g = .neg f)) := by
  cases x with
  | literal value =>
    cases h
    exact ⟨_, rfl, Or.inl ⟨value, rfl, rfl⟩⟩
  | expr text slope =>
    cases slope <;> exact ⟨.neg f, ⟨rfl, by simp [Formula.text, ← h.2]⟩, Or.inr ⟨h.1, rfl⟩⟩

theorem combine_negative (x : Scalar) {n : Number} (h : n.lt 0 = true) :
    ∃ slope, x.combine .sub (.literal n) = .expr (infixText x.text .add n.abs.text) slope := by
  rw [combine]
  simp only [h, if_true]
  exact ⟨_, rfl⟩

theorem combine_plain (x y : Scalar) (op : Operator)
    (h : ∀ n, op = .sub → y = .literal n → n.lt 0 = false) :
    ∃ slope, x.combine op y = .expr (infixText x.text op y.text) slope := by
  cases y with
  | literal n =>
    cases op with
    | sub =>
      rw [combine]
      simp only [h n rfl rfl, Bool.false_eq_true, if_false]
      exact ⟨_, rfl⟩
    | _ => exact ⟨_, rfl⟩
  | expr text slope => cases op <;> exact ⟨_, rfl⟩

theorem isWrittenBy_infixText {x y : Scalar} {f g : Formula} (hx : x.IsWrittenBy f)
    (hy : y.IsWrittenBy g) (op : Operator) (slope : Option Slope) :
    IsWrittenBy (.expr (infixText x.text op y.text) slope) (.binary op f g) := by
  refine ⟨rfl, ?_⟩
  simp [infixText, toList_text hx, toList_text hy, Formula.text]

/-- An operation that is written. -/
theorem combine_folded {x y : Scalar} {f g : Formula} (hx : x.IsWrittenBy f) (hy : y.IsWrittenBy g)
    (op : Operator) (hnumber : (f.isNumber && g.isNumber) = false) :
    ∃ k, (x.combine op y).IsWrittenBy k ∧ Folded op f g k := by
  by_cases hturned : op = .sub ∧ ∃ n, y = .literal n ∧ n.lt 0 = true
  · obtain ⟨rfl, n, rfl, hnegative⟩ := hturned
    cases hy
    have hf : f.isNumber = false := by simpa [Formula.isNumber] using hnumber
    obtain ⟨slope, hcombine⟩ := combine_negative x hnegative
    rw [hcombine]
    have habs : IsWrittenBy (.literal n.abs) (.number n.abs) := rfl
    exact ⟨_, isWrittenBy_infixText hx habs .add slope, .subNegative hf hnegative⟩
  · have hliteral (n : Number) (hop : op = .sub) (hy : y = .literal n) : n.lt 0 = false :=
      Bool.eq_false_iff.mpr fun hnegative ↦ hturned ⟨hop, n, hy, hnegative⟩
    have hminus (hop : op = .sub) : g.mayFollowMinus = true := by
      cases y with
      | literal n =>
        cases hy
        simp [Formula.mayFollowMinus, hliteral n hop rfl]
      | expr text slope =>
        have hg := hy.1
        cases g <;> first | rfl | cases hg
    obtain ⟨slope, hcombine⟩ := combine_plain x y op hliteral
    rw [hcombine]
    exact ⟨_, isWrittenBy_infixText hx hy op slope, .written hnumber hminus⟩

theorem combine?_folded {x y v : Scalar} {f g : Formula} (hx : x.IsWrittenBy f)
    (hy : y.IsWrittenBy g) {op : Operator} (hnumber : (f.isNumber && g.isNumber) = false)
    (h : x.combine? op y = .ok v) : ∃ k, v.IsWrittenBy k ∧ Folded op f g k := by
  unfold combine? at h
  obtain ⟨_, -, h⟩ := Except.bind_eq_ok h
  cases h
  exact combine_folded hx hy op hnumber

/-- An operation on two numbers that are not dropped, or one that is written. -/
theorem operation_folded {x y v : Scalar} {f g : Formula} (hx : x.IsWrittenBy f)
    (hy : y.IsWrittenBy g) {op : Operator}
    (h : (match x, y with
      | .literal a, .literal b => inRange ((a.operate op b).map literal)
      | x, y => x.combine? op y) = .ok v) :
    ∃ k, v.IsWrittenBy k ∧ Folded op f g k := by
  cases x with
  | literal a =>
    cases y with
    | literal b =>
      cases hx
      cases hy
      cases hc : a.operate op b with
      | none => simp [hc, inRange] at h
      | some c =>
        simp only [hc, Option.map_some, inRange] at h
        cases h
        exact ⟨_, rfl, .numbers hc⟩
    | expr text slope => exact combine?_folded hx hy (by simp [hy.1]) h
  | expr text slope => exact combine?_folded hx hy (by simp [hx.1]) h

theorem eq_number_of_isLiteral {x : Scalar} {f : Formula} (hx : x.IsWrittenBy f) {n : Number}
    (h : x.isLiteral n = true) : ∃ m, f = .number m ∧ m.same n = true := by
  cases x with
  | literal value => exact ⟨value, hx, h⟩
  | expr text slope => cases h

theorem add_folded {x y v : Scalar} {f g : Formula} (hx : x.IsWrittenBy f) (hy : y.IsWrittenBy g)
    (h : x.add y = .ok v) : ∃ k, v.IsWrittenBy k ∧ Folded .add f g k := by
  unfold add at h
  split_ifs at h with hzero hzero'
  · obtain ⟨n, rfl, hn⟩ := eq_number_of_isLiteral hx hzero
    cases h
    exact ⟨g, hy, .zeroAdd hn⟩
  · obtain ⟨n, rfl, hn⟩ := eq_number_of_isLiteral hy hzero'
    cases h
    exact ⟨f, hx, .addZero hn⟩
  · exact operation_folded hx hy h

theorem subtract_folded {x y v : Scalar} {f g : Formula} (hx : x.IsWrittenBy f)
    (hy : y.IsWrittenBy g) (h : x.subtract y = .ok v) :
    ∃ k, v.IsWrittenBy k ∧ Folded .sub f g k := by
  unfold subtract at h
  split_ifs at h with hzero hzero'
  · obtain ⟨n, rfl, hn⟩ := eq_number_of_isLiteral hx hzero
    cases h
    obtain ⟨k, hk, ⟨m, rfl, rfl⟩ | ⟨hnumber, rfl⟩⟩ := isWrittenBy_negate hy
    · exact ⟨_, hk, .zeroSubNumber hn⟩
    · exact ⟨_, hk, .zeroSub hn hnumber⟩
  · obtain ⟨n, rfl, hn⟩ := eq_number_of_isLiteral hy hzero'
    cases h
    exact ⟨f, hx, .subZero hn⟩
  · exact operation_folded hx hy h

theorem multiply_folded {x y v : Scalar} {f g : Formula} (hx : x.IsWrittenBy f)
    (hy : y.IsWrittenBy g) (h : x.multiply y = .ok v) :
    ∃ k, v.IsWrittenBy k ∧ Folded .mul f g k := by
  unfold multiply at h
  split_ifs at h with hzero hone hone'
  · cases h
    rcases (Bool.or_eq_true _ _).mp hzero with hzero | hzero
    · obtain ⟨n, rfl, hn⟩ := eq_number_of_isLiteral hx hzero
      exact ⟨_, rfl, .zeroMul hn⟩
    · obtain ⟨n, rfl, hn⟩ := eq_number_of_isLiteral hy hzero
      exact ⟨_, rfl, .mulZero hn⟩
  · obtain ⟨n, rfl, hn⟩ := eq_number_of_isLiteral hx hone
    cases h
    exact ⟨g, hy, .oneMul hn⟩
  · obtain ⟨n, rfl, hn⟩ := eq_number_of_isLiteral hy hone'
    cases h
    exact ⟨f, hx, .mulOne hn⟩
  · exact operation_folded hx hy h

theorem divide_folded {x y v : Scalar} {f g : Formula} (hx : x.IsWrittenBy f) (hy : y.IsWrittenBy g)
    (h : x.divide y = .ok v) : ∃ k, v.IsWrittenBy k ∧ Folded .div f g k := by
  unfold divide at h
  split_ifs at h with hdivisor hwritable hzero hone
  · obtain ⟨n, rfl, hn⟩ := eq_number_of_isLiteral hx hzero
    cases h
    exact ⟨_, rfl, .zeroDiv hn⟩
  · obtain ⟨n, rfl, hn⟩ := eq_number_of_isLiteral hy hone
    cases h
    exact ⟨f, hx, .divOne hn⟩
  · exact operation_folded hx hy h

/-- What an operation makes of the formulas of its operands. -/
theorem operate_folded {x y v : Scalar} {f g : Formula} (hx : x.IsWrittenBy f)
    (hy : y.IsWrittenBy g) {op : Operator} (h : x.operate op y = .ok v) :
    ∃ k, v.IsWrittenBy k ∧ Folded op f g k := by
  cases op with
  | add => exact add_folded hx hy h
  | sub => exact subtract_folded hx hy h
  | mul => exact multiply_folded hx hy h
  | div => exact divide_folded hx hy h

end Scalar

namespace Folded

theorem isFolded {op : Operator} {f g k : Formula} (h : Folded op f g k) (hf : f.IsFolded)
    (hg : g.IsFolded) : k.IsFolded := by
  cases h with
  | numbers | zeroSubNumber | zeroMul | mulZero | zeroDiv => trivial
  | zeroAdd | oneMul => exact hg
  | addZero | subZero | mulOne | divOne => exact hf
  | zeroSub _ hnumber => exact ⟨hnumber, hg⟩
  | subNegative hnumber => exact ⟨by rw [hnumber]; rfl, (fun hop ↦ nomatch hop), hf, trivial⟩
  | written hnumber hminus => exact ⟨hnumber, hminus, hf, hg⟩

end Folded

theorem Recipe.build_neg {operand : Recipe} {v : Scalar} (h : (neg operand).build = .ok v) :
    ∃ x, operand.build = .ok x ∧ v = x.negate := by
  rw [build] at h
  cases hx : operand.build with
  | error fault => simp [hx, Except.map] at h
  | ok x =>
    simp only [hx, Except.map, Except.ok.injEq] at h
    exact ⟨x, rfl, h.symm⟩

/-- The scalar that a recipe makes is written by a formula. -/
theorem Recipe.build_isWrittenBy {recipe : Recipe} {v : Scalar} (h : recipe.build = .ok v) :
    ∃ f, v.IsWrittenBy f ∧ f.IsFolded := by
  induction recipe generalizing v with
  | number value =>
    cases h
    exact ⟨.number value, rfl, trivial⟩
  | atom index =>
    cases h
    exact ⟨.atom index, ⟨rfl, String.toList_append⟩, trivial⟩
  | neg operand ih =>
    obtain ⟨x, hx, rfl⟩ := build_neg h
    obtain ⟨f, hf, hfolded⟩ := ih hx
    obtain ⟨g, hg, ⟨n, -, rfl⟩ | ⟨hnumber, rfl⟩⟩ := Scalar.isWrittenBy_negate hf
    · exact ⟨_, hg, trivial⟩
    · exact ⟨_, hg, hnumber, hfolded⟩
  | binary op left right ihleft ihright =>
    obtain ⟨x, hx, h⟩ := Except.bind_eq_ok h
    obtain ⟨y, hy, h⟩ := Except.bind_eq_ok h
    obtain ⟨f, hf, hfolded⟩ := ihleft hx
    obtain ⟨g, hg, hgfolded⟩ := ihright hy
    obtain ⟨k, hk, hop⟩ := Scalar.operate_folded hf hg h
    exact ⟨k, hk, hop.isFolded hfolded hgfolded⟩

end Motion
