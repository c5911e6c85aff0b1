import Motion.Proofs.Scalar.Slope
import Motion.Style.Transform

/-!
Orientation along a path. The rotation of a transform takes its direction from the slopes of the
position less the pivot. Where these are sums and differences of integers and easings, the two
numbers from which the direction is taken are the forward differences of the coordinates; the
rotation is refused only where a number with too many digits would have to be written.
-/

set_option autoImplicit false
set_option relaxedAutoImplicit false

namespace Motion

namespace Scalar

/-- Whether the difference of two scalars is folded or may be written. -/
def mayMeet (x y : Scalar) : Bool :=
  (x.isNumber && y.isNumber) || (x.isWritable && y.isWritable)

theorem isWritable_of_isLiteral_zero {x : Scalar} (h : x.isLiteral 0 = true) :
    x.isWritable = true := by
  obtain ⟨n, rfl⟩ := eq_literal_of_isLiteral h
  cases n with
  | int i =>
    obtain rfl : i = 0 := Number.same_int.mp h
    rw [isWritable, Number.isWritable, Nat.pow_eq, decide_eq_true_iff]
    exact Nat.pow_pos (by decide)
  | float f => rfl

theorem isNumber_of_not_isWritable {x : Scalar} (h : x.isWritable = false) :
    x.isNumber = true := by
  cases x with
  | literal n => rfl
  | expr text slope => cases h

/-- The difference of linear scalars that may meet. -/
theorem exists_subtract {x y : Scalar} (hx : x.IsLinear) (hy : y.IsLinear)
    (h : x.mayMeet y = true) : ∃ v, x.subtract y = .ok v := by
  have hwritten (hwritable : (x.isWritable && y.isWritable) = true) :
      x.combine? .sub y = .ok (x.combine .sub y) := by
    rw [combine?, hwritable]
    rfl
  unfold subtract
  split_ifs with hzero hzero'
  · exact ⟨_, rfl⟩
  · exact ⟨_, rfl⟩
  cases x with
  | expr text slope => exact ⟨_, hwritten h⟩
  | literal a =>
    cases y with
    | expr text slope => exact ⟨_, hwritten (by simpa [mayMeet, isNumber] using h)⟩
    | literal b =>
      obtain ⟨i, rfl⟩ := hx.literal
      obtain ⟨j, rfl⟩ := hy.literal
      exact ⟨_, rfl⟩

/-- Scalars that may not meet are no neutral operands. -/
theorem subtract_eq_badValue {x y : Scalar} (h : x.mayMeet y = false) :
    x.subtract y = .error .badValue := by
  obtain ⟨hnumber, hwritable⟩ := Bool.or_eq_false_iff.mp h
  have hwritten : x.combine? .sub y = .error .badValue := by
    rw [combine?, hwritable]
    rfl
  unfold subtract
  split_ifs with hzero hzero'
  · rw [isWritable_of_isLiteral_zero hzero, Bool.true_and] at hwritable
    obtain ⟨n, rfl⟩ := eq_literal_of_isLiteral hzero
    rw [isNumber_of_not_isWritable hwritable] at hnumber
    cases hnumber
  · rw [isWritable_of_isLiteral_zero hzero', Bool.and_true] at hwritable
    obtain ⟨n, rfl⟩ := eq_literal_of_isLiteral hzero'
    rw [isNumber_of_not_isWritable hwritable] at hnumber
    cases hnumber
  · cases x with
    | expr text slope => exact hwritten
    | literal a =>
      cases y with
      | expr text slope => exact hwritten
      | literal b => cases hnumber

/-- The value of a scalar at a frame less that of another one. -/
def differenceAt? (x y : Scalar) (easings : Easings) (frame : ℤ) : Option ℚ := do
  return (← x.valueAt? easings frame) - (← y.valueAt? easings frame)

/-- The slope of the difference of linear scalars. -/
theorem exists_subtract_slope {x y : Scalar} (hx : x.IsLinear) (hy : y.IsLinear)
    (h : x.mayMeet y = true) : ∃ v slope, x.subtract y = .ok v ∧ v.slope = .ok slope ∧
      IsForwardDifference slope.text (differenceAt? x y) := by
  obtain ⟨v, hv⟩ := exists_subtract hx hy h
  obtain ⟨first, -, hfirst, hxchange⟩ := hx.exists_value
  obtain ⟨second, -, hsecond, hychange⟩ := hy.exists_value
  have hread (easings : Easings) (frame : ℤ) : differenceAt? x y easings frame =
      some (first easings frame - second easings frame) := by
    rw [differenceAt?, hfirst, hsecond]
    rfl
  obtain ⟨slope, hslope, hdifference⟩ := (hxchange.subtract hychange hv).isForwardDifference
    (fun easings frame ↦ sub_sub_sub_comm _ _ _ _) hread
  exact ⟨v, slope, hv, hslope, hdifference⟩

end Scalar

namespace Transform

/-- Transforms whose position and pivot are made of integers and easings by sums, differences and
negations. -/
structure IsLinear (transform : Transform) : Prop where
  positionX : transform.positionX.IsLinear
  positionY : transform.positionY.IsLinear
  pivotX : transform.pivotX.IsLinear
  pivotY : transform.pivotY.IsLinear

/-- Whether no number with too many digits has to be written for the orientation. -/
def canOrient (transform : Transform) : Bool :=
  transform.rotation.isWritable && transform.positionX.mayMeet transform.pivotX &&
    transform.positionY.mayMeet transform.pivotY

/-- A transform is refused where a number with too many digits has to be written. -/
theorem orientedRotation_refused {transform : Transform} (hlinear : transform.IsLinear)
    (h : transform.canOrient = false) : transform.orientedRotation = .error .badValue := by
  cases hx : transform.positionX.mayMeet transform.pivotX with
  | false =>
    rw [orientedRotation, Scalar.subtract_eq_badValue hx]
    rfl
  | true =>
    obtain ⟨x, hsubx⟩ := Scalar.exists_subtract hlinear.positionX hlinear.pivotX hx
    cases hy : transform.positionY.mayMeet transform.pivotY with
    | false =>
      rw [orientedRotation, hsubx, Scalar.subtract_eq_badValue hy]
      rfl
    | true =>
      obtain ⟨y, hsuby⟩ := Scalar.exists_subtract hlinear.positionY hlinear.pivotY hy
      rw [canOrient, hx, hy, Bool.and_true, Bool.and_true] at h
      rw [orientedRotation, hsubx, hsuby, Scalar.text?_eq_error h]
      rfl

/-- The slope of each linear scalar is its forward difference, and that of its text if it has one: an
integer with too many digits has none. Hence a transform with linear position and pivot follows its path:
the direction is taken from the forward differences of the coordinates of the position less the pivot. -/
theorem orientedRotation_follows :
    (∀ x : Scalar, x.IsLinear → ∃ slope, x.slope = .ok slope ∧
      IsForwardDifference slope.text x.valueAt? ∧
      if x.isWritable then ∃ text, x.text? = .ok text ∧
        IsForwardDifference slope.text fun easings frame ↦ textAt? easings frame text
      else x.text? = .error .badValue) ∧
    ∀ transform : Transform, transform.IsLinear →
      (transform.canOrient = true →
        ∃ rotation dy dx, transform.rotation.text? = .ok rotation ∧
          transform.orientedRotation = .ok (Scalar.binding (rotation ++
            " + 180 / Math.PI * Math.atan2(" ++ dy ++ ", " ++ dx ++ ")")) ∧
          IsForwardDifference dy (transform.positionY.differenceAt? transform.pivotY) ∧
          IsForwardDifference dx (transform.positionX.differenceAt? transform.pivotX)) ∧
      (transform.canOrient = false → transform.orientedRotation = .error .badValue) := by
  refine ⟨fun x hx ↦ ?_, fun transform hlinear ↦
    ⟨fun horient ↦ ?_, orientedRotation_refused hlinear⟩⟩
  · obtain ⟨value, htext, hvalue, hchange⟩ := hx.exists_value
    obtain ⟨slope, hslope, hdifference⟩ :=
      hchange.isForwardDifference (fun easings frame ↦ rfl) hvalue
    refine ⟨slope, hslope, hdifference, ?_⟩
    split_ifs with hwritable
    · refine ⟨x.text, Scalar.text?_eq_ok hwritable, ?_⟩
      simpa only [IsForwardDifference, hvalue, htext] using hdifference
    · exact Scalar.text?_eq_error (Bool.eq_false_iff.mpr hwritable)
  · rw [canOrient, Bool.and_eq_true, Bool.and_eq_true] at horient
    obtain ⟨⟨hwritable, hx⟩, hy⟩ := horient
    obtain ⟨x, dx, hsubx, hslopex, hdx⟩ :=
      Scalar.exists_subtract_slope hlinear.positionX hlinear.pivotX hx
    obtain ⟨y, dy, hsuby, hslopey, hdy⟩ :=
      Scalar.exists_subtract_slope hlinear.positionY hlinear.pivotY hy
    refine ⟨transform.rotation.text, dy.text, dx.text, Scalar.text?_eq_ok hwritable, ?_, hdy, hdx⟩
    rw [orientedRotation, hsubx, hsuby, Scalar.text?_eq_ok hwritable]
    simp only [Except.ok_bind, hslopex, hslopey]
    rfl

/-- The position moves along an easing and past a pivot that is left of the origin; the other
coordinate of the pivot is five less another easing. -/
def turning : Transform where
  positionX := .atom 1
  pivotX := .literal (.int (-3))
  pivotY := .expr "(5-@ease2(frame))" (some (.expr "(0-(@ease2(frame+1)-@ease2(frame)))"))

/-- The pivot is an integer with one digit too many, beside a position that has to be written. -/
def overlong : Transform where
  positionX := .atom 1
  pivotX := .literal (.int (10 ^ Numeral.digitLimit))

theorem isLinear_turning : turning.IsLinear where
  positionX := ⟨.atom 1, trivial, trivial, rfl⟩
  positionY := ⟨.number 0, ⟨0, rfl⟩, trivial, rfl⟩
  pivotX := ⟨.number (.int (-3)), ⟨-3, rfl⟩, trivial, rfl⟩
  pivotY := ⟨.binary .sub (.number (.int 5)) (.atom 2), ⟨⟨5, rfl⟩, trivial⟩, ⟨rfl, trivial, trivial⟩,
    by decide +kernel⟩

theorem isLinear_overlong : overlong.IsLinear where
  positionX := ⟨.atom 1, trivial, trivial, rfl⟩
  positionY := ⟨.number 0, ⟨0, rfl⟩, trivial, rfl⟩
  pivotX := ⟨.number (.int (10 ^ Numeral.digitLimit)), ⟨_, rfl⟩, trivial, rfl⟩
  pivotY := ⟨.number 0, ⟨0, rfl⟩, trivial, rfl⟩

theorem orientedRotation_turning : turning.IsLinear ∧ turning.canOrient = true ∧
    turning.orientedRotation = .ok ("$\x7b0 + 180 / Math.PI * " ++
      "Math.atan2((-(0-(@ease2(frame+1)-@ease2(frame)))), " ++
      "((@ease1(frame+1)-@ease1(frame))+0))\x7d") ∧
    (∃ slope, turning.pivotY.slope = .ok slope ∧
      ∃ text, turning.pivotY.text? = .ok text ∧
        IsForwardDifference slope.text fun easings frame ↦ textAt? easings frame text) ∧
    (∃ rotation dy dx, turning.rotation.text? = .ok rotation ∧
      turning.orientedRotation = .ok (Scalar.binding (rotation ++
        " + 180 / Math.PI * Math.atan2(" ++ dy ++ ", " ++ dx ++ ")")) ∧
      IsForwardDifference dy (turning.positionY.differenceAt? turning.pivotY) ∧
      IsForwardDifference dx (turning.positionX.differenceAt? turning.pivotX)) ∧
    overlong.pivotX.text? = .error .badValue ∧
    overlong.canOrient = false ∧ overlong.orientedRotation = .error .badValue := by
  have horient : turning.canOrient = true := by decide +kernel
  have hrefused : overlong.canOrient = false := by decide +kernel
  have hwritable : overlong.pivotX.isWritable = false := by decide +kernel
  obtain ⟨hslope, hfollows⟩ := orientedRotation_follows
  obtain ⟨slope, hpivot, -, hread⟩ := hslope _ isLinear_turning.pivotY
  exact ⟨isLinear_turning, horient, by decide +kernel, ⟨slope, hpivot, hread⟩,
    (hfollows turning isLinear_turning).1 horient, Scalar.text?_eq_error hwritable, hrefused,
    (hfollows overlong isLinear_overlong).2 hrefused⟩

/-- Not every linear transform can be oriented. -/
theorem orientedRotation_overlong :
    overlong.IsLinear ∧ overlong.orientedRotation = .error .badValue :=
  ⟨isLinear_overlong, by decide +kernel⟩

end Transform

end Motion
