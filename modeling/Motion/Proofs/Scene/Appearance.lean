import Motion.Proofs.Scene.Amount
import Mathlib.Analysis.Normed.Affine.AddTorsor

/-!
What groups do to the picture of what is below them. A group shifts the plane and, about its pivot,
turns and scales it; and it makes the picture more transparent. Nothing is assumed of turning and
scaling but that it is linear and does nothing for the neutral values. One group can then do the
work of two where the outer one only shifts, or where the inner one only shifts and the pivot of the
outer one is moved against the shift.
-/

set_option autoImplicit false
set_option relaxedAutoImplicit false

namespace Motion

instance : HasFamily Property where
  family? property := some property.family

/-- What each transform property of a group amounts to. -/
abbrev Pose := Property → ℚ

/-- The plane of a picture. -/
abbrev Plane := ℝ × ℝ

/-- How a rotation and two scales act about the origin. -/
structure Turning where
  map : ℚ → ℚ → ℚ → Plane →ₗ[ℝ] Plane
  map_neutral : map 0 1 1 = LinearMap.id

/-- An affine map of the plane with an opacity. -/
abbrev Appearance := (Plane →ᵃ[ℝ] Plane) × ℚ

/-- The shift of the plane by a vector. -/
def shift (v : Plane) : Plane →ᵃ[ℝ] Plane :=
  AffineMap.id ℝ Plane + AffineMap.const ℝ Plane v

theorem shift_zero : shift 0 = 1 := by
  ext1 p
  exact add_zero p

theorem shift_mul_shift (v w : Plane) : shift v * shift w = shift (v + w) := by
  ext1 p
  show p + w + v = p + (v + w)
  rw [add_assoc, add_comm w v]

namespace Pose

variable (turning : Turning) (t : Pose)

def translation : Plane :=
  (t .translateX, t .translateY)

def pivot : Plane :=
  (t .pivotX, t .pivotY)

/-- The linear map for the rotation and the scales. -/
def turn : Plane →ᵃ[ℝ] Plane :=
  (turning.map (t .rotation) (t .scaleX) (t .scaleY)).toAffineMap

/-- The affine map of a group. -/
def placement : Plane →ᵃ[ℝ] Plane :=
  shift t.translation * shift t.pivot * t.turn turning * shift (-t.pivot)

def appearance : Appearance :=
  (t.placement turning, t .opacity)

/-- Whether nothing turns or scales. -/
def IsStill : Prop :=
  ∀ property : Property, property.family = .rotation ∨ property.family = .scale →
    t property = neutral property

/-- Whether nothing acts about a pivot, and there is none. -/
def IsShift : Prop :=
  ∀ property : Property, property.family.isPivotal = true → t property = neutral property

variable {turning t}

theorem IsStill.turn (h : t.IsStill) : t.turn turning = 1 := by
  have hrotation : t .rotation = 0 := h .rotation (Or.inl rfl)
  have hscaleX : t .scaleX = 1 := h .scaleX (Or.inr rfl)
  have hscaleY : t .scaleY = 1 := h .scaleY (Or.inr rfl)
  rw [Pose.turn, hrotation, hscaleX, hscaleY, turning.map_neutral]
  rfl

/-- Where nothing turns or scales, only the shift is left. -/
theorem IsStill.placement (h : t.IsStill) : t.placement turning = shift t.translation := by
  rw [Pose.placement, h.turn, mul_one, mul_assoc, shift_mul_shift, add_neg_cancel, shift_zero,
    mul_one]

theorem IsShift.isStill (h : t.IsShift) : t.IsStill := by
  intro property hfamily
  apply h
  rcases hfamily with hfamily | hfamily <;> rw [hfamily] <;> rfl

theorem IsShift.pivot (h : t.IsShift) : t.pivot = 0 := by
  have hx : t .pivotX = 0 := h .pivotX rfl
  have hy : t .pivotY = 0 := h .pivotY rfl
  rw [Pose.pivot, hx, hy, Rat.cast_zero]
  rfl

/-- A pivot about which nothing turns or scales does not show. -/
theorem IsStill.appearance_congr (h : t.IsStill) {other : Pose}
    (hother : ∀ property : Property, property.family ≠ .pivot → other property = t property) :
    other.appearance turning = t.appearance turning := by
  have hstill : other.IsStill := by
    intro property hfamily
    have hne : property.family ≠ .pivot := by
      rcases hfamily with hfamily | hfamily <;> rw [hfamily] <;> decide
    rw [hother property hne, h property hfamily]
  rw [appearance, appearance, hstill.placement, h.placement, translation, translation,
    hother .translateX (by decide), hother .translateY (by decide), hother .opacity (by decide)]

/-- Where every property is neutral nothing is done at all. -/
theorem appearance_of_neutral (h : ∀ property, t property = neutral property) :
    t.appearance turning = 1 := by
  have hstill : t.IsStill := fun property _ ↦ h property
  have hzero : t.translation = 0 := by
    rw [translation, h .translateX, h .translateY]
    refine Prod.ext ?_ ?_
    · exact Rat.cast_zero
    · exact Rat.cast_zero
  refine Prod.ext ?_ (h .opacity)
  show t.placement turning = 1
  rw [hstill.placement, hzero, shift_zero]

/-- The properties of two groups merged one by one. -/
def merge (outer inner : Pose) : Pose :=
  fun property ↦ (mergeOperator property).apply (outer property) (inner property)

/-- The properties of a group with its pivot moved against the shift of a group below. -/
def moved (outer inner : Pose) : Pose
  | .pivotX => outer .pivotX - inner .translateX
  | .pivotY => outer .pivotY - inner .translateY
  | property => outer property

theorem translation_merge (outer inner : Pose) :
    (merge outer inner).translation = outer.translation + inner.translation := by
  refine Prod.ext ?_ ?_
  · exact Rat.cast_add (outer .translateX) (inner .translateX)
  · exact Rat.cast_add (outer .translateY) (inner .translateY)

theorem pivot_merge (outer inner : Pose) :
    (merge outer inner).pivot = outer.pivot + inner.pivot := by
  refine Prod.ext ?_ ?_
  · exact Rat.cast_add (outer .pivotX) (inner .pivotX)
  · exact Rat.cast_add (outer .pivotY) (inner .pivotY)

theorem pivot_moved (outer inner : Pose) :
    (moved outer inner).pivot = outer.pivot - inner.translation := by
  refine Prod.ext ?_ ?_
  · exact Rat.cast_sub (outer .pivotX) (inner .translateX)
  · exact Rat.cast_sub (outer .pivotY) (inner .translateY)

/-- Merging with neutral turning and scaling keeps the turning and scaling. -/
theorem IsStill.turn_merge_left (h : t.IsStill) (other : Pose) :
    (merge t other).turn turning = other.turn turning := by
  have hmerge (property : Property)
      (hfamily : property.family = .rotation ∨ property.family = .scale) :
      merge t other property = other property := by
    rw [merge, h property hfamily, apply_neutral_left]
  rw [Pose.turn, Pose.turn, hmerge .rotation (Or.inl rfl), hmerge .scaleX (Or.inr rfl),
    hmerge .scaleY (Or.inr rfl)]

theorem merge_comm (first second : Pose) : merge first second = merge second first :=
  funext fun property ↦ apply_comm property _ _

/-- A group that only shifts merges with the one below. -/
theorem appearance_merge_of_isShift {outer : Pose} (h : outer.IsShift) (inner : Pose) :
    (merge outer inner).appearance turning = outer.appearance turning * inner.appearance turning := by
  refine Prod.ext ?_ rfl
  show (merge outer inner).placement turning = outer.placement turning * inner.placement turning
  rw [h.isStill.placement, placement, placement, translation_merge, pivot_merge, h.pivot, zero_add,
    h.isStill.turn_merge_left, ← shift_mul_shift]
  simp only [mul_assoc]

/-- A group merges with one below that only shifts, if its pivot is moved against the shift. -/
theorem appearance_merge_moved {inner : Pose} (h : inner.IsShift) (outer : Pose) :
    (merge (moved outer inner) inner).appearance turning =
      outer.appearance turning * inner.appearance turning := by
  refine Prod.ext ?_ rfl
  show (merge (moved outer inner) inner).placement turning =
    outer.placement turning * inner.placement turning
  have hturn : (merge (moved outer inner) inner).turn turning = outer.turn turning := by
    rw [merge_comm, h.isStill.turn_merge_left]
    rfl
  have htranslation : (moved outer inner).translation = outer.translation := rfl
  rw [h.isStill.placement, placement, placement, translation_merge, pivot_merge, pivot_moved,
    h.pivot, add_zero, hturn, htranslation, shift_mul_shift, shift_mul_shift, mul_assoc _ (shift _),
    shift_mul_shift]
  congr 2
  · congr 1
    abel
  · abel

end Pose

end Motion
