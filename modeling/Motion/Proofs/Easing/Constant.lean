import Motion.Proofs.Easing.Spatial
import Motion.Proofs.Number.Neutral
import Mathlib.Data.EReal.Operations
import Mathlib.Tactic.Positivity
import Mathlib.Tactic.Linarith

/-!
Which components are constant. A component is compiled to a number if all keyframes start with it,
and no tangent is looked at. Between two keyframes the component follows a cubic curve, which is
constant if it ends as it starts and no tangent leads away (`Controls.curve_eq_start`); where all its
numbers are finite, it is constant only then (`Controls.isLevel_of_constant`). So a number may stand
for a curve that bows out and comes back.

The curve is taken over the extended reals, since the numbers of a keyframe may be infinite.
-/

set_option autoImplicit false
set_option relaxedAutoImplicit false

namespace Motion

/-- The value of a number among the extended reals. -/
noncomputable def Binary64.toEReal? : Binary64 → Option EReal
  | .nan => none
  | .infinite negative => some (if negative then ⊥ else ⊤)
  | x => some ((x.toRat : ℝ) : EReal)

/-- One component of a cubic curve: where it starts and ends, and how its tangents lead away from
either. -/
structure Controls where
  start : EReal
  outward : EReal
  inward : EReal
  finish : EReal

namespace Controls

/-- The curve at a parameter from 0 to 1. -/
noncomputable def curve (controls : Controls) (u : ℝ) : EReal :=
  ((1 - u) ^ 3 : ℝ) * controls.start
    + (3 * (1 - u) ^ 2 * u : ℝ) * (controls.start + controls.outward)
    + (3 * (1 - u) * u ^ 2 : ℝ) * (controls.finish + controls.inward)
    + (u ^ 3 : ℝ) * controls.finish

/-- Whether a curve ends as it starts and no tangent leads away. -/
structure IsLevel (controls : Controls) : Prop where
  outward : controls.outward = 0
  inward : controls.inward = 0
  finish : controls.finish = controls.start

/-- Whether all numbers of a curve are finite. -/
def IsFinite (controls : Controls) : Prop :=
  ∃ start outward inward finish : ℝ, controls = ⟨start, outward, inward, finish⟩

variable {controls : Controls}

theorem curve_eq_start (h : controls.IsLevel) {u : ℝ} (hu : u ∈ Set.Icc 0 1) :
    controls.curve u = controls.start := by
  obtain ⟨hlow, hhigh⟩ := hu
  have hrest : 0 ≤ 1 - u := sub_nonneg.mpr hhigh
  have hsum : (1 - u) ^ 3 + 3 * (1 - u) ^ 2 * u + 3 * (1 - u) * u ^ 2 + u ^ 3 = 1 := by ring
  -- Products distribute over a sum of weights because no weight is negative.
  rw [curve, h.outward, h.inward, h.finish, add_zero,
    ← EReal.right_distrib_of_nonneg (EReal.coe_nonneg.mpr (by positivity))
      (EReal.coe_nonneg.mpr (by positivity)), ← EReal.coe_add,
    ← EReal.right_distrib_of_nonneg (EReal.coe_nonneg.mpr (by positivity))
      (EReal.coe_nonneg.mpr (by positivity)), ← EReal.coe_add,
    ← EReal.right_distrib_of_nonneg (EReal.coe_nonneg.mpr (by positivity))
      (EReal.coe_nonneg.mpr (by positivity)), ← EReal.coe_add, hsum, EReal.coe_one, one_mul]

theorem isLevel_of_constant (hfinite : controls.IsFinite)
    (h : ∀ u ∈ Set.Icc (0 : ℝ) 1, controls.curve u = controls.start) : controls.IsLevel := by
  obtain ⟨start, outward, inward, finish, rfl⟩ := hfinite
  have hreal (u : ℝ) (hu : u ∈ Set.Icc (0 : ℝ) 1) :
      (1 - u) ^ 3 * start + 3 * (1 - u) ^ 2 * u * (start + outward)
        + 3 * (1 - u) * u ^ 2 * (finish + inward) + u ^ 3 * finish = start := by
    have hcurve := h u hu
    dsimp only [curve] at hcurve
    exact_mod_cast hcurve
  -- At the end and at both thirds the curve is a linear combination of its four numbers.
  have hone := hreal 1 ⟨zero_le_one, le_refl 1⟩
  have hthird := hreal (1 / 3) ⟨by norm_num, by norm_num⟩
  have htwoThirds := hreal (2 / 3) ⟨by norm_num, by norm_num⟩
  have hfinish : finish = start := by linarith
  have houtward : outward = 0 := by linarith
  have hinward : inward = 0 := by linarith
  rw [hfinish, houtward, hinward]
  exact ⟨rfl, rfl, rfl⟩

end Controls

theorem Binary64.toEReal?_of_toRat {x : Binary64} (hfinite : x.isFinite = true) {q : ℚ}
    (hvalue : x.toRat = q) : x.toEReal? = some ((q : ℝ) : EReal) := by
  cases x with
  | finite negative exponent fraction =>
    rw [← hvalue]
    rfl
  | _ => cases hfinite

/-- Numbers of the same value have one value among the extended reals. -/
theorem Binary64.toEReal?_of_same {x y : Binary64} (h : x.same y = true) :
    ∃ value, x.toEReal? = some value ∧ y.toEReal? = some value := by
  rw [Binary64.same] at h
  cases x with
  | finite negative exponent fraction =>
    cases y with
    | finite negative' exponent' fraction' =>
      rw [Number.same_float_iff rfl rfl] at h
      exact ⟨_, rfl, toEReal?_of_toRat rfl h.symm⟩
    | infinite negative' => cases negative' <;> cases h
    | nan => cases h
  | infinite negative =>
    cases y with
    | finite negative' exponent' fraction' => cases negative <;> cases h
    | infinite negative' =>
      have hsign : negative = negative' := by
        revert h
        cases negative <;> cases negative' <;> decide
      rw [hsign]
      exact ⟨_, rfl, rfl⟩
    | nan => cases h
  | nan => cases y <;> cases h

/-- How a tangent leads away in one component; none leads nowhere. -/
noncomputable def tangentAt? (index : ℤ) (tangent : Option (List Binary64)) : Option EReal :=
  tangent.elim (some 0) fun vector ↦ (component? index vector).bind Binary64.toEReal?

/-- The curve of a component from the keyframe with number `n` to the next one. -/
noncomputable def controlsAt? (index : ℤ) (keyframes : List Keyframe) (n : ℕ) :
    Option Controls := do
  let keyframe ← keyframes[n]?
  let next ← keyframes[n + 1]?
  let start ← (keyframe.start.bind (component? index)).bind Binary64.toEReal?
  let finish ← ((keyframe.finish.or next.start).bind (component? index)).bind Binary64.toEReal?
  let outward ← tangentAt? index keyframe.spatialOut
  let inward ← tangentAt? index keyframe.spatialIn
  return ⟨start, outward, inward, finish⟩

section Keyframes

variable {index : ℤ} {value : Binary64} {keyframes : List Keyframe}

theorem allStartWith_eq_true (h : allStartWith index value keyframes = .ok true) :
    ∀ keyframe ∈ keyframes, ∃ start x, keyframe.start = some start ∧
      component? index start = some x ∧ x.same value = true := by
  induction keyframes with
  | nil => exact List.forall_mem_nil _
  | cons keyframe rest ih =>
    rw [allStartWith] at h
    split at h
    · cases h
    · rename_i start hstart
      obtain ⟨x, hpick, h⟩ := Except.bind_eq_ok h
      split_ifs at h with hsame
      · exact List.forall_mem_cons.mpr ⟨⟨start, x, hstart, pick_eq_ok hpick, hsame⟩, ih h⟩
      · cases h

/-- A component is constant if all keyframes start with it. -/
theorem courseOf_eq_constant {precision : ℕ} {count : ℤ} {reversed : Bool} {path : String}
    (h : courseOf precision keyframes count index reversed path = .ok (.constant value)) :
    keyframes ≠ [] ∧ ∀ keyframe ∈ keyframes, ∃ start x, keyframe.start = some start ∧
      component? index start = some x ∧ x.same value = true := by
  cases keyframes with
  | nil => cases h
  | cons first rest =>
    rw [courseOf] at h
    split at h
    · cases h
    · cases h
    · obtain ⟨found, -, h⟩ := Except.bind_eq_ok h
      obtain ⟨constant, hstart, h⟩ := Except.bind_eq_ok h
      cases constant with
      | true =>
        cases h
        exact ⟨List.cons_ne_nil _ _, allStartWith_eq_true hstart⟩
      | false =>
        rw [if_neg Bool.false_ne_true] at h
        split_ifs at h
        all_goals
          obtain ⟨segments, -, h⟩ := Except.bind_eq_ok h
          cases h

theorem component?_of_lt {index : ℕ} {vector : List Binary64} (h : index < vector.length) :
    component? index vector = some vector[index] := by
  change vector[index]?.or vector.head? = some vector[index]
  rw [List.getElem?_eq_getElem h, Option.some_or]

theorem Binary64.isSome_toEReal? {x : Binary64} (h : x.isNaN = false) :
    x.toEReal?.isSome = true := by
  cases x with
  | nan => cases h
  | _ => rfl

/-- A vector that is long enough has the component, which has a value unless it is NaN. -/
theorem isSome_component? {dof index : ℕ} (hindex : index < dof) {vector : List Binary64}
    (hlength : vector.length = dof) (hnumber : ∀ x ∈ vector, x.isNaN = false) :
    ((component? index vector).bind Binary64.toEReal?).isSome = true := by
  rw [component?_of_lt (hlength ▸ hindex), Option.bind_some]
  exact Binary64.isSome_toEReal? (hnumber _ (List.getElem_mem _))

theorem isSome_tangentAt? {dof index : ℕ} (hindex : index < dof)
    {tangent : Option (List Binary64)} (hlength : ∀ vector ∈ tangent, vector.length = dof)
    (hnumber : ∀ vector ∈ tangent, ∀ x ∈ vector, x.isNaN = false) :
    (tangentAt? index tangent).isSome = true := by
  cases tangent with
  | none => rfl
  | some vector => exact isSome_component? hindex (hlength vector rfl) (hnumber vector rfl)

/-- The component with which a keyframe starts on its own. -/
noncomputable def ownStart? (index : ℤ) (keyframe : Keyframe) : Option EReal :=
  (keyframe.start.bind (component? index)).bind Binary64.toEReal?

section Span

variable {n : ℕ} {keyframe next : Keyframe} {number : EReal} (hn : keyframes[n]? = some keyframe)
  (hnext : keyframes[n + 1]? = some next) (hstart : ownStart? index keyframe = some number)
  (hnextStart : ownStart? index next = some number)

include hn hnext hstart hnextStart

/-- The curve between two keyframes that start with a number. -/
theorem controlsAt?_eq_some {controls : Controls}
    (h : controlsAt? index keyframes n = some controls) :
    controls.start = number ∧ (keyframe.finish = none → controls.finish = number) := by
  rw [controlsAt?, hn, hnext] at h
  dsimp only [Option.bind_eq_bind, Option.bind_some] at h
  rw [← ownStart?, hstart, Option.bind_some] at h
  obtain ⟨finish, hfinish, h⟩ := Option.bind_eq_some_iff.mp h
  obtain ⟨outward, -, h⟩ := Option.bind_eq_some_iff.mp h
  obtain ⟨inward, -, h⟩ := Option.bind_eq_some_iff.mp h
  cases h
  refine ⟨rfl, fun hnone ↦ ?_⟩
  rw [hnone, Option.none_or, ← ownStart?, hnextStart] at hfinish
  exact (Option.some.inj hfinish).symm

/-- The curve is there if the components are and none of them is NaN. -/
theorem isSome_controlsAt? {dof m : ℕ} (hindex : index = m) (hm : m < dof)
    (hlength : ∀ vector ∈ keyframe.vectors, vector.length = dof)
    (hnumber : ∀ vector ∈ keyframe.vectors, ∀ x ∈ vector, x.isNaN = false) :
    (controlsAt? index keyframes n).isSome = true := by
  subst hindex
  have htangent (tangent : Option (List Binary64))
      (hmem : ∀ vector ∈ tangent, vector ∈ keyframe.vectors) :
      (tangentAt? m tangent).isSome = true :=
    isSome_tangentAt? hm (fun vector hvector ↦ hlength vector (hmem vector hvector))
      fun vector hvector ↦ hnumber vector (hmem vector hvector)
  have hfinish : (((keyframe.finish.or next.start).bind (component? m)).bind
      Binary64.toEReal?).isSome = true := by
    cases hend : keyframe.finish with
    | none =>
      rw [Option.none_or, ← ownStart?, hnextStart]
      rfl
    | some vector =>
      have hvector : vector ∈ keyframe.vectors := Keyframe.mem_vectors (by simp [hend])
      exact isSome_component? hm (hlength vector hvector) (hnumber vector hvector)
  obtain ⟨finish, hfinish⟩ := Option.isSome_iff_exists.mp hfinish
  obtain ⟨outward, houtward⟩ := Option.isSome_iff_exists.mp (htangent keyframe.spatialOut
    fun vector hvector ↦ Keyframe.mem_vectors (by simp [Option.mem_def.mp hvector]))
  obtain ⟨inward, hinward⟩ := Option.isSome_iff_exists.mp (htangent keyframe.spatialIn
    fun vector hvector ↦ Keyframe.mem_vectors (by simp [Option.mem_def.mp hvector]))
  rw [controlsAt?, hn, hnext]
  dsimp only [Option.bind_eq_bind, Option.bind_some]
  rw [← ownStart?, hstart, hfinish, houtward, hinward]
  rfl

end Span

/-- A component that is compiled to a number registers no program. All keyframes have a start of their
own, and this is the number; so between two keyframes the curve starts with it, and also ends with it
where the former keyframe has no end of its own. The curve is constant if it is level, and if all its
numbers are finite only then. -/
theorem compileComponent_constant {dof index : ℕ} {reversed : Bool} {path : String} {x : Scalar}
    {table next : EasingTable}
    (hlength : ∀ keyframe ∈ keyframes, ∀ vector ∈ keyframe.vectors, vector.length = dof)
    (hindex : index < dof)
    (hrun : (compileComponent keyframes dof index reversed path).run.run table = (.ok x, next))
    (hx : x.isNumber = true) :
    ∃ value number, x = .literal (.float value) ∧ value.toEReal? = some number ∧ next = table ∧
      (∀ keyframe ∈ keyframes, ownStart? index keyframe = some number) ∧
      ∀ n keyframe, keyframes[n]? = some keyframe → n + 1 < keyframes.length →
        ((∀ vector ∈ keyframe.vectors, ∀ y ∈ vector, y.isNaN = false) →
          (controlsAt? index keyframes n).isSome = true) ∧
        ∀ controls, controlsAt? index keyframes n = some controls →
          controls.start = number ∧
          (keyframe.finish = none → controls.finish = number) ∧
          (controls.IsLevel → ∀ u ∈ Set.Icc (0 : ℝ) 1, controls.curve u = number) ∧
          (controls.IsFinite → (∀ u ∈ Set.Icc (0 : ℝ) 1, controls.curve u = number) →
            controls.IsLevel) := by
  rw [run_compileComponent] at hrun
  cases hcourse : courseOf table.precision keyframes dof index reversed path with
  | error fault =>
    rw [hcourse] at hrun
    cases hrun
  | ok course =>
    rw [hcourse] at hrun
    dsimp only at hrun
    rw [Course.run_register] at hrun
    cases course with
    | moving program =>
      cases hrun
      cases hx
    | constant value =>
      cases hrun
      obtain ⟨hne, hstarts⟩ := courseOf_eq_constant hcourse
      have hvalue (keyframe : Keyframe) (hkeyframe : keyframe ∈ keyframes) :
          ownStart? index keyframe = value.toEReal? ∧ value.toEReal?.isSome = true := by
        obtain ⟨start, y, hstart, hcomponent, hsame⟩ := hstarts keyframe hkeyframe
        obtain ⟨number, hy, hnumber⟩ := Binary64.toEReal?_of_same hsame
        rw [ownStart?, hstart, Option.bind_some, hcomponent, Option.bind_some, hy, hnumber]
        exact ⟨rfl, rfl⟩
      obtain ⟨first, hfirst⟩ := List.exists_mem_of_ne_nil keyframes hne
      obtain ⟨number, hnumber⟩ := Option.isSome_iff_exists.mp (hvalue first hfirst).2
      have hown (other : Keyframe) (hother : other ∈ keyframes) :
          ownStart? index other = some number := (hvalue other hother).1.trans hnumber
      refine ⟨value, number, rfl, hnumber, rfl, hown, fun n keyframe hn hnext ↦ ?_⟩
      have hkeyframe := List.mem_of_getElem? hn
      have hstart := hown keyframe hkeyframe
      have hend := hown keyframes[n + 1] (List.getElem_mem hnext)
      have hgetElem := List.getElem?_eq_getElem hnext
      refine ⟨isSome_controlsAt? hn hgetElem hstart hend rfl hindex (hlength keyframe hkeyframe),
        fun controls hcontrols ↦ ?_⟩
      obtain ⟨rfl, hfinish⟩ := controlsAt?_eq_some hn hgetElem hstart hend hcontrols
      exact ⟨rfl, hfinish, fun hlevel u hu ↦ Controls.curve_eq_start hlevel hu,
        Controls.isLevel_of_constant⟩

end Keyframes

/-- Keyframes of a point that moves to the right, with tangents that lead up so far. -/
def bowedKeyframes (up : Binary64) : List Keyframe :=
  let zero : Binary64 := .zero false
  let handle : Tangent := ⟨.one .one, .one .one⟩
  [⟨zero, some [zero, zero], none, some handle, some handle, some [zero, up], some [zero, up]⟩,
    ⟨.one, some [.one, zero], none, none, none, none, none⟩]

/-- A point that moves straight to the right is not moved up in between. -/
theorem compileComponent_constant_straight :
    let keyframes := bowedKeyframes (.zero false)
    let table := EasingTable.empty 3
    (∀ keyframe ∈ keyframes, ∀ vector ∈ keyframe.vectors, vector.length = 2) ∧
    (compileComponent keyframes (2 : ℕ) (1 : ℕ) false "ks.p").run.run table =
      (.ok (.literal (.float (.zero false))), table) ∧
    ∃ value number, Scalar.literal (.float (.zero false)) = .literal (.float value) ∧
      value.toEReal? = some number ∧ table = table ∧
      (∀ keyframe ∈ keyframes, ownStart? (1 : ℕ) keyframe = some number) ∧
      ∀ n keyframe, keyframes[n]? = some keyframe → n + 1 < keyframes.length →
        ((∀ vector ∈ keyframe.vectors, ∀ y ∈ vector, y.isNaN = false) →
          (controlsAt? (1 : ℕ) keyframes n).isSome = true) ∧
        ∀ controls, controlsAt? (1 : ℕ) keyframes n = some controls →
          controls.start = number ∧
          (keyframe.finish = none → controls.finish = number) ∧
          (controls.IsLevel → ∀ u ∈ Set.Icc (0 : ℝ) 1, controls.curve u = number) ∧
          (controls.IsFinite → (∀ u ∈ Set.Icc (0 : ℝ) 1, controls.curve u = number) →
            controls.IsLevel) := by
  intro keyframes table
  have hlength : ∀ keyframe ∈ keyframes, ∀ vector ∈ keyframe.vectors, vector.length = 2 := by
    decide
  have hrun : (compileComponent keyframes (2 : ℕ) (1 : ℕ) false "ks.p").run.run table =
      (.ok (.literal (.float (.zero false))), table) :=
    Compile.run_eq_ok (by decide +kernel) (by decide +kernel)
  exact ⟨hlength, hrun, compileComponent_constant hlength (by decide) hrun rfl⟩

/-- A point that moves in a bow is compiled as if it moved straight. -/
theorem compileComponent_bowed :
    let keyframes := bowedKeyframes .one
    let table := EasingTable.empty 3
    IsSpatial 2 keyframes ∧
    (compileComponent keyframes (2 : ℕ) (1 : ℕ) false "ks.p").run.run table =
      (.ok (.literal (.float (.zero false))), table) ∧
    ∃ controls, controlsAt? (1 : ℕ) keyframes 0 = some controls ∧
      controls.curve (1 / 2) = ((3 / 4 : ℝ) : EReal) ∧
      ¬ ∀ u ∈ Set.Icc (0 : ℝ) 1, some (controls.curve u) = (Binary64.zero false).toEReal? := by
  intro keyframes table
  have hspatial : IsSpatial 2 keyframes := ⟨rfl, by decide, by decide, by decide⟩
  have hrun : (compileComponent keyframes (2 : ℕ) (1 : ℕ) false "ks.p").run.run table =
      (.ok (.literal (.float (.zero false))), table) :=
    Compile.run_eq_ok (by decide +kernel) (by decide +kernel)
  have hzero : (Binary64.zero false).toEReal? = some ((0 : ℝ) : EReal) := by
    rw [Binary64.toEReal?_of_toRat rfl (Binary64.toRat_zero false), Rat.cast_zero]
  have hone : Binary64.one.toEReal? = some ((1 : ℝ) : EReal) := by
    rw [Binary64.toEReal?_of_toRat rfl Binary64.toRat_one, Rat.cast_one]
  have hcontrols : controlsAt? (1 : ℕ) keyframes 0 =
      some ⟨(0 : ℝ), (1 : ℝ), (1 : ℝ), (0 : ℝ)⟩ := by
    have hcomponent (first second : Binary64) :
        component? (1 : ℕ) [first, second] = some second := rfl
    have htangent : tangentAt? (1 : ℕ) (some [.zero false, .one]) = some ((1 : ℝ) : EReal) := by
      rw [tangentAt?, Option.elim_some, hcomponent, Option.bind_some, hone]
    have hfirst : keyframes[0]? = some _ := rfl
    have hsecond : keyframes[0 + 1]? = some _ := rfl
    rw [controlsAt?, hfirst, hsecond]
    dsimp only [Option.bind_eq_bind, Option.bind_some, Option.none_or]
    rw [hcomponent, hcomponent, Option.bind_some, hzero, htangent]
    rfl
  have hcurve : Controls.curve ⟨(0 : ℝ), (1 : ℝ), (1 : ℝ), (0 : ℝ)⟩ (1 / 2) =
      ((3 / 4 : ℝ) : EReal) := by
    have hreal : (1 - 1 / 2 : ℝ) ^ 3 * 0 + 3 * (1 - 1 / 2) ^ 2 * (1 / 2) * (0 + 1)
        + 3 * (1 - 1 / 2) * (1 / 2) ^ 2 * (0 + 1) + (1 / 2) ^ 3 * 0 = 3 / 4 := by norm_num
    dsimp only [Controls.curve]
    exact_mod_cast hreal
  refine ⟨hspatial, hrun, _, hcontrols, hcurve, fun h ↦ ?_⟩
  have hmiddle := h (1 / 2) ⟨by norm_num, by norm_num⟩
  rw [hcurve, hzero] at hmiddle
  have hquarters : (3 / 4 : ℝ) = 0 := EReal.coe_injective (Option.some.inj hmiddle)
  norm_num at hquarters

end Motion
