import Motion.Easing.Shape
import Motion.Proofs.Easing.Compile

/-!
Shapes compile to outlines whose terms fit together. The check of the keyframes gives all curves of a
shape as many vertices as the first one has, and the terms of a curve have equally many points of two
coordinates. So every point that the compilation asks for is there, and the outline has one of two
coordinates for each vertex in each term (`compileShape_ends`). All coordinates come from binary64
numbers; so none of them is an integer, whose length could matter.
-/

set_option autoImplicit false
set_option relaxedAutoImplicit false

namespace Motion

/-- Whether a scalar can be a coordinate: no integer, and a number unless it may move. -/
def Scalar.IsCoordinate (moving : Bool) : Scalar → Prop
  | literal (.float _) => True
  | literal (.int _) => False
  | expr .. => moving = true

/-- Whether there are so many points, each of two coordinates. -/
def ArePoints (moving : Bool) (count : ℕ) (points : List (List Scalar)) : Prop :=
  points.length = count ∧
    ∀ point ∈ points, ∃ x y : Scalar, point = [x, y] ∧ x.IsCoordinate moving ∧ y.IsCoordinate moving

/-- Whether the terms of an outline fit together. -/
structure Outline.IsAligned (outline : Outline) (moving : Bool) (count : ℕ) : Prop where
  inward : ArePoints moving count outline.inward
  outward : ArePoints moving count outline.outward
  positions : ArePoints moving count outline.positions

/-- The curve that a shape shows first. -/
def Animated.firstCurve? [Validator] (shape : Animated) : Option Curve :=
  if shape.isAnimated then
    shape.shapeKeyframes.toOption.bind fun keyframes ↦
      (keyframes.head?.bind (·.start)).bind List.head?
  else shape.curve.toOption

/-- Whether a fault tells that a shape does not validate or does not compile. -/
inductive Fault.IsOfShape (path : String) : Fault → Prop where
  | invalid (issues : List Issue) : IsOfShape path (.invalid issues)
  | shape (cause : ShapeFault) : IsOfShape path (.shape cause)
  | easing (cause : EasingFault) (keyframe : Option ℕ) :
    IsOfShape path (.easing cause path keyframe)

/-- Whether all curves of keyframes have so many vertices. -/
def HaveVertices (count : ℕ) (keyframes : List ShapeKeyframe) : Prop :=
  ∀ keyframe ∈ keyframes, ∀ curve ∈ Animated.curvesOf keyframe, curve.vertices.length = count

section Keyframes

variable {path : String} {count : ℕ} {keyframes : List ShapeKeyframe}

theorem faultsOnly_validated {α : Type} (checked : Checked α) :
    FaultsOnly (Fault.IsOfShape path) (validated checked) := by
  intro fault hfault
  cases checked with
  | ok a => cases hfault
  | error issues =>
    cases hfault
    exact .invalid issues

theorem validated_eq_ok {α : Type} {checked : Checked α} {a : α} (h : validated checked = .ok a) :
    checked = .ok a := by
  cases checked with
  | ok found =>
    cases h
    rfl
  | error issues => cases h

/-- The keyframes of a shape all have as many vertices as the curve that it shows first. -/
theorem shapeKeyframes_eq_ok [Validator] {shape : Animated} (hanimated : shape.isAnimated = true)
    (h : shape.shapeKeyframes = .ok keyframes) :
    ∃ curve more, keyframes.head?.bind (·.start) = some (curve :: more) ∧
      shape.firstCurve? = some curve ∧ HaveVertices curve.vertices.length keyframes := by
  have hkeyframes := h
  obtain ⟨checked, -, h⟩ := Except.bind_eq_ok h
  split at h
  · rename_i curve more hstart
    split_ifs at h with hall
    cases h
    refine ⟨curve, more, hstart, ?_, fun keyframe hkeyframe other hother ↦ ?_⟩
    · rw [Animated.firstCurve?, if_pos hanimated, hkeyframes, Except.toOption, Option.bind_some,
        hstart]
      rfl
    · have hsame := List.all_eq_true.mp (List.all_eq_true.mp hall keyframe hkeyframe) other hother
      exact beq_iff_eq.mp hsame
  · cases h

theorem faultsOnly_shapeKeyframes [Validator] (shape : Animated) :
    FaultsOnly (Fault.IsOfShape path) shape.shapeKeyframes := by
  refine faultsOnly_bind (faultsOnly_validated _) fun checked _ ↦ ?_
  intro fault hfault
  split at hfault
  · split_ifs at hfault
    · cases hfault
    · cases hfault
      exact .shape _
  · cases hfault
    exact .shape _

theorem faultsOnly_shapeHandles (n : ℕ) (keyframes : List ShapeKeyframe) :
    FaultsOnly (Fault.IsOfShape path) (shapeHandles path n keyframes) := by
  induction keyframes generalizing n with
  | nil => exact faultsOnly_ok _
  | cons keyframe rest ih =>
    cases rest with
    | nil => exact faultsOnly_ok _
    | cons next rest =>
      rw [shapeHandles]
      split
      · exact faultsOnly_bind (ih (n + 1)) fun more _ ↦ faultsOnly_ok _
      · intro fault hfault
        cases hfault
        exact .easing _ _

/-- The curve that a keyframe shows is one of its own or of the keyframe before. -/
theorem shownCurve_eq_ok {n : ℕ} {previous : Option ShapeKeyframe} {keyframe : ShapeKeyframe}
    {curve : Curve} (h : shownCurve path n previous keyframe = .ok curve) :
    curve ∈ Animated.curvesOf keyframe ∨ ∃ other ∈ previous, curve ∈ Animated.curvesOf other := by
  unfold shownCurve at h
  split at h
  · rename_i hstart
    cases h
    exact Or.inl (by simp [Animated.curvesOf, hstart])
  · rename_i hfinish _
    cases h
    obtain ⟨other, hother, hfinish⟩ := Option.bind_eq_some_iff.mp hfinish
    exact Or.inr ⟨other, hother, by simp [Animated.curvesOf, hfinish]⟩
  · cases h

theorem faultsOnly_shownCurve (n : ℕ) (previous : Option ShapeKeyframe) (keyframe : ShapeKeyframe) :
    FaultsOnly (Fault.IsOfShape path) (shownCurve path n previous keyframe) := by
  intro fault hfault
  unfold shownCurve at hfault
  split at hfault
  · cases hfault
  · cases hfault
  · cases hfault
    exact .easing _ _

/-- Every keyframe has the vertex, so that its coordinate is found. -/
theorem faultsOnly_coordinates {vertex : ℕ} (hvertex : vertex < count) (term : Term) (axis : Axis)
    (n : ℕ) (previous : Option ShapeKeyframe) (h : HaveVertices count (previous.toList ++ keyframes)) :
    FaultsOnly (Fault.IsOfShape path) (coordinates path term vertex axis n previous keyframes) := by
  induction keyframes generalizing n previous with
  | nil => exact faultsOnly_ok _
  | cons keyframe rest ih =>
    rw [coordinates]
    refine faultsOnly_bind (faultsOnly_shownCurve n previous keyframe) fun curve hcurve ↦ ?_
    have hlength : curve.vertices.length = count := by
      rcases shownCurve_eq_ok hcurve with hmem | ⟨other, hother, hmem⟩
      · exact h keyframe (by simp) curve hmem
      · exact h other (by simp [Option.mem_def.mp hother]) curve hmem
    rw [List.getElem?_eq_getElem (hlength.symm ▸ hvertex)]
    refine faultsOnly_bind (ih (n + 1) (some keyframe) fun other hother ↦ h other ?_) fun more _ ↦
      faultsOnly_ok _
    exact List.mem_append_right _ hother

theorem length_coordinates {vertex : ℕ} {term : Term} {axis : Axis} {n : ℕ}
    {previous : Option ShapeKeyframe} {values : List Binary64}
    (h : coordinates path term vertex axis n previous keyframes = .ok values) :
    values.length = keyframes.length := by
  induction keyframes generalizing n previous values with
  | nil =>
    cases h
    rfl
  | cons keyframe rest ih =>
    rw [coordinates] at h
    obtain ⟨curve, -, h⟩ := Except.bind_eq_ok h
    split at h
    · cases h
    · obtain ⟨more, hmore, h⟩ := Except.bind_eq_ok h
      cases h
      exact congrArg (· + 1) (ih hmore)

theorem faultsOnly_shapeCourse (times : List Binary64) (handles : List Handles)
    {values : List Binary64} (h : values ≠ []) :
    FaultsOnly (Fault.IsOfShape path) (shapeCourse times handles values) := by
  obtain ⟨first, rest, rfl⟩ := List.exists_cons_of_ne_nil h
  rw [shapeCourse]
  split_ifs
  · exact faultsOnly_ok _
  · exact faultsOnly_ok _

theorem ends_register (course : Course) (q : Fault → Prop) :
    Compile.Ends q (Scalar.IsCoordinate true) course.register := by
  intro table
  rw [Course.run_register]
  cases course with
  | constant value => trivial
  | moving program => rfl

/-- A coordinate of a vertex that every keyframe has is compiled. -/
theorem compileCoordinate_ends (hne : keyframes ≠ []) (h : HaveVertices count keyframes)
    (handles : List Handles) (term : Term) {vertex : ℕ} (hvertex : vertex < count) (axis : Axis) :
    Compile.Ends (Fault.IsOfShape path) (Scalar.IsCoordinate true)
      (compileCoordinate keyframes handles path term vertex axis) := by
  have hcoordinates : FaultsOnly (Fault.IsOfShape path)
      (coordinates path term vertex axis 0 none keyframes) :=
    faultsOnly_coordinates hvertex term axis 0 none h
  refine (Compile.ends_lift hcoordinates fun values hvalues ↦ length_coordinates hvalues).bind
    fun values hlength ↦ ?_
  have hvalues : values ≠ [] := by
    rw [← List.length_pos_iff, hlength, List.length_pos_iff]
    exact hne
  exact (Compile.ends_lift (faultsOnly_shapeCourse _ _ hvalues) fun _ _ ↦ trivial).bind
    fun course _ ↦ ends_register course _

/-- A term is compiled to as many points as the curves have vertices. -/
theorem compileTerm_ends (hne : keyframes ≠ []) (h : HaveVertices count keyframes) (term : Term) :
    Compile.Ends (Fault.IsOfShape path) (ArePoints true count)
      (compileTerm keyframes term count path) := by
  have hpoint (handles : List Handles) (vertex : ℕ) (hvertex : vertex ∈ List.range count) :
      Compile.Ends (Fault.IsOfShape path)
        (fun point ↦ ∃ x y : Scalar, point = [x, y] ∧ x.IsCoordinate true ∧ y.IsCoordinate true)
        (do
          let x ← compileCoordinate keyframes handles path term vertex .x
          let y ← compileCoordinate keyframes handles path term vertex .y
          return [x, y]) := by
    have hless := List.mem_range.mp hvertex
    refine (compileCoordinate_ends hne h handles term hless .x).bind fun x hx ↦
      (compileCoordinate_ends hne h handles term hless .y).bind fun y hy ↦ Compile.ends_pure ?_
    exact ⟨x, y, rfl, hx, hy⟩
  refine (Compile.ends_lift (faultsOnly_shapeHandles 0 keyframes) fun _ _ ↦ trivial).bind
    fun handles _ ↦ (Compile.ends_mapM (hpoint handles)).imp fun points hpoints ↦ ?_
  rwa [List.length_range] at hpoints

theorem curve_outline (curve : Curve) :
    curve.outline.IsAligned false curve.vertices.length := by
  have hpoints (point : Vertex → Point) :
      ArePoints false curve.vertices.length (curve.vertices.map fun v ↦ (point v).scalars) := by
    refine ⟨List.length_map _, fun scalars hscalars ↦ ?_⟩
    obtain ⟨vertex, -, rfl⟩ := List.mem_map.mp hscalars
    exact ⟨_, _, rfl, trivial, trivial⟩
  exact ⟨hpoints _, hpoints _, hpoints _⟩

/-- A shape that validates is compiled to an outline with as many vertices as the curve that it shows
first, or its keyframes do not fit together. -/
theorem compileShape_ends [Validator] (shape : Animated) (path : String) :
    Compile.Ends (Fault.IsOfShape path)
      (fun outline ↦ ∃ curve, shape.firstCurve? = some curve ∧ outline.closed = curve.closed ∧
        outline.IsAligned shape.isAnimated curve.vertices.length) (compileShape shape path) := by
  rw [compileShape]
  by_cases hanimated : shape.isAnimated = true
  · rw [if_pos hanimated]
    refine (Compile.ends_lift (faultsOnly_shapeKeyframes shape)
      fun keyframes hkeyframes ↦ shapeKeyframes_eq_ok hanimated hkeyframes).bind ?_
    rintro keyframes ⟨curve, more, hstart, hfirst, hvertices⟩
    have hne : keyframes ≠ [] := by
      rintro rfl
      cases hstart
    have hterm (term : Term) : Compile.Ends (Fault.IsOfShape path)
        (ArePoints true curve.vertices.length)
        (compileTerm keyframes term curve.vertices.length path) :=
      compileTerm_ends hne hvertices term
    have hfirstCurve : Compile.Ends (Fault.IsOfShape path) (· = curve)
        (Compile.lift (.ok curve)) := Compile.ends_pure rfl
    rw [hstart]
    refine hfirstCurve.bind ?_
    rintro _ rfl
    refine (hterm .inward).bind fun inward hinward ↦ (hterm .outward).bind fun outward houtward ↦
      (hterm .position).bind fun positions hpositions ↦ Compile.ends_pure ?_
    exact ⟨_, hfirst, rfl, hanimated ▸ ⟨hinward, houtward, hpositions⟩⟩
  · rw [if_neg hanimated]
    have hcurve : ∀ curve, shape.curve = .ok curve → shape.firstCurve? = some curve := by
      intro curve hcurve
      rw [Animated.firstCurve?, if_neg hanimated, hcurve]
      rfl
    refine (Compile.ends_lift (faultsOnly_validated _) hcurve).bind fun curve hcurve ↦
      Compile.ends_pure ⟨curve, hcurve, rfl, ?_⟩
    rw [eq_false_of_ne_true hanimated]
    exact curve_outline curve

end Keyframes

end Motion
