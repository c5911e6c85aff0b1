import Motion.Path.Trace
import Motion.Proofs.Easing.Shape

/-!
Tracing finds every point it asks for. In an outline whose terms fit together each of the three lists
has the point with a number below the count, also the one after the last, which is the first. Sums of
coordinates are coordinates again, and in an outline that does not move they are numbers, so that the
box can be grown. What one segment adds is one curve (`traceSegment_aligned`), and by induction on the
segments the commands are those of a whole outline (`trace_aligned`).
-/

set_option autoImplicit false
set_option relaxedAutoImplicit false

namespace Motion

/-- Whether a command is a curve. -/
def PathCommand.IsCurveTo (command : PathCommand) : Prop :=
  ∃ x1 y1 x2 y2 x y, command = .curveTo x1 y1 x2 y2 x y

/-- Whether commands draw an outline: nothing where it has no vertices, else a move to the first one
and a curve for each segment, and the closing of a closed one. -/
def DrawOutline (count : ℕ) (closed : Bool) (commands : List PathCommand) : Prop :=
  if count = 0 then commands = []
  else
    ∃ x y curves, commands = .moveTo x y :: curves ++ (if closed then [.close] else []) ∧
      curves.length = (if closed then count else count - 1) ∧
      ∀ curve ∈ curves, curve.IsCurveTo

variable {moving : Bool} {count : ℕ}

theorem Scalar.IsCoordinate.add {x y : Scalar} (hx : x.IsCoordinate moving)
    (hy : y.IsCoordinate moving) : ∃ z, x.add y = .ok z ∧ z.IsCoordinate moving := by
  unfold Scalar.add
  split_ifs
  · exact ⟨y, rfl, hy⟩
  · exact ⟨x, rfl, hx⟩
  · match x, y, hx, hy with
    | .literal (.float a), .literal (.float b), _, _ => exact ⟨_, rfl, trivial⟩
    | .literal (.float a), .expr .., _, hy => exact ⟨_, rfl, hy⟩
    | .expr .., .literal (.float b), hx, _ => exact ⟨_, rfl, hx⟩
    | .expr .., .expr .., hx, _ => exact ⟨_, rfl, hx⟩

/-- The number of a coordinate that does not move. -/
theorem Scalar.IsCoordinate.number {x : Scalar} (h : x.IsCoordinate false) :
    ∃ n, x.number = .ok n := by
  cases x with
  | literal value => exact ⟨value, rfl⟩
  | expr text slope => cases h

/-- Whether both scalars of a point are coordinates. -/
def ScalarPoint.IsCoordinate (moving : Bool) (point : ScalarPoint) : Prop :=
  point.x.IsCoordinate moving ∧ point.y.IsCoordinate moving

/-- A point below the count is there. -/
theorem ArePoints.item {points : List (List Scalar)} (h : ArePoints moving count points) {n : ℕ}
    (hn : n < count) :
    ∃ x y : Scalar, itemAt points n = .ok [x, y] ∧ x.IsCoordinate moving ∧ y.IsCoordinate moving := by
  have hlength : n < points.length := h.1.symm ▸ hn
  obtain ⟨x, y, hpoint, hx, hy⟩ := h.2 points[n] (List.getElem_mem hlength)
  refine ⟨x, y, ?_, hx, hy⟩
  rw [itemAt, List.getElem?_eq_getElem hlength, hpoint]

theorem ScalarPoint.IsCoordinate.plus {vertex : ScalarPoint} (h : vertex.IsCoordinate moving)
    {dx dy : Scalar} (hx : dx.IsCoordinate moving) (hy : dy.IsCoordinate moving) :
    ∃ point, vertex.plus [dx, dy] = .ok point ∧ point.IsCoordinate moving := by
  obtain ⟨x, hsumX, hx⟩ := h.1.add hx
  obtain ⟨y, hsumY, hy⟩ := h.2.add hy
  refine ⟨⟨x, y⟩, ?_, hx, hy⟩
  simp only [ScalarPoint.plus, List.getElem?_cons_zero, List.getElem?_cons_succ, Option.elim_some,
    Except.ok_bind, hsumX, hsumY]
  rfl

theorem ScalarPoint.IsCoordinate.grow {point : ScalarPoint} (h : point.IsCoordinate false)
    (box : Box) : ∃ grown, point.grow box = .ok grown := by
  obtain ⟨x, hx⟩ := h.1.number
  obtain ⟨y, hy⟩ := h.2.number
  rw [ScalarPoint.grow, hx, hy]
  exact ⟨_, rfl⟩

/-- The box can be grown to hold three points, unless the outline moves. -/
theorem grow_three {leaving finish arriving : ScalarPoint} (hleaving : leaving.IsCoordinate moving)
    (hfinish : finish.IsCoordinate moving) (harriving : arriving.IsCoordinate moving)
    {α : Type} (next : Option Box → Except Fault α) (bounds : Option Box) :
    (bounds.isSome = !moving) → ∃ grown : Option Box, grown.isSome = !moving ∧ (match bounds with
      | none => next none
      | some box => do
        let box ← leaving.grow box
        let box ← finish.grow box
        let box ← arriving.grow box
        next (some box)) = next grown := by
  intro hbounds
  cases bounds with
  | none => exact ⟨none, hbounds, rfl⟩
  | some box =>
    cases moving with
    | true => cases hbounds
    | false =>
      obtain ⟨first, hfirst⟩ := hleaving.grow box
      obtain ⟨second, hsecond⟩ := hfinish.grow first
      obtain ⟨third, hthird⟩ := harriving.grow second
      refine ⟨some third, rfl, ?_⟩
      simp only [hfirst, hsecond, hthird, Except.ok_bind]

variable {outline : Outline}

/-- A segment adds one curve. -/
theorem traceSegment_aligned (h : outline.IsAligned moving count) {trace : Trace}
    (hbounds : trace.bounds.isSome = !moving) {j : ℕ} (hj : j < count) :
    ∃ bounds curve, outline.traceSegment trace j = .ok ⟨bounds, trace.commands ++ [curve]⟩ ∧
      bounds.isSome = (!moving) ∧ curve.IsCurveTo := by
  have hnext : (j + 1) % outline.positions.length < count := by
    rw [h.positions.1]
    exact Nat.mod_lt _ (Nat.zero_lt_of_lt hj)
  obtain ⟨sx, sy, hstart, hsx, hsy⟩ := h.positions.item hj
  obtain ⟨ox, oy, houtward, hox, hoy⟩ := h.outward.item hj
  obtain ⟨ex, ey, hend, hex, hey⟩ := h.positions.item hnext
  obtain ⟨ix, iy, hinward, hix, hiy⟩ := h.inward.item hnext
  have hstart' : (⟨sx, sy⟩ : ScalarPoint).IsCoordinate moving := ⟨hsx, hsy⟩
  have hfinish : (⟨ex, ey⟩ : ScalarPoint).IsCoordinate moving := ⟨hex, hey⟩
  obtain ⟨leaving, hleaving, hleaving'⟩ := hstart'.plus hox hoy
  obtain ⟨arriving, harriving, harriving'⟩ := hfinish.plus hix hiy
  obtain ⟨grown, hsome, hgrown⟩ := grow_three hleaving' hfinish harriving'
    (fun bounds ↦ Except.ok (⟨bounds, trace.commands ++ [.curveTo leaving.x.embed leaving.y.embed
      arriving.x.embed arriving.y.embed ex.embed ey.embed]⟩ : Trace)) trace.bounds hbounds
  refine ⟨grown, .curveTo leaving.x.embed leaving.y.embed arriving.x.embed arriving.y.embed ex.embed
    ey.embed, ?_, hsome, _, _, _, _, _, _, rfl⟩
  simp only [Outline.traceSegment, hstart, houtward, hend, hinward, Except.ok_bind,
    ScalarPoint.ofVertex, hleaving, harriving]
  exact hgrown

/-- Segments add one curve each. -/
theorem traceSegments_aligned (h : outline.IsAligned moving count) {trace : Trace}
    (hbounds : trace.bounds.isSome = !moving) {segments : List ℕ} (hj : ∀ j ∈ segments, j < count) :
    ∃ bounds curves,
      segments.foldlM outline.traceSegment trace = .ok ⟨bounds, trace.commands ++ curves⟩ ∧
        bounds.isSome = (!moving) ∧ curves.length = segments.length ∧
          ∀ curve ∈ curves, curve.IsCurveTo := by
  induction segments generalizing trace with
  | nil =>
    refine ⟨trace.bounds, [], ?_, hbounds, rfl, List.forall_mem_nil _⟩
    rw [List.append_nil]
    rfl
  | cons j rest ih =>
    obtain ⟨hfirst, hrest⟩ := List.forall_mem_cons.mp hj
    obtain ⟨bounds, curve, hsegment, hsome, hcurve⟩ := traceSegment_aligned h hbounds hfirst
    obtain ⟨final, curves, hrun, hfinal, hlength, hcurves⟩ :=
      @ih ⟨bounds, trace.commands ++ [curve]⟩ hsome hrest
    refine ⟨final, curve :: curves, ?_, hfinal, congrArg (· + 1) hlength,
      List.forall_mem_cons.mpr ⟨hcurve, hcurves⟩⟩
    rw [List.foldlM_cons, hsegment, Except.ok_bind, hrun, List.append_assoc]
    rfl

/-- The box with which tracing starts can be grown to hold the first vertex. -/
theorem grow_first {first : ScalarPoint} (h : first.IsCoordinate moving) {α : Type}
    (next : Option Box → Except Fault α) :
    ∃ bounds : Option Box, bounds.isSome = !moving ∧
      (match (if moving then none else some Box.undefined) with
        | none => Except.ok none >>= next
        | some box => (first.grow box).map some >>= next) = next bounds := by
  cases moving with
  | true => exact ⟨none, rfl, rfl⟩
  | false =>
    obtain ⟨box, hbox⟩ := h.grow .undefined
    refine ⟨some box, rfl, ?_⟩
    simp only [Bool.false_eq_true, if_false, hbox]
    rfl

/-- An outline whose terms fit together is traced. -/
theorem trace_aligned (h : outline.IsAligned moving count) :
    ∃ trace, outline.trace moving = .ok trace ∧ DrawOutline count outline.closed trace.commands ∧
      trace.bounds.isSome = !moving := by
  unfold Outline.trace
  dsimp only
  split
  · rename_i hnone
    have hcount : count = 0 := by rw [← h.positions.1, hnone, List.length_nil]
    refine ⟨_, rfl, ?_, by cases moving <;> rfl⟩
    rw [DrawOutline, if_pos hcount]
  · rename_i point rest hpositions
    have hcount : count ≠ 0 := by
      rw [← h.positions.1, hpositions]
      exact Nat.succ_ne_zero _
    obtain ⟨x, y, rfl, hx, hy⟩ := h.positions.2 point (hpositions ▸ List.mem_cons_self)
    have hfirst : (⟨x, y⟩ : ScalarPoint).IsCoordinate moving := ⟨hx, hy⟩
    have hsegments : ∀ j ∈ List.range (if outline.closed then count else count - 1), j < count := by
      intro j hj
      have hless := List.mem_range.mp hj
      split_ifs at hless <;> omega
    obtain ⟨bounds, hbounds, hgrown⟩ := grow_first hfirst fun bounds ↦ do
      let traced ← (List.range (if outline.closed then count else count - 1)).foldlM
        outline.traceSegment ⟨bounds, [.moveTo x.embed y.embed]⟩
      return if outline.closed then { traced with commands := traced.commands ++ [.close] }
        else traced
    have hstart : (⟨bounds, [.moveTo x.embed y.embed]⟩ : Trace).bounds.isSome = !moving := hbounds
    obtain ⟨final, curves, hrun, hfinal, hlength, hcurves⟩ :=
      traceSegments_aligned h hstart hsegments
    rw [h.positions.1]
    simp only [ScalarPoint.ofList, Except.ok_bind]
    refine ⟨_, hgrown.trans (by rw [hrun]; rfl), ?_, ?_⟩
    · rw [DrawOutline, if_neg hcount]
      refine ⟨x.embed, y.embed, curves, ?_, ?_, hcurves⟩
      · cases outline.closed <;> simp
      · rw [hlength, List.length_range]
    · cases outline.closed <;> exact hfinal

/-- A shape given as data is traced, unless it does not validate or its keyframes do not fit
together: no point is missing, and no operation on coordinates fails. With as many vertices as the
curve that it shows first, its commands are a move, one curve for each segment and the closing of a
closed one, and there is a box unless it moves. -/
theorem Data.compilePathData_outcome [Validator] (data : Data) (path : String) :
    Compile.Ends (Fault.IsOfShape path)
      (fun trace ↦ ∃ shape curve, Validator.animated data = .ok shape ∧
        shape.firstCurve? = some curve ∧
        DrawOutline curve.vertices.length curve.closed trace.commands ∧
        trace.bounds.isSome = !shape.isAnimated) (compilePathData data path) := by
  refine (Compile.ends_lift (faultsOnly_validated (Validator.animated data))
    fun shape hshape ↦ validated_eq_ok hshape).bind fun shape hshape ↦
      (compileShape_ends shape path).bind ?_
  rintro outline ⟨curve, hfirst, hclosed, haligned⟩
  obtain ⟨trace, htrace, hdraw, hbounds⟩ := trace_aligned haligned
  rw [htrace]
  exact Compile.ends_pure ⟨shape, curve, hshape, hfirst, hclosed ▸ hdraw, hbounds⟩

end Motion
