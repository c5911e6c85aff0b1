import Motion.Proofs.Path.Box
import Motion.Proofs.Path.Trace
import Motion.Proofs.Scalar.Value
import Mathlib.Algebra.Order.Module.Defs
import Mathlib.Algebra.Order.Monoid.Prod
import Mathlib.Tactic.Module
import Mathlib.Tactic.Positivity

/-!
The box of an outline that does not move bounds what is drawn. An outline is given by its knots, the
vertices with their tangents. Read with a pen, its commands draw one cubic curve for each segment
(`cubics?_commandsOf`); a point of a cubic is a mean of its ends and control points
(`Cubic.pointAt_mem_Icc`), and the box is the hull of all of these (`isHull_foldl_hold`). So the box
holds every point of every curve, and each of its sides is met by a point of a command
(`trace_isBounded`).
-/

set_option autoImplicit false
set_option relaxedAutoImplicit false

namespace Motion

/-- A cubic curve by its end points and the control points between them. -/
structure Cubic where
  start : ℚ × ℚ
  leaving : ℚ × ℚ
  arriving : ℚ × ℚ
  finish : ℚ × ℚ

/-- The point of a cubic curve at a parameter. -/
def Cubic.pointAt (cubic : Cubic) (t : ℚ) : ℚ × ℚ :=
  (1 - t) ^ 3 • cubic.start + (3 * (1 - t) ^ 2 * t) • cubic.leaving +
    (3 * (1 - t) * t ^ 2) • cubic.arriving + t ^ 3 • cubic.finish

/-- A cubic lies in every box that holds its end points and control points. -/
theorem Cubic.pointAt_mem_Icc (cubic : Cubic) {lower upper : ℚ × ℚ}
    (hstart : cubic.start ∈ Set.Icc lower upper) (hleaving : cubic.leaving ∈ Set.Icc lower upper)
    (harriving : cubic.arriving ∈ Set.Icc lower upper)
    (hfinish : cubic.finish ∈ Set.Icc lower upper) {t : ℚ} (hnonneg : 0 ≤ t) (hone : t ≤ 1) :
    cubic.pointAt t ∈ Set.Icc lower upper := by
  have hrest : 0 ≤ 1 - t := sub_nonneg.mpr hone
  have hmean (p q r s : ℚ × ℚ) (hp : 0 ≤ p) (hq : 0 ≤ q) (hr : 0 ≤ r) (hs : 0 ≤ s) :
      0 ≤ (1 - t) ^ 3 • p + (3 * (1 - t) ^ 2 * t) • q + (3 * (1 - t) * t ^ 2) • r + t ^ 3 • s := by
    have hp' := smul_nonneg (by positivity : 0 ≤ (1 - t) ^ 3) hp
    have hq' := smul_nonneg (by positivity : 0 ≤ 3 * (1 - t) ^ 2 * t) hq
    have hr' := smul_nonneg (by positivity : 0 ≤ 3 * (1 - t) * t ^ 2) hr
    have hs' := smul_nonneg (by positivity : 0 ≤ t ^ 3) hs
    exact add_nonneg (add_nonneg (add_nonneg hp' hq') hr') hs'
  -- The four weights sum to one, so both differences are means of differences.
  constructor
  · rw [← sub_nonneg]
    have hdifference : cubic.pointAt t - lower = (1 - t) ^ 3 • (cubic.start - lower) +
        (3 * (1 - t) ^ 2 * t) • (cubic.leaving - lower) +
        (3 * (1 - t) * t ^ 2) • (cubic.arriving - lower) + t ^ 3 • (cubic.finish - lower) := by
      rw [Cubic.pointAt]
      module
    rw [hdifference]
    exact hmean _ _ _ _ (sub_nonneg.mpr hstart.1) (sub_nonneg.mpr hleaving.1)
      (sub_nonneg.mpr harriving.1) (sub_nonneg.mpr hfinish.1)
  · rw [← sub_nonneg]
    have hdifference : upper - cubic.pointAt t = (1 - t) ^ 3 • (upper - cubic.start) +
        (3 * (1 - t) ^ 2 * t) • (upper - cubic.leaving) +
        (3 * (1 - t) * t ^ 2) • (upper - cubic.arriving) + t ^ 3 • (upper - cubic.finish) := by
      rw [Cubic.pointAt]
      module
    rw [hdifference]
    exact hmean _ _ _ _ (sub_nonneg.mpr hstart.2) (sub_nonneg.mpr hleaving.2)
      (sub_nonneg.mpr harriving.2) (sub_nonneg.mpr hfinish.2)

section Pen

/-- The rational number that a parameter is. -/
def Data.coordinate? : Data → Option ℚ
  | .num n => n.toRat?
  | _ => none

/-- The points that parameters are, two for each point. -/
def pointsOf? : List Data → Option (List (ℚ × ℚ))
  | [] => some []
  | x :: y :: rest => do
    let x ← x.coordinate?
    let y ← y.coordinate?
    return (x, y) :: (← pointsOf? rest)
  | _ => none

/-- The cubic curves that commands draw with a pen at a place, where home is the point to which the
closing of an outline leads back. -/
def cubicsFrom? (home place : ℚ × ℚ) : List PathCommand → Option (List Cubic)
  | [] => some []
  | command :: rest =>
    match command.letter, pointsOf? command.parameters with
    | "M", some [point] => cubicsFrom? point point rest
    | "L", some [point] => cubicsFrom? home point rest
    | "C", some [leaving, arriving, finish] =>
      (cubicsFrom? home finish rest).map (⟨place, leaving, arriving, finish⟩ :: ·)
    | "z", some [] => cubicsFrom? home home rest
    | _, _ => none

/-- The cubic curves that commands draw, if they begin with a move. -/
def cubics? (commands : List PathCommand) : Option (List Cubic) :=
  match commands with
  | [] => some []
  | first :: _ => if first.letter = "M" then cubicsFrom? 0 0 commands else none

/-- A command has a point. -/
def PathCommand.HasPoint (command : PathCommand) (point : ℚ × ℚ) : Prop :=
  ∃ points, pointsOf? command.parameters = some points ∧ point ∈ points

end Pen

/-- A vertex of an outline with its tangents, by their integer coordinates. -/
structure Knot where
  position : ℤ × ℤ
  inward : ℤ × ℤ
  outward : ℤ × ℤ

namespace Knot

/-- The control point after the vertex. -/
def leaving (knot : Knot) : ℤ × ℤ :=
  knot.position + knot.outward

/-- The control point before the vertex. -/
def arriving (knot : Knot) : ℤ × ℤ :=
  knot.position + knot.inward

end Knot

/-- A point with integer coordinates as one with rational coordinates. -/
def ratPoint (point : ℤ × ℤ) : ℚ × ℚ :=
  (point.1, point.2)

/-- The scalars of a point with integer coordinates. -/
def scalarsOf (point : ℤ × ℤ) : List Scalar :=
  [.literal (.int point.1), .literal (.int point.2)]

/-- The outline with given knots. -/
def Outline.ofKnots (knots : List Knot) (closed : Bool) : Outline where
  inward := knots.map fun knot ↦ scalarsOf knot.inward
  outward := knots.map fun knot ↦ scalarsOf knot.outward
  positions := knots.map fun knot ↦ scalarsOf knot.position
  closed := closed

/-- The knot with a number, where the first comes after the last again. -/
def knotAt (knots : List Knot) (j : ℕ) : Knot :=
  knots.getD (j % knots.length) ⟨0, 0, 0⟩

theorem knotAt_length (knots : List Knot) : knotAt knots knots.length = knotAt knots 0 := by
  rw [knotAt, knotAt, Nat.mod_self, Nat.zero_mod]

/-- The cubic from the knot with a number to the next one. -/
def segmentAt (knots : List Knot) (j : ℕ) : Cubic where
  start := ratPoint (knotAt knots j).position
  leaving := ratPoint (knotAt knots j).leaving
  arriving := ratPoint (knotAt knots (j + 1)).arriving
  finish := ratPoint (knotAt knots (j + 1)).position

/-- The curve command to a vertex past two control points. -/
def curvePast (leaving arriving finish : ℤ × ℤ) : PathCommand :=
  .curveTo (.num (.int leaving.1)) (.num (.int leaving.2)) (.num (.int arriving.1))
    (.num (.int arriving.2)) (.num (.int finish.1)) (.num (.int finish.2))

/-- The command that draws the segment with a number. -/
def curveAt (knots : List Knot) (j : ℕ) : PathCommand :=
  curvePast (knotAt knots j).leaving (knotAt knots (j + 1)).arriving (knotAt knots (j + 1)).position

/-- The commands that draw an outline with a number of segments. -/
def commandsOf (knots : List Knot) (closed : Bool) (count : ℕ) : List PathCommand :=
  .moveTo (.num (.int (knotAt knots 0).position.1)) (.num (.int (knotAt knots 0).position.2)) ::
    (List.range count).map (curveAt knots) ++ (if closed then [.close] else [])

/-- The points that the segment with a number adds, in the order in which the box is grown. -/
def addedAt (knots : List Knot) (j : ℕ) : List (ℤ × ℤ) :=
  [(knotAt knots j).leaving, (knotAt knots (j + 1)).position, (knotAt knots (j + 1)).arriving]

/-- All points of an outline with a number of segments. -/
def pointsOf (knots : List Knot) (count : ℕ) : List (ℤ × ℤ) :=
  (knotAt knots 0).position :: (List.range count).flatMap (addedAt knots)

/-- The box grown to hold a point with integer coordinates. -/
def Box.hold (box : Box) (point : ℤ × ℤ) : Box :=
  box.update (.int point.1) (.int point.2)

theorem Scalar.add_int (i j : ℤ) :
    (Scalar.literal (.int i)).add (.literal (.int j)) = .ok (.literal (.int (i + j))) := by
  rw [Scalar.add, Scalar.isLiteral, Scalar.isLiteral]
  split_ifs with hleft hright
  · rw [Number.same_int.mp hleft, zero_add]
  · rw [Number.same_int.mp hright, add_zero]
  · rfl

section Tracing

variable {knots : List Knot} {closed : Bool} {j : ℕ}

theorem itemAt_map {α β : Type} (f : α → β) {items : List α} {default : α} (hj : j < items.length) :
    itemAt (items.map f) j = .ok (f (items.getD j default)) := by
  have hitem : items[j]? = some (items.getD j default) := by
    rw [List.getD_eq_getElem?_getD, List.getElem?_eq_getElem hj, Option.getD_some]
  rw [itemAt, List.getElem?_map, hitem, Option.map_some]

theorem itemAt_knots {β : Type} (f : Knot → β) (hj : j < knots.length) :
    itemAt (knots.map f) j = .ok (f (knotAt knots j)) := by
  rw [knotAt, Nat.mod_eq_of_lt hj]
  exact itemAt_map f hj

theorem itemAt_knots_mod {β : Type} (f : Knot → β) (hknots : 0 < knots.length) :
    itemAt (knots.map f) (j % knots.length) = .ok (f (knotAt knots j)) :=
  itemAt_map f (Nat.mod_lt j hknots)

theorem plus_scalarsOf (vertex tangent : ℤ × ℤ) :
    (⟨.literal (.int vertex.1), .literal (.int vertex.2)⟩ : ScalarPoint).plus (scalarsOf tangent) =
      .ok ⟨.literal (.int (vertex + tangent).1), .literal (.int (vertex + tangent).2)⟩ := by
  simp only [ScalarPoint.plus, scalarsOf, List.getElem?_cons_zero, List.getElem?_cons_succ,
    Option.elim_some, Except.ok_bind, Scalar.add_int]
  rfl

/-- A segment adds its curve to the commands and its points to the box. -/
theorem traceSegment_ofKnots (hj : j < knots.length) (box : Box) (commands : List PathCommand) :
    (Outline.ofKnots knots closed).traceSegment ⟨some box, commands⟩ j =
      .ok ⟨some ((addedAt knots j).foldl Box.hold box), commands ++ [curveAt knots j]⟩ := by
  have hlength : (Outline.ofKnots knots closed).positions.length = knots.length :=
    List.length_map ..
  have hpositive : 0 < knots.length := Nat.zero_lt_of_lt hj
  rw [Outline.traceSegment, hlength]
  simp only [Outline.ofKnots, itemAt_knots _ hj, itemAt_knots_mod _ hpositive, Except.ok_bind,
    scalarsOf, ScalarPoint.ofVertex]
  rw [← scalarsOf, ← scalarsOf, plus_scalarsOf, Except.ok_bind, plus_scalarsOf]
  rfl

/-- Segments add their curves and points one after the other. -/
theorem traceSegments_ofKnots {segments : List ℕ} (hj : ∀ j ∈ segments, j < knots.length) (box : Box)
    (commands : List PathCommand) :
    segments.foldlM (Outline.ofKnots knots closed).traceSegment ⟨some box, commands⟩ =
      .ok ⟨some ((segments.flatMap (addedAt knots)).foldl Box.hold box),
        commands ++ segments.map (curveAt knots)⟩ := by
  induction segments generalizing box commands with
  | nil =>
    rw [List.map_nil, List.append_nil]
    rfl
  | cons j rest ih =>
    obtain ⟨hfirst, hrest⟩ := List.forall_mem_cons.mp hj
    rw [List.foldlM_cons, traceSegment_ofKnots hfirst, Except.ok_bind, ih hrest, List.flatMap_cons,
      List.foldl_append, List.map_cons, List.append_assoc]
    rfl

/-- How many segments an outline has. -/
def segmentCount (knots : List Knot) (closed : Bool) : ℕ :=
  if closed then knots.length else knots.length - 1

/-- An outline that does not move is traced to its curves, with a box grown by all its points. -/
theorem trace_ofKnots (hknots : knots ≠ []) (closed : Bool) :
    (Outline.ofKnots knots closed).trace false =
      .ok ⟨some ((pointsOf knots (segmentCount knots closed)).foldl Box.hold .undefined),
        commandsOf knots closed (segmentCount knots closed)⟩ := by
  obtain ⟨first, rest, rfl⟩ := List.exists_cons_of_ne_nil hknots
  have hsegments : ∀ j ∈ List.range (segmentCount (first :: rest) closed),
      j < (first :: rest).length := by
    intro j hj
    have hless := List.mem_range.mp hj
    rw [segmentCount] at hless
    split_ifs at hless <;> omega
  have hrun := @traceSegments_ofKnots _ closed _ hsegments (Box.undefined.hold first.position)
    [.moveTo (.num (.int first.position.1)) (.num (.int first.position.2))]
  have hlength : (scalarsOf first.position ::
      rest.map fun knot ↦ scalarsOf knot.position).length = (first :: rest).length := by
    rw [List.length_cons, List.length_map, List.length_cons]
  have htrace : (Outline.ofKnots (first :: rest) closed).trace false =
      ((List.range (segmentCount (first :: rest) closed)).foldlM
        (Outline.ofKnots (first :: rest) closed).traceSegment
        ⟨some (Box.undefined.hold first.position),
          [.moveTo (.num (.int first.position.1)) (.num (.int first.position.2))]⟩) >>= fun traced ↦
        .ok (if closed then { traced with commands := traced.commands ++ [.close] } else traced) := by
    rw [segmentCount, ← hlength]
    rfl
  rw [htrace, hrun, Except.ok_bind]
  cases closed with
  | false =>
    rw [commandsOf, if_neg Bool.false_ne_true, if_neg Bool.false_ne_true, List.append_nil]
    rfl
  | true => rfl

end Tracing

section Holding

variable {knots : List Knot} {count j : ℕ}

/-- The coordinates of a point as numbers. -/
def numbersOf (point : ℤ × ℤ) : Number × Number :=
  (.int point.1, .int point.2)

/-- A box grown by points is the hull of what it was the hull of before and these points. -/
theorem isHull_foldl_hold (points : List (ℤ × ℤ)) {box : Box} {before : List (Number × Number)}
    (h : box.IsHull before) :
    (points.foldl Box.hold box).IsHull (before ++ points.map numbersOf) := by
  induction points generalizing box before with
  | nil => rwa [List.map_nil, List.append_nil]
  | cons point rest ih =>
    have hstep : (box.hold point).IsHull (before ++ [numbersOf point]) :=
      h.update (Number.isAtMost_int.mpr le_rfl) (Number.isAtMost_int.mpr le_rfl)
    have hrun := ih hstep
    rwa [List.append_assoc] at hrun

/-- The point with the least of some coordinates. -/
theorem exists_minimum (f : ℤ × ℤ → ℤ) {n : Number} {points : List (ℤ × ℤ)}
    (h : n.IsMinimum (points.map fun point ↦ .int (f point))) :
    ∃ point ∈ points, n = .int (f point) ∧ ∀ other ∈ points, f point ≤ f other := by
  obtain ⟨point, hpoint, rfl⟩ := List.mem_map.mp h.1
  exact ⟨point, hpoint, rfl, fun other hother ↦
    Number.isAtMost_int.mp (h.2 _ (List.mem_map.mpr ⟨other, hother, rfl⟩))⟩

/-- The point with the greatest of some coordinates. -/
theorem exists_maximum (f : ℤ × ℤ → ℤ) {n : Number} {points : List (ℤ × ℤ)}
    (h : n.IsMaximum (points.map fun point ↦ .int (f point))) :
    ∃ point ∈ points, n = .int (f point) ∧ ∀ other ∈ points, f other ≤ f point := by
  obtain ⟨point, hpoint, rfl⟩ := List.mem_map.mp h.1
  exact ⟨point, hpoint, rfl, fun other hother ↦
    Number.isAtMost_int.mp (h.2 _ (List.mem_map.mpr ⟨other, hother, rfl⟩))⟩

/-- The box of some points: each side is met by one of them, and all lie within. -/
theorem exists_sides {points : List (ℤ × ℤ)} (hpoints : points ≠ []) :
    ∃ leftmost ∈ points, ∃ topmost ∈ points, ∃ rightmost ∈ points, ∃ lowest ∈ points,
      points.foldl Box.hold .undefined = .sides (.int leftmost.1) (.int topmost.2) (.int rightmost.1)
        (.int lowest.2) ∧
      ∀ point ∈ points, ratPoint point ∈
        Set.Icc ((leftmost.1 : ℚ), (topmost.2 : ℚ)) ((rightmost.1 : ℚ), (lowest.2 : ℚ)) := by
  have hhull := isHull_foldl_hold points Box.isHull_undefined
  generalize points.foldl Box.hold .undefined = box at hhull ⊢
  rw [List.nil_append] at hhull
  cases box with
  | undefined => exact absurd (List.map_eq_nil_iff.mp hhull) hpoints
  | sides left top right bottom =>
    obtain ⟨hleft, htop, hright, hbottom⟩ := hhull
    rw [List.map_map] at hleft htop hright hbottom
    obtain ⟨leftmost, hleftmost, rfl, hleast⟩ := exists_minimum Prod.fst hleft
    obtain ⟨topmost, htopmost, rfl, hhighest⟩ := exists_minimum Prod.snd htop
    obtain ⟨rightmost, hrightmost, rfl, hgreatest⟩ := exists_maximum Prod.fst hright
    obtain ⟨lowest, hlowest, rfl, hdeepest⟩ := exists_maximum Prod.snd hbottom
    refine ⟨leftmost, hleftmost, topmost, htopmost, rightmost, hrightmost, lowest, hlowest, rfl,
      fun point hpoint ↦ ?_⟩
    rw [Set.mem_Icc, Prod.mk_le_mk, Prod.mk_le_mk]
    exact ⟨⟨Int.cast_le.mpr (hleast point hpoint), Int.cast_le.mpr (hhighest point hpoint)⟩,
      Int.cast_le.mpr (hgreatest point hpoint), Int.cast_le.mpr (hdeepest point hpoint)⟩

theorem leaving_mem_pointsOf (hj : j < count) : (knotAt knots j).leaving ∈ pointsOf knots count :=
  List.mem_cons_of_mem _ (List.mem_flatMap.mpr ⟨j, List.mem_range.mpr hj, by simp [addedAt]⟩)

theorem arriving_mem_pointsOf (hj : j < count) :
    (knotAt knots (j + 1)).arriving ∈ pointsOf knots count :=
  List.mem_cons_of_mem _ (List.mem_flatMap.mpr ⟨j, List.mem_range.mpr hj, by simp [addedAt]⟩)

theorem position_mem_pointsOf (hj : j ≤ count) : (knotAt knots j).position ∈ pointsOf knots count := by
  cases j with
  | zero => exact List.mem_cons_self
  | succ j =>
    exact List.mem_cons_of_mem _ (List.mem_flatMap.mpr ⟨j, List.mem_range.mpr hj, by simp [addedAt]⟩)

/-- A segment lies in every box that holds all points of the outline. -/
theorem pointAt_segmentAt_mem_Icc {lower upper : ℚ × ℚ}
    (h : ∀ point ∈ pointsOf knots count, ratPoint point ∈ Set.Icc lower upper) (hj : j < count)
    {t : ℚ} (hnonneg : 0 ≤ t) (hone : t ≤ 1) :
    (segmentAt knots j).pointAt t ∈ Set.Icc lower upper := by
  have hstart := h (knotAt knots j).position (position_mem_pointsOf hj.le)
  have hleaving := h (knotAt knots j).leaving (leaving_mem_pointsOf hj)
  have harriving := h (knotAt knots (j + 1)).arriving (arriving_mem_pointsOf hj)
  have hfinish := h (knotAt knots (j + 1)).position (position_mem_pointsOf hj)
  exact (segmentAt knots j).pointAt_mem_Icc hstart hleaving harriving hfinish hnonneg hone

/-- Every point of an outline is a point of one of its commands. -/
theorem exists_hasPoint (closed : Bool) {point : ℤ × ℤ} (h : point ∈ pointsOf knots count) :
    ∃ command ∈ commandsOf knots closed count, command.HasPoint (ratPoint point) := by
  rcases List.mem_cons.mp h with rfl | hadded
  · exact ⟨_, List.mem_cons_self, _, rfl, List.mem_singleton_self _⟩
  · obtain ⟨j, hj, hpoint⟩ := List.mem_flatMap.mp hadded
    refine ⟨curveAt knots j, List.mem_append_left _ (List.mem_cons_of_mem _
      (List.mem_map.mpr ⟨j, hj, rfl⟩)), _, rfl, ?_⟩
    simp only [addedAt, List.mem_cons, List.not_mem_nil, or_false] at hpoint
    rcases hpoint with rfl | rfl | rfl <;> simp [ratPoint]

theorem cubicsFrom?_curvePast (home place : ℚ × ℚ) (leaving arriving finish : ℤ × ℤ)
    (rest : List PathCommand) : cubicsFrom? home place (curvePast leaving arriving finish :: rest) =
      (cubicsFrom? home (ratPoint finish) rest).map
        (⟨place, ratPoint leaving, ratPoint arriving, ratPoint finish⟩ :: ·) :=
  rfl

/-- The pen goes from knot to knot. -/
theorem cubicsFrom?_curves (home : ℚ × ℚ) (closed : Bool) (n j : ℕ) :
    cubicsFrom? home (ratPoint (knotAt knots j).position)
      ((List.range' j n).map (curveAt knots) ++ if closed then [.close] else []) =
        some ((List.range' j n).map (segmentAt knots)) := by
  induction n generalizing j with
  | zero => cases closed <;> rfl
  | succ n ih =>
    rw [List.range'_succ, List.map_cons, List.map_cons, List.cons_append, curveAt,
      cubicsFrom?_curvePast, ih (j + 1)]
    rfl

/-- The commands of an outline draw its segments. -/
theorem cubics?_commandsOf (closed : Bool) :
    cubics? (commandsOf knots closed count) = some ((List.range count).map (segmentAt knots)) := by
  have hcurves := @cubicsFrom?_curves knots (ratPoint (knotAt knots 0).position) closed count 0
  rw [← List.range_eq_range'] at hcurves
  exact hcurves

end Holding

/-- The box has integer sides: the left and the top one, at a width and a height. -/
structure Box.HasExtent (box : Box) (left top width height : ℤ) : Prop where
  left : box.left = .ok (.int left)
  top : box.top = .ok (.int top)
  width : box.width = .ok (.int width)
  height : box.height = .ok (.int height)

theorem Box.HasExtent.eq_of_sides {l t r b left top width height : ℤ}
    (h : (Box.sides (.int l) (.int t) (.int r) (.int b)).HasExtent left top width height) :
    left = l ∧ top = t ∧ width = r - l ∧ height = b - t := by
  have hint {i j : ℤ} (hok : (Except.ok (.int i) : Except Fault Number) = .ok (.int j)) : j = i := by
    cases hok
    rfl
  exact ⟨hint h.left, hint h.top, hint h.width, hint h.height⟩

/-- Each side of an extent is met by a point of one of the commands. -/
structure MeetsSides (commands : List PathCommand) (left top width height : ℤ) : Prop where
  leftmost : ∃ command ∈ commands, ∃ y, command.HasPoint (left, y)
  topmost : ∃ command ∈ commands, ∃ x, command.HasPoint (x, top)
  rightmost : ∃ command ∈ commands, ∃ y, command.HasPoint (left + width, y)
  lowest : ∃ command ∈ commands, ∃ x, command.HasPoint (x, top + height)

/-- All points of a cubic lie within an extent. -/
def Cubic.LiesWithin (cubic : Cubic) (left top width height : ℤ) : Prop :=
  ∀ t : ℚ, 0 ≤ t → t ≤ 1 → cubic.pointAt t ∈
    Set.Icc ((left : ℚ), (top : ℚ)) ((left : ℚ) + width, (top : ℚ) + height)

/-- An outline with integer knots is traced to commands and a box. The commands draw one cubic for
each segment, between the vertices and with the control points that the tangents give, and that of
the last segment of a closed outline leads back to the first vertex. The box holds all points of all
these cubics, and each of its sides is met by a point of a command. -/
theorem trace_isBounded {knots : List Knot} (hknots : knots ≠ []) (closed : Bool) :
    ∃ commands box, ∃ left top width height : ℤ,
      (Outline.ofKnots knots closed).trace false = .ok ⟨some box, commands⟩ ∧
      box.HasExtent left top width height ∧ MeetsSides commands left top width height ∧
      cubics? commands = some ((List.range (segmentCount knots closed)).map (segmentAt knots)) ∧
      (∀ j < segmentCount knots closed, (segmentAt knots j).LiesWithin left top width height) ∧
      (closed = true → ∃ last, ((List.range (segmentCount knots closed)).map
        (segmentAt knots)).getLast? = some last ∧
          last.finish = ratPoint (knotAt knots 0).position) := by
  generalize hcount : segmentCount knots closed = count
  obtain ⟨leftmost, hleftmost, topmost, htopmost, rightmost, hrightmost, lowest, hlowest, hbox,
    hwithin⟩ := exists_sides (List.cons_ne_nil (knotAt knots 0).position
      ((List.range count).flatMap (addedAt knots)))
  rw [← pointsOf] at hleftmost htopmost hrightmost hlowest hbox hwithin
  have hright : ((leftmost.1 : ℚ) + ((rightmost.1 - leftmost.1 : ℤ) : ℚ)) = rightmost.1 := by
    rw [Int.cast_sub, add_sub_cancel]
  have hbottom : ((topmost.2 : ℚ) + ((lowest.2 - topmost.2 : ℤ) : ℚ)) = lowest.2 := by
    rw [Int.cast_sub, add_sub_cancel]
  refine ⟨commandsOf knots closed count,
    .sides (.int leftmost.1) (.int topmost.2) (.int rightmost.1) (.int lowest.2), leftmost.1, topmost.2,
    rightmost.1 - leftmost.1, lowest.2 - topmost.2, ?_, ⟨rfl, rfl, rfl, rfl⟩, ⟨?_, ?_, ?_, ?_⟩,
    cubics?_commandsOf closed, fun j hj t hnonneg hone ↦ ?_, fun hclosed ↦ ?_⟩
  · rw [trace_ofKnots hknots, hcount, hbox]
  · obtain ⟨command, hcommand, hpoint⟩ := exists_hasPoint closed hleftmost
    exact ⟨command, hcommand, leftmost.2, hpoint⟩
  · obtain ⟨command, hcommand, hpoint⟩ := exists_hasPoint closed htopmost
    exact ⟨command, hcommand, topmost.1, hpoint⟩
  · obtain ⟨command, hcommand, hpoint⟩ := exists_hasPoint closed hrightmost
    rw [hright]
    exact ⟨command, hcommand, rightmost.2, hpoint⟩
  · obtain ⟨command, hcommand, hpoint⟩ := exists_hasPoint closed hlowest
    rw [hbottom]
    exact ⟨command, hcommand, lowest.1, hpoint⟩
  · rw [hright, hbottom]
    exact pointAt_segmentAt_mem_Icc hwithin hj hnonneg hone
  · rw [segmentCount, if_pos hclosed] at hcount
    have hpositive : 0 < count := hcount ▸ List.length_pos_of_ne_nil hknots
    refine ⟨segmentAt knots (count - 1), ?_, ?_⟩
    · rw [List.getLast?_map, List.getLast?_range, if_neg hpositive.ne']
      rfl
    · rw [segmentAt, Nat.sub_add_cancel hpositive, ← hcount, knotAt_length]

/-- A closed outline with two vertices, whose tangents reach out of the rectangle that these span. -/
def petal : List Knot :=
  [⟨(0, 0), (-5, 3), (4, -6)⟩, ⟨(10, 2), (1, -8), (0, 7)⟩]

theorem trace_isBounded_petal : petal ≠ [] ∧ ∃ commands,
    (Outline.ofKnots petal true).trace false =
      .ok ⟨some (.sides (.int (-5)) (.int (-6)) (.int 11) (.int 9)), commands⟩ ∧
    MeetsSides commands (-5) (-6) 16 15 ∧
    cubics? commands =
      some [⟨(0, 0), (4, -6), (11, -6), (10, 2)⟩, ⟨(10, 2), (10, 9), (-5, 3), (0, 0)⟩] ∧
    ∀ j < 2, (segmentAt petal j).LiesWithin (-5) (-6) 16 15 := by
  have hpetal : petal ≠ [] := List.cons_ne_nil _ _
  obtain ⟨commands, box, left, top, width, height, htrace, hextent, hsides, hcubics, hwithin, -⟩ :=
    trace_isBounded hpetal true
  have hbox : box = .sides (.int (-5)) (.int (-6)) (.int 11) (.int 9) := by
    have hgrown : (pointsOf petal (segmentCount petal true)).foldl Box.hold .undefined =
        .sides (.int (-5)) (.int (-6)) (.int 11) (.int 9) := by
      decide +kernel
    have hrun := trace_ofKnots hpetal true
    rw [htrace, hgrown, Except.ok.injEq, Trace.mk.injEq, Option.some.injEq] at hrun
    exact hrun.1
  subst hbox
  obtain ⟨rfl, rfl, rfl, rfl⟩ := hextent.eq_of_sides
  refine ⟨hpetal, commands, htrace, hsides, ?_, hwithin⟩
  rw [hcubics]
  rfl

end Motion
