import Motion.Lax.Record
import Motion.Proofs.Easing.Call
import Motion.Proofs.Easing.Shape
import Motion.Proofs.Data.Entries

/-!
What the programs of a shape say. Each coordinate of each vertex is a number of its own, which
either stays the same or has a program with one call for each keyframe (`pathCallAt?`): the last one
holds the coordinate, another one leads on in a line where both handles lie on the diagonal, and
else along a curve.

A curve has all the numbers of its handles. So it has six numbers where every handle coordinate is
a single number, and more of them where a handle coordinate is a list of several.
-/

set_option autoImplicit false
set_option relaxedAutoImplicit false

namespace Motion

/-- Whether all programs of a table satisfy a condition. -/
def EasingTable.HasOnly (P : String → Prop) (table : EasingTable) : Prop :=
  ∀ entry ∈ table.programs, P entry.2

theorem EasingTable.HasOnly.add {P : String → Prop} {table : EasingTable} (h : table.HasOnly P)
    {program : String} (hprogram : P program) : (table.add program).1.HasOnly P := by
  unfold EasingTable.add
  split_ifs
  · exact h
  · split
    · exact h
    · intro entry hentry
      rcases Entries.mem_put hentry with rfl | hold
      · exact hprogram
      · exact h entry hold

/-- A course that is registered brings no program into the table but its own. -/
theorem Course.register_keeps {P : String → Prop} (course : Course)
    (h : ∀ program, course = .moving program →
      ∀ precision, P (String.ofList (program.text precision))) :
    Compile.Keeps (EasingTable.HasOnly P)
      (fun x ↦ match course with
        | .constant value => x = .literal (.float value)
        | .moving _ => x.isNumber = false) course.register := by
  intro table next x hI hrun
  rw [Course.run_register] at hrun
  cases course with
  | constant value =>
    cases hrun
    exact ⟨hI, rfl⟩
  | moving program =>
    cases hrun
    exact ⟨hI.add (h program rfl table.precision), rfl⟩

/-- The keyframe before the one with number `n`. -/
def before? (keyframes : List ShapeKeyframe) : ℕ → Option ShapeKeyframe
  | 0 => none
  | n + 1 => keyframes[n]?

/-- The curve that the keyframe with number `n` shows: the first of its own start, or else of the
end of the keyframe before. -/
def curveAt? (keyframes : List ShapeKeyframe) (n : ℕ) : Option Curve :=
  ((keyframes[n]?.bind (·.start)).bind List.head?).or
    (((before? keyframes n).bind (·.finish)).bind List.head?)

/-- A coordinate of a vertex at the keyframe with number `n`. -/
def coordinateAt? (keyframes : List ShapeKeyframe) (term : Term) (vertex : ℕ) (axis : Axis)
    (n : ℕ) : Option Binary64 := do
  let curve ← curveAt? keyframes n
  let corner ← curve.vertices[vertex]?
  return (corner.term term).along axis

/-- The call for a coordinate of a vertex at the keyframe with number `n`. -/
def pathCallAt? (keyframes : List ShapeKeyframe) (term : Term) (vertex : ℕ) (axis : Axis)
    (n : ℕ) : Option Call := do
  let keyframe ← keyframes[n]?
  let value ← coordinateAt? keyframes term vertex axis n
  if n + 1 = keyframes.length then
    return ⟨"end", [keyframe.time.toRat, value.toRat]⟩
  else
    let inward ← keyframe.inward
    let outward ← keyframe.outward
    if inward.x.same inward.y && outward.x.same outward.y then
      return ⟨"line", [keyframe.time.toRat, value.toRat]⟩
    else
      return ⟨"curve", keyframe.time.toRat :: value.toRat ::
        ([outward.x, outward.y, inward.x, inward.y].flatMap Handle.numbers).map Binary64.toRat⟩

/-- The coordinates of the handles of a keyframe. -/
def ShapeKeyframe.handles (keyframe : ShapeKeyframe) : List Handle :=
  let coordinates (tangent : Tangent) := [tangent.x, tangent.y]
  keyframe.outward.elim [] coordinates ++ keyframe.inward.elim [] coordinates

/-- The numbers of a point. -/
def Point.numbers (point : Point) : List Binary64 :=
  [point.x, point.y]

/-- The numbers of a keyframe. -/
def ShapeKeyframe.numbers (keyframe : ShapeKeyframe) : List Binary64 :=
  keyframe.time :: keyframe.handles.flatMap Handle.numbers
    ++ (Animated.curvesOf keyframe).flatMap fun curve ↦ curve.vertices.flatMap fun vertex ↦
        vertex.inward.numbers ++ vertex.outward.numbers ++ vertex.position.numbers

section Coordinates

variable {path : String} {keyframes rest : List ShapeKeyframe} {term : Term} {vertex n : ℕ}
  {axis : Axis}

theorem shownCurve_eq_some {previous : Option ShapeKeyframe} {keyframe : ShapeKeyframe}
    {curve : Curve} (h : shownCurve path n previous keyframe = .ok curve) :
    (keyframe.start.bind List.head?).or ((previous.bind (·.finish)).bind List.head?) =
      some curve := by
  unfold shownCurve at h
  split at h
  · rename_i hstart
    cases h
    rw [hstart]
    rfl
  · rename_i hfinish hstart
    cases h
    -- A start without any curve counts as none.
    have hnone : keyframe.start.bind List.head? = none := by
      cases hown : keyframe.start with
      | none => rfl
      | some curves =>
        cases curves with
        | nil => rfl
        | cons first more => exact absurd hown (hstart first more)
    rw [hnone, Option.none_or, hfinish]
    rfl
  · cases h

/-- The values of a coordinate at the keyframes. -/
theorem coordinates_eq_ok {values : List Binary64}
    (h : coordinates path term vertex axis n (before? keyframes n) rest = .ok values)
    (hrest : keyframes.drop n = rest) :
    (List.range' n rest.length).mapM (coordinateAt? keyframes term vertex axis) = some values := by
  -- The keyframe carried along is the one before number `n`.
  induction rest generalizing n values with
  | nil =>
    cases h
    rfl
  | cons keyframe rest ih =>
    obtain ⟨hn, hdrop⟩ := of_drop_eq_cons hrest
    rw [coordinates] at h
    obtain ⟨curve, hcurve, h⟩ := Except.bind_eq_ok h
    split at h
    · cases h
    · rename_i corner hcorner
      obtain ⟨more, hmore, h⟩ := Except.bind_eq_ok h
      cases h
      have hvalue : coordinateAt? keyframes term vertex axis n =
          some ((corner.term term).along axis) := by
        rw [coordinateAt?, curveAt?, hn, Option.bind_some, shownCurve_eq_some hcurve]
        dsimp only [Option.bind_eq_bind, Option.bind_some]
        rw [hcorner]
        rfl
      rw [List.length_cons, List.range'_succ, List.mapM_cons, hvalue,
        ih (n := n + 1) (by rw [before?, hn]; exact hmore) hdrop]
      rfl

theorem mem_of_before? {keyframe : ShapeKeyframe} (h : before? keyframes n = some keyframe) :
    keyframe ∈ keyframes := by
  cases n with
  | zero => cases h
  | succ n => exact List.mem_of_getElem? h

/-- A coordinate is one of the numbers of a keyframe. -/
theorem mem_numbers_of_coordinateAt? {value : Binary64}
    (h : coordinateAt? keyframes term vertex axis n = some value) :
    ∃ keyframe ∈ keyframes, value ∈ keyframe.numbers := by
  obtain ⟨curve, hcurve, h⟩ := Option.bind_eq_some_iff.mp h
  obtain ⟨corner, hcorner, h⟩ := Option.bind_eq_some_iff.mp h
  cases h
  have hvalue : (corner.term term).along axis ∈
      corner.inward.numbers ++ corner.outward.numbers ++ corner.position.numbers := by
    cases term <;> cases axis <;> simp [Vertex.term, Point.along, Point.numbers]
  have hmem (keyframe : ShapeKeyframe) (hof : curve ∈ Animated.curvesOf keyframe) :
      (corner.term term).along axis ∈ keyframe.numbers :=
    List.mem_append_right _ (List.mem_flatMap.mpr ⟨curve, hof, List.mem_flatMap.mpr
      ⟨corner, List.mem_of_getElem? hcorner, hvalue⟩⟩)
  rcases Option.or_eq_some_iff.mp hcurve with hstart | ⟨-, hfinish⟩
  · obtain ⟨curves, hstart, hhead⟩ := Option.bind_eq_some_iff.mp hstart
    obtain ⟨keyframe, hn, hstart⟩ := Option.bind_eq_some_iff.mp hstart
    refine ⟨keyframe, List.mem_of_getElem? hn, hmem keyframe ?_⟩
    simp [Animated.curvesOf, hstart, List.mem_of_head? hhead]
  · obtain ⟨curves, hfinish, hhead⟩ := Option.bind_eq_some_iff.mp hfinish
    obtain ⟨keyframe, hn, hend⟩ := Option.bind_eq_some_iff.mp hfinish
    refine ⟨keyframe, mem_of_before? hn, hmem keyframe ?_⟩
    simp [Animated.curvesOf, hend, List.mem_of_head? hhead]

/-- The segment that leads on from a keyframe. -/
def leadingSegment (time value : Binary64) (handles : Handles) : Segment :=
  if handles.inX.same handles.inY && handles.outX.same handles.outY then .line time value
  else .curve time value handles

theorem isPlain_leadingSegment (time value : Binary64) {handles : Handles}
    (h : ∀ coordinate ∈ handles.coordinates, coordinate.numbers ≠ []) :
    (leadingSegment time value handles).IsPlain := by
  unfold leadingSegment
  split_ifs
  · trivial
  · exact h

theorem mem_of_mem_leadingSegment {time value x : Binary64} {handles : Handles}
    (h : x ∈ (leadingSegment time value handles).numbers) :
    x ∈ time :: value :: handles.coordinates.flatMap Handle.numbers := by
  unfold leadingSegment at h
  split_ifs at h
  · exact List.mem_append_left _ h
  · exact h

/-- A keyframe that another one follows is not the last. -/
theorem mem_dropLast_of_next {keyframe : ShapeKeyframe} (hn : keyframes[n]? = some keyframe)
    (hlast : n + 1 ≠ keyframes.length) : keyframe ∈ keyframes.dropLast := by
  have hless := (List.getElem?_eq_some_iff.mp hn).1
  have hnext : n < keyframes.length - 1 := by omega
  refine List.mem_of_getElem? (i := n) ?_
  rw [List.getElem?_dropLast, if_pos hnext, hn]

section Step

variable {keyframe : ShapeKeyframe} {value : Binary64} (hn : keyframes[n]? = some keyframe)
  (hvalue : coordinateAt? keyframes term vertex axis n = some value)

include hn hvalue

theorem pathCallAt?_of_last (hlast : n + 1 = keyframes.length) :
    pathCallAt? keyframes term vertex axis n = some (Segment.finish keyframe.time value).call := by
  rw [pathCallAt?, hn, hvalue]
  dsimp only [Option.bind_eq_bind, Option.bind_some]
  rw [if_pos hlast]
  rfl

theorem pathCallAt?_of_leading (hlast : n + 1 ≠ keyframes.length) {inward outward : Tangent}
    (hinward : keyframe.inward = some inward) (houtward : keyframe.outward = some outward) :
    pathCallAt? keyframes term vertex axis n =
      some (leadingSegment keyframe.time value
        ⟨outward.x, outward.y, inward.x, inward.y⟩).call := by
  rw [pathCallAt?, hn, hvalue]
  dsimp only [Option.bind_eq_bind, Option.bind_some]
  rw [if_neg hlast, hinward, houtward]
  dsimp only [Option.bind_some, leadingSegment]
  split_ifs <;> rfl

end Step

/-- The segments for a coordinate are the calls for it, which read back. -/
theorem shapeSegments_eq {handles : List Handles} {values : List Binary64}
    (hhandles : shapeHandles path n rest = .ok handles)
    (hvalues : (List.range' n rest.length).mapM (coordinateAt? keyframes term vertex axis) =
      some values)
    (hrest : keyframes.drop n = rest)
    (hne : ∀ keyframe ∈ keyframes.dropLast, ∀ handle ∈ keyframe.handles, handle.numbers ≠ [])
    (hfinite : ∀ keyframe ∈ keyframes, ∀ x ∈ keyframe.numbers, x.isFinite = true) :
    (List.range' n rest.length).mapM (pathCallAt? keyframes term vertex axis) =
        some ((shapeSegments (rest.map (·.time)) values handles).map Segment.call) ∧
      ∀ segment ∈ shapeSegments (rest.map (·.time)) values handles, segment.IsPlain ∧
        ∀ x ∈ segment.numbers, x.isFinite = true := by
  -- The handles of the last keyframe are not asked for, so the induction looks one keyframe ahead.
  induction rest generalizing n values handles with
  | nil =>
    cases hvalues
    exact ⟨rfl, List.forall_mem_nil _⟩
  | cons keyframe rest ih =>
    obtain ⟨hn, hdrop⟩ := of_drop_eq_cons hrest
    have hless := (List.getElem?_eq_some_iff.mp hn).1
    have hlast : n + 1 = keyframes.length ↔ rest = [] := by
      rw [← hdrop, List.drop_eq_nil_iff]
      omega
    rw [List.length_cons, List.range'_succ, List.mapM_cons] at hvalues
    obtain ⟨value, hvalue, hvalues⟩ := Option.bind_eq_some_iff.mp hvalues
    obtain ⟨more, hmore, hvalues⟩ := Option.bind_eq_some_iff.mp hvalues
    cases hvalues
    have hkeyframe := List.mem_of_getElem? hn
    have htime : keyframe.time.isFinite = true :=
      hfinite keyframe hkeyframe _ (by simp [ShapeKeyframe.numbers])
    have hvalueFinite : value.isFinite = true := by
      obtain ⟨other, hother, hmem⟩ := mem_numbers_of_coordinateAt? hvalue
      exact hfinite other hother value hmem
    rw [List.length_cons, List.range'_succ, List.mapM_cons]
    cases rest with
    | nil =>
      cases hmore
      cases hhandles
      rw [pathCallAt?_of_last hn hvalue (hlast.mpr rfl)]
      refine ⟨rfl, List.forall_mem_singleton.mpr ⟨trivial, ?_⟩⟩
      simp [Segment.numbers, htime, hvalueFinite]
    | cons next rest =>
      rw [shapeHandles] at hhandles
      split at hhandles
      · rename_i inward outward hinward houtward
        obtain ⟨others, hothers, hhandles⟩ := Except.bind_eq_ok hhandles
        cases hhandles
        obtain ⟨hcalls, hplain⟩ := ih hothers hmore hdrop
        have hcall := pathCallAt?_of_leading hn hvalue (mt hlast.mp (List.cons_ne_nil _ _)) hinward
          houtward
        rw [hcall, hcalls]
        have hcoordinates : ∀ coordinate ∈ [outward.x, outward.y, inward.x, inward.y],
            coordinate ∈ keyframe.handles := by
          simp [ShapeKeyframe.handles, hinward, houtward]
        have hleading : keyframe ∈ keyframes.dropLast :=
          mem_dropLast_of_next hn (mt hlast.mp (List.cons_ne_nil next rest))
        refine ⟨rfl, List.forall_mem_cons.mpr ⟨⟨?_, fun x hx ↦ ?_⟩, hplain⟩⟩
        · exact isPlain_leadingSegment _ _ fun coordinate hcoordinate ↦
            hne keyframe hleading coordinate (hcoordinates coordinate hcoordinate)
        · rcases List.mem_cons.mp (mem_of_mem_leadingSegment hx) with rfl | hx
          · exact htime
          · rcases List.mem_cons.mp hx with rfl | hx
            · exact hvalueFinite
            · obtain ⟨coordinate, hcoordinate, hx⟩ := List.mem_flatMap.mp hx
              refine hfinite keyframe hkeyframe x (List.mem_append_left _ (List.mem_cons_of_mem _
                (List.mem_flatMap.mpr ⟨coordinate, hcoordinates coordinate hcoordinate, hx⟩)))
      · cases hhandles

/-- Whether a coordinate has one value in all keyframes. -/
def IsSteady (keyframes : List ShapeKeyframe) (term : Term) (vertex : ℕ) (axis : Axis) : Prop :=
  ∃ q, ∀ n < keyframes.length,
    (coordinateAt? keyframes term vertex axis n).map Binary64.toRat = some q

/-- Whether a scalar is a number exactly if the coordinate has one value in all keyframes, and that
number then. -/
def Follows (keyframes : List ShapeKeyframe) (term : Term) (vertex : ℕ) (axis : Axis) (x : Scalar) :
    Prop :=
  (x.isNumber = true ↔ IsSteady keyframes term vertex axis) ∧
    (x.isNumber = true → ∃ value, coordinateAt? keyframes term vertex axis 0 = some value ∧
      x = .literal (.float value))

/-- The place of a coordinate in a point. -/
def Axis.position : Axis → ℕ
  | .x => 0
  | .y => 1

/-- The scalars of a term have the coordinates of so many vertices. -/
def FollowTerm (keyframes : List ShapeKeyframe) (term : Term) (count : ℕ)
    (points : List (List Scalar)) : Prop :=
  points.length = count ∧ ∀ vertex < count, ∀ axis : Axis,
    ∃ x, points[vertex]?.bind (·[axis.position]?) = some x ∧
      Follows keyframes term vertex axis x

/-- Whether a text is the program of a coordinate. -/
def IsPathText (keyframes : List ShapeKeyframe) (program : String) : Prop :=
  ∃ term vertex axis calls,
    (List.range keyframes.length).mapM (pathCallAt? keyframes term vertex axis) = some calls ∧
    Call.readAll? program.toList = some calls

/-- The values of a coordinate are all the same if it has one value in all keyframes. -/
theorem isSteady_iff {first : Binary64} {more : List Binary64}
    (hvalues : (List.range keyframes.length).mapM (coordinateAt? keyframes term vertex axis) =
      some (first :: more))
    (hfinite : ∀ keyframe ∈ keyframes, ∀ x ∈ keyframe.numbers, x.isFinite = true) :
    IsSteady keyframes term vertex axis ↔
      (first :: more).all (fun value ↦ value.same first) = true := by
  obtain ⟨hlength, hget⟩ := getElem?_of_mapM hvalues
  have hat (n : ℕ) (hn : n < keyframes.length) :
      coordinateAt? keyframes term vertex axis n = (first :: more)[n]? := by
    rw [hget, List.getElem?_range hn, Option.bind_some]
  have hvalue (value : Binary64) (hmem : value ∈ first :: more) :
      ∃ n < keyframes.length, coordinateAt? keyframes term vertex axis n = some value ∧
        value.isFinite = true := by
    obtain ⟨n, hn, rfl⟩ := List.mem_iff_getElem.mp hmem
    have hless : n < keyframes.length := by rwa [hlength, List.length_range] at hn
    have hcoordinate := (hat n hless).trans (List.getElem?_eq_getElem hn)
    obtain ⟨keyframe, hkeyframe, hnumber⟩ := mem_numbers_of_coordinateAt? hcoordinate
    exact ⟨n, hless, hcoordinate, hfinite keyframe hkeyframe _ hnumber⟩
  obtain ⟨m, hm, hcoordinate, hfirst⟩ := hvalue first List.mem_cons_self
  rw [List.all_eq_true]
  constructor
  · rintro ⟨q, hq⟩ value hmem
    obtain ⟨n, hn, hother, hvalueFinite⟩ := hvalue value hmem
    have hvalues := hq n hn
    have hfirsts := hq m hm
    rw [hother, Option.map_some, Option.some.injEq] at hvalues
    rw [hcoordinate, Option.map_some, Option.some.injEq] at hfirsts
    rw [Binary64.same, Number.same_float_iff hvalueFinite hfirst, hvalues, hfirsts]
  · intro hsame
    refine ⟨first.toRat, fun n hn ↦ ?_⟩
    have hposition : n < (first :: more).length := by rwa [hlength, List.length_range]
    have hmem : (first :: more)[n] ∈ first :: more := List.getElem_mem hposition
    obtain ⟨-, -, -, hvalueFinite⟩ := hvalue _ hmem
    rw [hat n hn, List.getElem?_eq_getElem hposition, Option.map_some,
      (Number.same_float_iff hvalueFinite hfirst).mp (hsame _ hmem)]

section Compile

variable {handles : List Handles} (hhandles : shapeHandles path 0 keyframes = .ok handles)
  (hne : ∀ keyframe ∈ keyframes.dropLast, ∀ handle ∈ keyframe.handles, handle.numbers ≠ [])
  (hfinite : ∀ keyframe ∈ keyframes, ∀ x ∈ keyframe.numbers, x.isFinite = true)

include hhandles hne hfinite

/-- The program of a coordinate that moves. -/
theorem isPathText_of_moving {values : List Binary64} {program : Program}
    (hvalues : (List.range keyframes.length).mapM (coordinateAt? keyframes term vertex axis) =
      some values)
    (hcourse : shapeCourse (keyframes.map (·.time)) handles values = .ok (.moving program))
    (precision : ℕ) : IsPathText keyframes (String.ofList (program.text precision)) := by
  rw [List.range_eq_range'] at hvalues
  obtain ⟨hcalls, hplain⟩ := shapeSegments_eq hhandles hvalues List.drop_zero hne hfinite
  have hlength := (getElem?_of_mapM hcalls).1
  cases values with
  | nil => cases hcourse
  | cons first more =>
    rw [shapeCourse] at hcourse
    have hpositive : 0 < keyframes.length := by
      have hvaluesLength := (getElem?_of_mapM hvalues).1
      rw [List.length_cons, List.length_range'] at hvaluesLength
      omega
    rw [List.length_map, List.length_range'] at hlength
    split_ifs at hcourse
    · cases hcourse
    · cases hcourse
      refine ⟨term, vertex, axis, _, by rw [List.range_eq_range']; exact hcalls, ?_⟩
      rw [String.toList_ofList]
      exact Program.readAll?_text (List.ne_nil_of_length_pos (hlength ▸ hpositive))
        (fun segment hsegment ↦ (hplain segment hsegment).1)
        (fun segment hsegment ↦ (hplain segment hsegment).2) precision

/-- A coordinate is compiled to a number if it stays the same, and else registers its program. -/
theorem compileCoordinate_keeps (term : Term) (vertex : ℕ) (axis : Axis) :
    Compile.Keeps (EasingTable.HasOnly (IsPathText keyframes))
      (Follows keyframes term vertex axis)
      (compileCoordinate keyframes handles path term vertex axis) := by
  refine (Compile.keeps_lift fun values h ↦ coordinates_eq_ok h List.drop_zero).bind
    fun values hvalues ↦ (Compile.keeps_lift fun course h ↦ h).bind fun course hcourse ↦ ?_
  rw [← List.range_eq_range'] at hvalues
  refine (course.register_keeps ?_).imp ?_
  · rintro program rfl precision
    exact isPathText_of_moving hhandles hne hfinite hvalues hcourse precision
  · intro x hx
    cases values with
    | nil => cases hcourse
    | cons first more =>
      have hsteady := isSteady_iff hvalues hfinite
      rw [shapeCourse] at hcourse
      split_ifs at hcourse with hsame
      · cases hcourse
        cases hx
        have hfirst := (getElem?_of_mapM hvalues).2 0
        have hpositive : 0 < keyframes.length := by
          have hlength := (getElem?_of_mapM hvalues).1
          rw [List.length_cons, List.length_range] at hlength
          omega
        rw [List.getElem?_range hpositive, Option.bind_some] at hfirst
        exact ⟨iff_of_true rfl (hsteady.mpr hsame), fun _ ↦ ⟨first, hfirst.symm, rfl⟩⟩
      · cases hcourse
        have hx : x.isNumber = false := hx
        refine ⟨iff_of_false ?_ (mt hsteady.mp hsame), fun hnumber ↦ ?_⟩
        · rw [hx]
          exact Bool.false_ne_true
        · rw [hx] at hnumber
          cases hnumber

end Compile

/-- The coordinates of a term are compiled one by one. -/
theorem compileTerm_keeps (path : String) (term : Term) (count : ℕ)
    (hne : ∀ keyframe ∈ keyframes.dropLast, ∀ handle ∈ keyframe.handles, handle.numbers ≠ [])
    (hfinite : ∀ keyframe ∈ keyframes, ∀ x ∈ keyframe.numbers, x.isFinite = true) :
    Compile.Keeps (EasingTable.HasOnly (IsPathText keyframes)) (FollowTerm keyframes term count)
      (compileTerm keyframes term count path) := by
  refine (Compile.keeps_lift fun handles h ↦ h).bind fun handles hhandles ↦ ?_
  have hpoint (vertex : ℕ) : Compile.Keeps (EasingTable.HasOnly (IsPathText keyframes))
      (fun point ↦ ∃ x y, point = [x, y] ∧ Follows keyframes term vertex .x x ∧
        Follows keyframes term vertex .y y)
      (do
        let x ← compileCoordinate keyframes handles path term vertex .x
        let y ← compileCoordinate keyframes handles path term vertex .y
        return [x, y]) :=
    (compileCoordinate_keeps hhandles hne hfinite term vertex .x).bind fun x hx ↦
      (compileCoordinate_keeps hhandles hne hfinite term vertex .y).bind fun y hy ↦
        Compile.keeps_pure ⟨x, y, rfl, hx, hy⟩
  refine (Compile.keeps_mapM fun vertex _ ↦ hpoint vertex).imp fun points hpoints ↦ ?_
  obtain ⟨hlength, hget⟩ := List.forall₂_iff_get.mp hpoints
  rw [List.length_range] at hlength
  refine ⟨hlength.symm, fun vertex hvertex axis ↦ ?_⟩
  obtain ⟨x, y, hpoint, hx, hy⟩ :=
    hget vertex (by rwa [List.length_range]) (hlength ▸ hvertex)
  rw [List.get_eq_getElem, List.getElem_range] at hx hy
  rw [List.get_eq_getElem] at hpoint
  rw [List.getElem?_eq_getElem (hlength ▸ hvertex), Option.bind_some, hpoint]
  cases axis with
  | x => exact ⟨x, rfl, hx⟩
  | y => exact ⟨y, rfl, hy⟩

/-- The word and the count of numbers of a call, where handle coordinates are single numbers. -/
theorem shape_of_pathCallAt? {call : Call}
    (h : pathCallAt? keyframes term vertex axis n = some call)
    (hsingle : ∀ keyframe ∈ keyframes.dropLast, ∀ handle ∈ keyframe.handles,
      handle.numbers.length = 1) :
    if n + 1 = keyframes.length then call.word = "end" ∧ call.numbers.length = 2
    else call.word = "line" ∧ call.numbers.length = 2 ∨
      call.word = "curve" ∧ call.numbers.length = 6 := by
  obtain ⟨keyframe, hn, h⟩ := Option.bind_eq_some_iff.mp h
  obtain ⟨value, hvalue, h⟩ := Option.bind_eq_some_iff.mp h
  split_ifs at h ⊢ with hlast
  · cases h
    exact ⟨rfl, rfl⟩
  · obtain ⟨inward, hinward, h⟩ := Option.bind_eq_some_iff.mp h
    obtain ⟨outward, houtward, h⟩ := Option.bind_eq_some_iff.mp h
    split_ifs at h
    · cases h
      exact Or.inl ⟨rfl, rfl⟩
    · cases h
      have hcoordinates := hsingle keyframe (mem_dropLast_of_next hn hlast)
      have hlength : ∀ coordinate ∈ [outward.x, outward.y, inward.x, inward.y],
          coordinate.numbers.length = 1 := fun coordinate hcoordinate ↦
        hcoordinates coordinate (by simpa [ShapeKeyframe.handles, hinward, houtward] using hcoordinate)
      simp only [List.forall_mem_cons] at hlength
      obtain ⟨houtX, houtY, hinX, hinY, -⟩ := hlength
      exact Or.inr ⟨rfl, by simp [houtX, houtY, hinX, hinY]⟩

end Coordinates

/-- The points of an outline in a term. -/
def Outline.term (outline : Outline) : Term → List (List Scalar)
  | .inward => outline.inward
  | .outward => outline.outward
  | .position => outline.positions

/-- Whether a program has the calls for a coordinate of a vertex, one for each keyframe: the last one
ends the program, and the other ones lead on in a line or along a curve. -/
structure IsPathProgram (keyframes : List ShapeKeyframe) (term : Term) (vertex : ℕ) (axis : Axis)
    (program : String) (calls : List Call) : Prop where
  reads : Call.readAll? program.toList = some calls
  aligned : (List.range keyframes.length).mapM (pathCallAt? keyframes term vertex axis) =
    some calls
  length : calls.length = keyframes.length
  leading : ∀ call ∈ calls.dropLast, call.word = "line" ∧ call.numbers.length = 2 ∨
    call.word = "curve" ∧ call.numbers.length = 6
  last : ∃ call, calls.getLast? = some call ∧ call.word = "end" ∧ call.numbers.length = 2

section Shapes

variable {keyframes : List ShapeKeyframe}

/-- Where handle coordinates are single numbers, the program of a coordinate is well-formed. -/
theorem isPathProgram_of_isPathText {program : String} (h : IsPathText keyframes program)
    (hne : keyframes ≠ [])
    (hsingle : ∀ keyframe ∈ keyframes.dropLast, ∀ handle ∈ keyframe.handles,
      handle.numbers.length = 1) :
    ∃ term vertex axis calls, IsPathProgram keyframes term vertex axis program calls := by
  obtain ⟨term, vertex, axis, calls, haligned, hreads⟩ := h
  obtain ⟨hlength, hget⟩ := getElem?_of_mapM haligned
  rw [List.length_range] at hlength
  have hpositive : 0 < keyframes.length := List.length_pos_iff.mpr hne
  have hshape (n : ℕ) (hn : n < calls.length) :
      if n + 1 = keyframes.length then calls[n].word = "end" ∧ calls[n].numbers.length = 2
      else calls[n].word = "line" ∧ calls[n].numbers.length = 2 ∨
        calls[n].word = "curve" ∧ calls[n].numbers.length = 6 := by
    have hcall : pathCallAt? keyframes term vertex axis n = some calls[n] := by
      rw [← List.getElem?_eq_getElem hn, hget, List.getElem?_range (hlength ▸ hn), Option.bind_some]
    exact shape_of_pathCallAt? hcall hsingle
  refine ⟨term, vertex, axis, calls, hreads, haligned, hlength, fun call hcall ↦ ?_, ?_⟩
  · obtain ⟨n, hn, rfl⟩ := List.mem_iff_getElem.mp hcall
    rw [List.length_dropLast] at hn
    have hleading := hshape n (by omega)
    rw [if_neg (by omega)] at hleading
    rwa [List.getElem_dropLast]
  · have hend : keyframes.length - 1 < calls.length := by omega
    have hlast := hshape _ hend
    rw [if_pos (by omega)] at hlast
    refine ⟨_, ?_, hlast⟩
    rw [List.getLast?_eq_getElem?, hlength, List.getElem?_eq_getElem hend]

/-- An animated shape is compiled term by term; the first curve says how many vertices there are. -/
theorem compileShape_keeps [Validator] {shape : Animated} (path : String)
    (hanimated : shape.isAnimated = true) (hkeyframes : shape.shapeKeyframes = .ok keyframes)
    (hne : ∀ keyframe ∈ keyframes.dropLast, ∀ handle ∈ keyframe.handles, handle.numbers ≠ [])
    (hfinite : ∀ keyframe ∈ keyframes, ∀ x ∈ keyframe.numbers, x.isFinite = true) :
    Compile.Keeps (EasingTable.HasOnly (IsPathText keyframes))
      (fun outline ↦ ∃ curve, curveAt? keyframes 0 = some curve ∧
        ∀ term, FollowTerm keyframes term curve.vertices.length (outline.term term))
      (compileShape shape path) := by
  obtain ⟨curve, more, hstart, -, -⟩ := shapeKeyframes_eq_ok hanimated hkeyframes
  have hcurve : curveAt? keyframes 0 = some curve := by
    rw [curveAt?, ← List.head?_eq_getElem?, hstart]
    rfl
  have hterm (term : Term) := compileTerm_keeps path term curve.vertices.length hne hfinite
  rw [compileShape, if_pos hanimated]
  refine (Compile.keeps_lift (p := (· = keyframes)) fun found hfound ↦ ?_).bind ?_
  · rw [hkeyframes] at hfound
    exact (Except.ok.inj hfound).symm
  · rintro _ rfl
    rw [hstart]
    refine (Compile.keeps_lift (p := (· = curve)) fun first hfirst ↦ ?_).bind ?_
    · exact (Except.ok.inj hfirst).symm
    · rintro _ rfl
      refine (hterm .inward).bind fun inward hinward ↦ (hterm .outward).bind fun outward houtward ↦
        (hterm .position).bind fun positions hpositions ↦
          Compile.keeps_pure ⟨_, hcurve, fun term ↦ ?_⟩
      cases term with
      | inward => exact hinward
      | outward => exact houtward
      | position => exact hpositions

end Shapes

/-- An animated shape with finite numbers, whose handle coordinates are single numbers, brings
well-formed programs into an empty table and no other ones. A coordinate of its outline is a number
exactly if it has one value in all keyframes, and that number then. -/
theorem compileShape_wellFormed [Validator] {shape : Animated} {path : String}
    {precision : ℕ} {keyframes : List ShapeKeyframe} {outline : Outline} {table : EasingTable}
    (hanimated : shape.isAnimated = true) (hkeyframes : shape.shapeKeyframes = .ok keyframes)
    (hfinite : ∀ keyframe ∈ keyframes, ∀ x ∈ keyframe.numbers, x.isFinite = true)
    (hsingle : ∀ keyframe ∈ keyframes.dropLast, ∀ handle ∈ keyframe.handles,
      handle.numbers.length = 1)
    (hrun : (compileShape shape path).run.run (.empty precision) = (.ok outline, table)) :
    (∀ name program, table.get? name = some program →
      ∃ term vertex axis calls, IsPathProgram keyframes term vertex axis program calls) ∧
    ∃ curve, curveAt? keyframes 0 = some curve ∧
      ∀ term, FollowTerm keyframes term curve.vertices.length (outline.term term) := by
  have hne : ∀ keyframe ∈ keyframes.dropLast, ∀ handle ∈ keyframe.handles, handle.numbers ≠ [] :=
    fun keyframe hkeyframe handle hhandle ↦ List.ne_nil_of_length_pos
      (by rw [hsingle keyframe hkeyframe handle hhandle]; exact Nat.one_pos)
  have hkeyframesNe : keyframes ≠ [] := by
    obtain ⟨curve, more, hstart, -, -⟩ := shapeKeyframes_eq_ok hanimated hkeyframes
    rintro rfl
    cases hstart
  obtain ⟨honly, hfollow⟩ := compileShape_keeps path hanimated hkeyframes hne hfinite
    (.empty precision) table outline (List.forall_mem_nil _) hrun
  refine ⟨fun name program hget ↦ ?_, hfollow⟩
  exact isPathProgram_of_isPathText (honly _ (Entries.mem_of_get? hget)) hkeyframesNe hsingle

/-- A shape of one vertex that moves to the right, with the coordinate of its handles given as the
data. -/
def slidingShape (low high : Data) : Animated :=
  let number (i : ℤ) : Data := .num (.int i)
  let point (x : ℤ) : Data := .list [.list [number x, number 0]]
  let curve (x : ℤ) : Data := .list [.obj [("i", point 0), ("o", point 0), ("v", point x)]]
  ⟨1, .list [.obj [("t", number 0), ("s", curve 0), ("i", .obj [("x", low), ("y", high)]),
      ("o", .obj [("x", low), ("y", low)])],
    .obj [("t", number 10), ("s", curve 20)]]⟩

/-- Handles as numbers and as lists of one number. -/
theorem compileShape_wellFormed_sliding :
    let shape := slidingShape (.num (.int 0)) (.list [.num (.int 1)])
    let keyframes := (shape.shapeKeyframes.toOption).getD []
    let run := (compileShape shape "ks").run.run (.empty 3)
    shape.isAnimated = true ∧ shape.shapeKeyframes = .ok keyframes ∧
    (∀ keyframe ∈ keyframes, ∀ x ∈ keyframe.numbers, x.isFinite = true) ∧
    (∀ keyframe ∈ keyframes.dropLast, ∀ handle ∈ keyframe.handles, handle.numbers.length = 1) ∧
    ∃ outline, run.1 = .ok outline ∧
      (∀ name program, run.2.get? name = some program →
        ∃ term vertex axis calls, IsPathProgram keyframes term vertex axis program calls) ∧
      ∃ curve, curveAt? keyframes 0 = some curve ∧
        ∀ term, FollowTerm keyframes term curve.vertices.length (outline.term term) := by
  intro shape keyframes run
  have hkeyframes : shape.shapeKeyframes = .ok keyframes := by
    have hvalid : (shape.shapeKeyframes.toOption.any fun _ ↦ true) = true := by decide +kernel
    obtain ⟨found, hfound, -⟩ := Except.exists_of_any hvalid
    simp only [keyframes, hfound]
    rfl
  have hfinite : ∀ keyframe ∈ keyframes, ∀ x ∈ keyframe.numbers, x.isFinite = true := by
    decide +kernel
  have hsingle : ∀ keyframe ∈ keyframes.dropLast, ∀ handle ∈ keyframe.handles,
      handle.numbers.length = 1 := by decide +kernel
  have hcompiles : (run.1.toOption.any fun _ ↦ true) = true := by decide +kernel
  obtain ⟨outline, houtline, -⟩ := Except.exists_of_any hcompiles
  have hrun : (compileShape shape "ks").run.run (.empty 3) = (.ok outline, run.2) :=
    Compile.run_eq_ok (congrArg Except.toOption houtline) rfl
  exact ⟨rfl, hkeyframes, hfinite, hsingle, outline, houtline,
    compileShape_wellFormed rfl hkeyframes hfinite hsingle hrun⟩

/-- Handles as lists of two numbers make a call of ten. -/
theorem compileShape_longCall :
    let shape := slidingShape (.list [.num (.int 0), .num (.int 0)])
      (.list [.num (.int 1), .num (.int 1)])
    let keyframes := (shape.shapeKeyframes.toOption).getD []
    let run := (compileShape shape "ks").run.run (.empty 3)
    shape.isAnimated = true ∧ shape.shapeKeyframes.toOption = some keyframes ∧
    (∀ keyframe ∈ keyframes, ∀ x ∈ keyframe.numbers, x.isFinite = true) ∧
    run.1.toOption.isSome = true ∧
    run.2.get? "ease1" = some "curve(0,0,0,0,0,0,0,0,1,1) end(10,20)" ∧
    Call.readAll? "curve(0,0,0,0,0,0,0,0,1,1) end(10,20)".toList =
      some [⟨"curve", [0, 0, 0, 0, 0, 0, 0, 0, 1, 1]⟩, ⟨"end", [10, 20]⟩] := by
  decide +kernel

end Motion
