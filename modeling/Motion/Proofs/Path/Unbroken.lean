import Motion.Proofs.Easing.Table
import Motion.Proofs.Number.Text
import Motion.Proofs.Path.Trace

/-!
No coordinate of path data has a separator in its text. A number has none, and neither has an
expression, which is made of numbers and tokens; a token that a sound table gives is that of a number.
So a shape compiles to unbroken scalars (`compileShape_isUnbroken`), sums of them are unbroken, and the
commands that draw an outline have unbroken parameters only (`compilePathData_isTraced`).
-/

set_option autoImplicit false
set_option relaxedAutoImplicit false

namespace Motion

/-- The characters that separate words and coordinates in path data. -/
def isSeparator (c : Char) : Bool :=
  c == ' ' || c == ','

section Coordinates

theorem not_isSeparator_of_isNumberCharacter {c : Char} (h : isNumberCharacter c = true) :
    isSeparator c = false := by
  rw [isSeparator, Bool.or_eq_false_iff, beq_eq_false_iff_ne, beq_eq_false_iff_ne]
  constructor <;> rintro rfl <;> revert h <;> decide

/-- Whether a text has no separator in it. -/
def IsUnbroken (s : List Char) : Prop :=
  ∀ c ∈ s, isSeparator c = false

instance (s : List Char) : Decidable (IsUnbroken s) :=
  List.decidableBAll (fun c ↦ isSeparator c = false) s

theorem IsUnbroken.append {s t : List Char} (hs : IsUnbroken s) (ht : IsUnbroken t) :
    IsUnbroken (s ++ t) :=
  List.forall_mem_append.mpr ⟨hs, ht⟩

theorem IsUnbroken.not_mem_comma {s : List Char} (h : IsUnbroken s) : ',' ∉ s :=
  fun hmem ↦ by cases h ',' hmem

theorem IsUnbroken.not_mem_space {s : List Char} (h : IsUnbroken s) : ' ' ∉ s :=
  fun hmem ↦ by cases h ' ' hmem

theorem Number.isUnbroken_text (n : Number) : IsUnbroken n.text.toList := by
  rw [Number.text, String.toList_ofList]
  exact fun c hc ↦ not_isSeparator_of_isNumberCharacter (n.isNumberCharacter_of_mem_textChars c hc)

/-- Whether a scalar is a binary64 number or an expression without separators. -/
def Scalar.IsUnbroken : Scalar → Prop
  | literal value => ∃ x, value = .float x
  | expr text _ => Motion.IsUnbroken text.toList

namespace Scalar

theorem IsUnbroken.text {x : Scalar} (h : x.IsUnbroken) : Motion.IsUnbroken x.text.toList := by
  cases x with
  | literal value => exact value.isUnbroken_text
  | expr text slope => exact h

theorem isUnbroken_float (x : Binary64) : (literal (.float x)).IsUnbroken :=
  ⟨x, rfl⟩

/-- A sum is written with parentheses and a sign around the texts of its terms. -/
theorem IsUnbroken.add {x y z : Scalar} (hx : x.IsUnbroken) (hy : y.IsUnbroken)
    (h : x.add y = .ok z) : z.IsUnbroken := by
  have hcombine {z : Scalar} (h : x.combine? .add y = .ok z) : z.IsUnbroken := by
    obtain ⟨-, -, h⟩ := Except.bind_eq_ok h
    cases h
    have htext : (infixText x.text .add y.text).toList =
        ['('] ++ x.text.toList ++ ['+'] ++ y.text.toList ++ [')'] := by
      simp [infixText, Operator.symbol]
    change Motion.IsUnbroken (infixText x.text .add y.text).toList
    rw [htext]
    have hopening : Motion.IsUnbroken ['('] := by decide
    exact (((hopening.append hx.text).append (by decide)).append hy.text).append (by decide)
  unfold Scalar.add at h
  split_ifs at h
  · cases h
    exact hy
  · cases h
    exact hx
  · match x, y, hx, hy with
    | .literal _, .literal _, ⟨a, rfl⟩, ⟨b, rfl⟩ =>
      cases h
      exact isUnbroken_float _
    | .literal _, .expr .., _, _ => exact hcombine h
    | .expr .., .literal _, _, _ => exact hcombine h
    | .expr .., .expr .., _, _ => exact hcombine h

/-- The scalar that reads an easing, if its token is none or that of a number. -/
theorem isUnbroken_ofToken {token : String} (h : token = "" ∨ ∃ n, token = tokenOf (easeName n)) :
    (ofToken token).IsUnbroken := by
  have htoken : Motion.IsUnbroken token.toList := by
    rcases h with rfl | ⟨n, rfl⟩
    · exact List.forall_mem_nil _
    · rw [toList_token, tokenChars]
      refine IsUnbroken.append (by decide) fun c hc ↦ ?_
      exact not_isSeparator_of_isNumberCharacter (isNumberCharacter_of_isDigit
        (Nat.isDigit_of_mem_toDigits (by decide) (by decide) hc))
  rw [ofToken, IsUnbroken, String.toList_append]
  exact htoken.append (by decide)

end Scalar

end Coordinates

/-- The token of a program that is registered is that of a number, or none for the empty program. -/
theorem History.IsSound.token_add {history : History} (h : history.IsSound) (program : String) :
    (history.table.add program).2 = "" ∨
      ∃ n, (history.table.add program).2 = tokenOf (easeName n) := by
  by_cases hne : program = ""
  · rw [hne, EasingTable.add_empty]
    exact Or.inl rfl
  · obtain ⟨name, -, htoken, hget⟩ := h.add_spec hne
    have hafter := h.add program
    have hname : name ∈ (history.after (.add program)).table.names :=
      EasingTable.mem_names.mpr ⟨program, hget⟩
    obtain ⟨n, -, -, rfl⟩ := hafter.numbered name (hafter.registered name hname)
    exact Or.inr ⟨n, htoken⟩

/-- Whether a table is one that a run leads to. -/
def EasingTable.IsSound (table : EasingTable) : Prop :=
  ∃ minted, (History.mk table minted).IsSound

theorem EasingTable.isSound_run (precision : ℕ) (events : List TableEvent) :
    ((EasingTable.empty precision).run events).IsSound := by
  have hsound := (History.isSound_empty precision).run events
  rw [← History.table_run ⟨.empty precision, []⟩ events]
  exact ⟨_, hsound⟩

/-- Whether all coordinates of points are unbroken. -/
def AreUnbroken (points : List (List Scalar)) : Prop :=
  ∀ point ∈ points, ∀ x ∈ point, x.IsUnbroken

/-- Whether all coordinates of an outline are unbroken. -/
structure Outline.IsUnbroken (outline : Outline) : Prop where
  inward : AreUnbroken outline.inward
  outward : AreUnbroken outline.outward
  positions : AreUnbroken outline.positions

section Compiling

variable {path : String}

theorem register_isUnbroken (course : Course) :
    Compile.Keeps EasingTable.IsSound Scalar.IsUnbroken course.register := by
  intro table next x hsound hrun
  rw [Course.run_register] at hrun
  cases course with
  | constant value =>
    cases hrun
    exact ⟨hsound, Scalar.isUnbroken_float value⟩
  | moving program =>
    cases hrun
    obtain ⟨minted, hsound⟩ := hsound
    exact ⟨⟨_, hsound.add _⟩, Scalar.isUnbroken_ofToken (hsound.token_add _)⟩

theorem compileTerm_isUnbroken (keyframes : List ShapeKeyframe) (term : Term) (count : ℕ) :
    Compile.Keeps EasingTable.IsSound AreUnbroken (compileTerm keyframes term count path) := by
  have hcoordinate (handles : List Handles) (vertex : ℕ) (axis : Axis) :
      Compile.Keeps EasingTable.IsSound Scalar.IsUnbroken
        (compileCoordinate keyframes handles path term vertex axis) :=
    (Compile.keeps_lift (p := fun _ ↦ True) fun _ _ ↦ trivial).bind fun values _ ↦
      (Compile.keeps_lift (p := fun _ ↦ True) fun _ _ ↦ trivial).bind fun course _ ↦
        register_isUnbroken course
  have hpoint (handles : List Handles) (vertex : ℕ) :
      Compile.Keeps EasingTable.IsSound (fun point ↦ ∀ x ∈ point, Scalar.IsUnbroken x)
        (do
          let x ← compileCoordinate keyframes handles path term vertex .x
          let y ← compileCoordinate keyframes handles path term vertex .y
          return [x, y]) :=
    (hcoordinate handles vertex .x).bind fun x hx ↦ (hcoordinate handles vertex .y).bind fun y hy ↦
      Compile.keeps_pure (by simp [hx, hy])
  refine (Compile.keeps_lift (p := fun _ ↦ True) fun _ _ ↦ trivial).bind fun handles _ ↦
    (Compile.keeps_mapM fun vertex _ ↦ hpoint handles vertex).imp fun points hpoints ↦ ?_
  have hpair := hpoints.flip.imp fun _ _ h ↦ And.intro h trivial
  exact ((List.forall₂_and_left _ _).mp hpair).1

theorem Curve.isUnbroken_outline (curve : Curve) : curve.outline.IsUnbroken := by
  have hpoints (point : Vertex → Point) :
      AreUnbroken (curve.vertices.map fun v ↦ (point v).scalars) := by
    intro scalars hscalars
    obtain ⟨vertex, -, rfl⟩ := List.mem_map.mp hscalars
    simp [Point.scalars, Scalar.isUnbroken_float]
  exact ⟨hpoints _, hpoints _, hpoints _⟩

theorem compileShape_isUnbroken [Validator] (shape : Animated) :
    Compile.Keeps EasingTable.IsSound Outline.IsUnbroken (compileShape shape path) := by
  rw [compileShape]
  by_cases hanimated : shape.isAnimated = true
  · rw [if_pos hanimated]
    refine (Compile.keeps_lift (p := fun _ ↦ True) fun _ _ ↦ trivial).bind fun keyframes _ ↦
      (Compile.keeps_lift (p := fun _ ↦ True) fun _ _ ↦ trivial).bind fun first _ ↦
        (compileTerm_isUnbroken keyframes .inward _).bind fun inward hinward ↦
          (compileTerm_isUnbroken keyframes .outward _).bind fun outward houtward ↦
            (compileTerm_isUnbroken keyframes .position _).bind fun positions hpositions ↦
              Compile.keeps_pure ⟨hinward, houtward, hpositions⟩
  · rw [if_neg hanimated]
    exact (Compile.keeps_lift (p := fun _ ↦ True) fun _ _ ↦ trivial).bind fun curve _ ↦
      Compile.keeps_pure curve.isUnbroken_outline

end Compiling

/-- Whether a parameter is an unbroken scalar as it is embedded. -/
def Data.IsUnbroken (value : Data) : Prop :=
  ∃ x : Scalar, x.IsUnbroken ∧ value = x.embed

/-- Whether a command is one that tracing gives, with unbroken parameters. -/
inductive PathCommand.IsTraced : PathCommand → Prop where
  | moveTo {x y : Data} (hx : x.IsUnbroken) (hy : y.IsUnbroken) : IsTraced (.moveTo x y)
  | curveTo {x1 y1 x2 y2 x y : Data} (hx1 : x1.IsUnbroken) (hy1 : y1.IsUnbroken)
      (hx2 : x2.IsUnbroken) (hy2 : y2.IsUnbroken) (hx : x.IsUnbroken) (hy : y.IsUnbroken) :
      IsTraced (.curveTo x1 y1 x2 y2 x y)
  | close : IsTraced .close

section Tracing

variable {outline : Outline}

/-- Whether both scalars of a point are unbroken. -/
structure ScalarPoint.IsUnbroken (point : ScalarPoint) : Prop where
  x : point.x.IsUnbroken
  y : point.y.IsUnbroken

theorem itemAt_eq_ok {α : Type} {items : List α} {n : ℕ} {item : α}
    (h : itemAt items n = .ok item) : item ∈ items := by
  unfold itemAt at h
  split at h
  · rename_i hget
    cases h
    exact List.mem_of_getElem? hget
  · cases h

/-- The coordinates of a vertex are read like those of any point. -/
theorem ScalarPoint.ofList_of_ofVertex {coordinates : List Scalar} {point : ScalarPoint}
    (h : ofVertex coordinates = .ok point) : ofList coordinates = .ok point := by
  unfold ofVertex at h
  split at h
  · exact h
  · cases h

theorem AreUnbroken.ofList {points : List (List Scalar)} (h : AreUnbroken points)
    {coordinates : List Scalar} (hmem : coordinates ∈ points) {point : ScalarPoint}
    (hpoint : ScalarPoint.ofList coordinates = .ok point) : point.IsUnbroken := by
  unfold ScalarPoint.ofList at hpoint
  split at hpoint
  · cases hpoint
    exact ⟨h _ hmem _ (by simp), h _ hmem _ (by simp)⟩
  · cases hpoint

theorem ScalarPoint.IsUnbroken.plus {vertex point : ScalarPoint} (h : vertex.IsUnbroken)
    {tangent : List Scalar} (htangent : ∀ x ∈ tangent, x.IsUnbroken)
    (hpoint : vertex.plus tangent = .ok point) : point.IsUnbroken := by
  have hitem {n : ℕ} {x : Scalar} (hx : (tangent[n]?).elim (.error .noItem) .ok =
      (.ok x : Except Fault Scalar)) : x.IsUnbroken := by
    cases hget : tangent[n]? with
    | none =>
      rw [hget] at hx
      cases hx
    | some found =>
      rw [hget] at hx
      cases hx
      exact htangent _ (List.mem_of_getElem? hget)
  obtain ⟨dx, hdx, hpoint⟩ := Except.bind_eq_ok hpoint
  obtain ⟨x, hx, hpoint⟩ := Except.bind_eq_ok hpoint
  obtain ⟨dy, hdy, hpoint⟩ := Except.bind_eq_ok hpoint
  obtain ⟨y, hy, hpoint⟩ := Except.bind_eq_ok hpoint
  cases hpoint
  exact ⟨h.x.add (hitem hdx) hx, h.y.add (hitem hdy) hy⟩

theorem Scalar.IsUnbroken.embed {x : Scalar} (h : x.IsUnbroken) : x.embed.IsUnbroken :=
  ⟨x, h, rfl⟩

/-- A segment adds one curve, whose parameters are unbroken. -/
theorem Outline.IsUnbroken.traceSegment (h : outline.IsUnbroken) {trace traced : Trace} {j : ℕ}
    (hsegment : outline.traceSegment trace j = .ok traced) :
    ∃ curve, traced.commands = trace.commands ++ [curve] ∧ curve.IsTraced := by
  obtain ⟨vertex, hvertex, hsegment⟩ := Except.bind_eq_ok hsegment
  obtain ⟨start, hstart, hsegment⟩ := Except.bind_eq_ok hsegment
  obtain ⟨out, hout, hsegment⟩ := Except.bind_eq_ok hsegment
  obtain ⟨leaving, hleaving, hsegment⟩ := Except.bind_eq_ok hsegment
  obtain ⟨next, hnext, hsegment⟩ := Except.bind_eq_ok hsegment
  obtain ⟨finish, hfinish, hsegment⟩ := Except.bind_eq_ok hsegment
  obtain ⟨into, hinto, hsegment⟩ := Except.bind_eq_ok hsegment
  obtain ⟨arriving, harriving, hsegment⟩ := Except.bind_eq_ok hsegment
  -- The box is grown or left out; either way the commands are the same.
  have hcommands : traced.commands = trace.commands ++ [.curveTo leaving.x.embed leaving.y.embed
      arriving.x.embed arriving.y.embed finish.x.embed finish.y.embed] := by
    dsimp only at hsegment
    split at hsegment
    · cases hsegment
      rfl
    · obtain ⟨first, -, hsegment⟩ := Except.bind_eq_ok hsegment
      obtain ⟨second, -, hsegment⟩ := Except.bind_eq_ok hsegment
      obtain ⟨third, -, hsegment⟩ := Except.bind_eq_ok hsegment
      cases hsegment
      rfl
  have hstart' := h.positions.ofList (itemAt_eq_ok hvertex) (ScalarPoint.ofList_of_ofVertex hstart)
  have hfinish' := h.positions.ofList (itemAt_eq_ok hnext) (ScalarPoint.ofList_of_ofVertex hfinish)
  have hleaving' := hstart'.plus (h.outward _ (itemAt_eq_ok hout)) hleaving
  have harriving' := hfinish'.plus (h.inward _ (itemAt_eq_ok hinto)) harriving
  exact ⟨_, hcommands, .curveTo hleaving'.x.embed hleaving'.y.embed harriving'.x.embed harriving'.y.embed
    hfinish'.x.embed hfinish'.y.embed⟩

theorem Outline.IsUnbroken.traceSegments (h : outline.IsUnbroken) {segments : List ℕ}
    {trace traced : Trace} (hcommands : ∀ command ∈ trace.commands, command.IsTraced)
    (hsegments : segments.foldlM outline.traceSegment trace = .ok traced) :
    ∀ command ∈ traced.commands, command.IsTraced := by
  induction segments generalizing trace with
  | nil =>
    cases hsegments
    exact hcommands
  | cons j rest ih =>
    rw [List.foldlM_cons] at hsegments
    obtain ⟨next, hnext, hsegments⟩ := Except.bind_eq_ok hsegments
    obtain ⟨curve, hcurve, htraced⟩ := h.traceSegment hnext
    refine ih ?_ hsegments
    rw [hcurve]
    exact List.forall_mem_append.mpr ⟨hcommands, List.forall_mem_singleton.mpr htraced⟩

/-- The commands that draw an outline have unbroken parameters. -/
theorem Outline.IsUnbroken.trace (h : outline.IsUnbroken) {moving : Bool} {trace : Trace}
    (htrace : outline.trace moving = .ok trace) :
    ∀ command ∈ trace.commands, command.IsTraced := by
  unfold Outline.trace at htrace
  dsimp only at htrace
  split at htrace
  · cases htrace
    exact List.forall_mem_nil _
  · rename_i vertex rest hpositions
    obtain ⟨first, hfirst, htrace⟩ := Except.bind_eq_ok htrace
    have hpoint := h.positions.ofList (hpositions ▸ List.mem_cons_self) hfirst
    have hmove : ∀ command ∈ [PathCommand.moveTo first.x.embed first.y.embed], command.IsTraced :=
      List.forall_mem_singleton.mpr (.moveTo hpoint.x.embed hpoint.y.embed)
    have hclosing {traced : Trace} (hcommands : ∀ command ∈ traced.commands, command.IsTraced) :
        ∀ command ∈ (if outline.closed then
          { traced with commands := traced.commands ++ [.close] } else traced).commands,
          command.IsTraced := by
      split
      · exact List.forall_mem_append.mpr ⟨hcommands, List.forall_mem_singleton.mpr .close⟩
      · exact hcommands
    split at htrace
    · rw [Except.ok_bind] at htrace
      obtain ⟨traced, htraced, htrace⟩ := Except.bind_eq_ok htrace
      cases htrace
      exact hclosing (h.traceSegments hmove htraced)
    · obtain ⟨bounds, -, htrace⟩ := Except.bind_eq_ok htrace
      obtain ⟨traced, htraced, htrace⟩ := Except.bind_eq_ok htrace
      cases htrace
      exact hclosing (h.traceSegments hmove htraced)

theorem Data.compilePathData_isTraced [Validator] (data : Data) (path : String) :
    Compile.Keeps EasingTable.IsSound (fun trace ↦ ∀ command ∈ trace.commands, command.IsTraced)
      (compilePathData data path) :=
  (Compile.keeps_lift (p := fun _ ↦ True) fun _ _ ↦ trivial).bind fun shape _ ↦
    (compileShape_isUnbroken shape).bind fun outline houtline ↦
      Compile.keeps_lift fun trace htrace ↦ by
        cases htraced : outline.trace shape.isAnimated with
        | ok found =>
          rw [htraced] at htrace
          cases htrace
          exact houtline.trace htraced
        | error fault =>
          rw [htraced] at htrace
          cases htrace

end Tracing

end Motion
