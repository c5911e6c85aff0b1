import Motion.Proofs.Easing.Encoding
import Motion.Proofs.Easing.Shape

/-!
Where the faults of scalar arithmetic are attributed to. Nothing in a compilation meets one but the
taking of a fixed value as a scalar, and this is always within the property at a path. So none is left
bare, and one is attributed to a property exactly where a value of the property is refused
(`Compile.Attributes`). A component of an animated property and a coordinate of a shape meet none at
all.
-/

set_option autoImplicit false
set_option relaxedAutoImplicit false

namespace Motion

namespace Fault

variable {path : String} {fault : Fault}

/-- Whether a fault is none of scalar arithmetic, neither bare nor attributed to a property. -/
def IsPlain : Fault → Prop
  | arithmetic _ => False
  | property _ _ => False
  | _ => True

/-- Whether a fault is not attributed to a property. -/
def IsBare : Fault → Prop
  | property _ _ => False
  | _ => True

theorem IsOfShape.isPlain (h : fault.IsOfShape path) : fault.IsPlain := by
  cases h <;> trivial

theorem IsPlain.within_eq (h : fault.IsPlain) (path : String) : fault.within path = fault := by
  cases fault <;> first | rfl | cases h

/-- A fault stays with the innermost property that it happens in. -/
theorem within_within (fault : Fault) (inner outer : String) :
    (fault.within inner).within outer = fault.within inner := by
  cases fault <;> rfl

end Fault

section Plain

variable {α : Type}

theorem isPlain_validated (checked : Checked α) : FaultsOnly Fault.IsPlain (validated checked) := by
  intro fault hfault
  cases checked with
  | ok a => cases hfault
  | error issues =>
    cases hfault
    trivial

theorem attributed_of_isPlain {result : Except Fault α} (h : FaultsOnly Fault.IsPlain result)
    (path : String) : attributed path result = result := by
  cases result with
  | ok a => rfl
  | error fault => exact congrArg Except.error ((h fault rfl).within_eq path)

theorem isPlain_error {fault : Fault} (h : fault.IsPlain) :
    FaultsOnly Fault.IsPlain (.error fault : Except Fault α) := by
  intro other hother
  cases hother
  exact h

theorem isPlain_pick (index : ℤ) (values : List Binary64) :
    FaultsOnly Fault.IsPlain (pick index values) := by
  unfold pick
  dsimp only
  split
  · exact faultsOnly_ok _
  · exact isPlain_error trivial

theorem isPlain_pickHandle (index : ℤ) (handle : Handle) :
    FaultsOnly Fault.IsPlain (handle.pick index) := by
  cases handle with
  | one value => exact faultsOnly_ok _
  | each values => exact faultsOnly_map _ (isPlain_pick index values)

theorem isPlain_pickHandles (index : ℤ) (outward inward : Tangent) :
    FaultsOnly Fault.IsPlain (pickHandles index outward inward) :=
  faultsOnly_bind (isPlain_pickHandle _ _) fun _ _ ↦
    faultsOnly_bind (isPlain_pickHandle _ _) fun _ _ ↦
      faultsOnly_bind (isPlain_pickHandle _ _) fun _ _ ↦
        faultsOnly_bind (isPlain_pickHandle _ _) fun _ _ ↦ faultsOnly_ok _

theorem isPlain_allStartWith (index : ℤ) (value : Binary64) (keyframes : List Keyframe) :
    FaultsOnly Fault.IsPlain (allStartWith index value keyframes) := by
  induction keyframes with
  | nil => exact faultsOnly_ok _
  | cons keyframe rest ih =>
    rw [allStartWith]
    split
    · exact faultsOnly_ok _
    · refine faultsOnly_bind (isPlain_pick _ _) fun start _ ↦ ?_
      split_ifs
      · exact ih
      · exact faultsOnly_ok _

theorem isPlain_checkPlaces (precision : ℕ) (vectors : List (List Binary64)) :
    FaultsOnly Fault.IsPlain (checkPlaces precision vectors) := by
  unfold checkPlaces
  split_ifs
  · exact faultsOnly_ok _
  · exact isPlain_error trivial

theorem isPlain_spatialSegments (precision : ℕ) (index : ℤ) (path : String) (n : ℕ)
    (last : List Binary64) (keyframes : List Keyframe) :
    FaultsOnly Fault.IsPlain (spatialSegments precision index path n last keyframes) := by
  induction keyframes generalizing n last with
  | nil => exact faultsOnly_ok _
  | cons keyframe rest ih =>
    have hsegment (start : List Binary64) : FaultsOnly Fault.IsPlain
        (spatialSegment precision index path n rest.isEmpty start keyframe) := by
      unfold spatialSegment
      split_ifs
      · exact faultsOnly_ok _
      · split
        · exact faultsOnly_bind (isPlain_checkPlaces _ _) fun _ _ ↦
            faultsOnly_bind (isPlain_pickHandles _ _ _) fun _ _ ↦ faultsOnly_ok _
        · exact isPlain_error trivial
    exact faultsOnly_bind (isPlain_checkPlaces _ _) fun _ _ ↦
      faultsOnly_bind (hsegment _) fun _ _ ↦ faultsOnly_bind (isPlain_checkPlaces _ _) fun _ _ ↦
        faultsOnly_bind (ih _ _) fun _ _ ↦ faultsOnly_ok _

theorem isPlain_plainSegments (index : ℤ) (reversed : Bool) (path : String) (n : ℕ) (last : Binary64)
    (keyframes : List Keyframe) :
    FaultsOnly Fault.IsPlain (plainSegments index reversed path n last keyframes) := by
  induction keyframes generalizing n last with
  | nil => exact faultsOnly_ok _
  | cons keyframe rest ih =>
    have hsegment (value : Binary64) : FaultsOnly Fault.IsPlain
        (plainSegment index reversed path n rest.isEmpty value keyframe) := by
      unfold plainSegment
      by_cases hlast : rest.isEmpty = true
      · rw [if_pos hlast]
        exact faultsOnly_ok _
      · rw [if_neg hlast]
        split
        · exact faultsOnly_bind (isPlain_pickHandles _ _ _) fun _ _ ↦ faultsOnly_ok _
        · exact isPlain_error trivial
        · exact faultsOnly_ok _
    have hpicked (values? : Option (List Binary64)) (other : Binary64) :
        FaultsOnly Fault.IsPlain (pickOr index values? other) := by
      cases values? with
      | none => exact faultsOnly_ok _
      | some values => exact isPlain_pick _ _
    rw [plainSegments_cons]
    exact faultsOnly_bind (hpicked _ _) fun _ _ ↦ faultsOnly_bind (hsegment _) fun _ _ ↦
      faultsOnly_bind (hpicked _ _) fun _ _ ↦ faultsOnly_bind (ih _ _) fun _ _ ↦ faultsOnly_ok _

/-- The course of a component meets no fault of scalar arithmetic. -/
theorem isPlain_courseOf (precision : ℕ) (keyframes : List Keyframe) (count index : ℤ)
    (reversed : Bool) (path : String) :
    FaultsOnly Fault.IsPlain (courseOf precision keyframes count index reversed path) := by
  unfold courseOf
  split
  · exact isPlain_error trivial
  · split
    · exact isPlain_error trivial
    · exact isPlain_error trivial
    · refine faultsOnly_bind (isPlain_pick _ _) fun value _ ↦
        faultsOnly_bind (isPlain_allStartWith _ _ _) fun isConstant _ ↦ ?_
      split_ifs
      · exact faultsOnly_ok _
      · exact faultsOnly_bind (isPlain_spatialSegments _ _ _ _ _ _) fun _ _ ↦ faultsOnly_ok _
      · exact faultsOnly_bind (isPlain_plainSegments _ _ _ _ _ _) fun _ _ ↦ faultsOnly_ok _

end Plain

namespace Compile

variable {α β : Type} {x : Compile α} {f : α → Compile β} {table next : EasingTable}

/-- The conditions under which, on a table, a fault is attributed to the property at a path. -/
abbrev Blame := EasingTable → String → ArithmeticFault → Prop

/-- Whether a compilation leaves no fault of scalar arithmetic bare, and attributes one to the property
at a path exactly where a condition holds. -/
structure Attributes (blame : Blame) (x : Compile α) : Prop where
  bare : ∀ table cause, (x.run.run table).1 ≠ .error (.arithmetic cause)
  blamed : ∀ table path cause,
    (x.run.run table).1 = .error (.property path cause) ↔ blame table path cause

/-- What holds of the outcome of a compilation that has a result. -/
theorem exists_run_of_ok {a : α} {p : α → EasingTable → Prop} (h : x.run.run table = (.ok a, next)) :
    (∃ b between, x.run.run table = (.ok b, between) ∧ p b between) ↔ p a next := by
  constructor
  · rintro ⟨b, between, hrun, hp⟩
    cases h.symm.trans hrun
    exact hp
  · exact fun hp ↦ ⟨a, next, h, hp⟩

theorem not_exists_run_of_error {fault : Fault} {p : α → EasingTable → Prop}
    (h : x.run.run table = (.error fault, next)) :
    ¬ ∃ a between, x.run.run table = (.ok a, between) ∧ p a between := by
  rintro ⟨a, between, hrun, -⟩
  cases h.symm.trans hrun

theorem run_bind_eq_ok {b : β} : (x >>= f).run.run table = (.ok b, next) ↔
    ∃ a between, x.run.run table = (.ok a, between) ∧ (f a).run.run between = (.ok b, next) := by
  rcases hrun : x.run.run table with ⟨result, between⟩
  cases result with
  | ok a => rw [run_bind_ok hrun, ← hrun, exists_run_of_ok hrun]
  | error fault =>
    rw [run_bind_error hrun, ← hrun]
    refine ⟨fun h ↦ (by cases h), fun h ↦ absurd h (not_exists_run_of_error hrun)⟩

/-- Whether on a table a compilation has a result, and leaves another table. -/
def Reaches (x : Compile α) (table next : EasingTable) : Prop :=
  ∃ a, x.run.run table = (.ok a, next)

theorem reaches_pure (a : α) : Reaches (pure a) table next ↔ next = table := by
  constructor
  · rintro ⟨b, hrun⟩
    cases hrun
    rfl
  · rintro rfl
    exact ⟨a, rfl⟩

theorem reaches_lift (result : Except Fault α) :
    Reaches (lift result) table next ↔ (∃ a, result = .ok a) ∧ next = table := by
  constructor
  · rintro ⟨a, hrun⟩
    rw [run_lift] at hrun
    cases hrun
    exact ⟨⟨a, rfl⟩, rfl⟩
  · rintro ⟨⟨a, rfl⟩, rfl⟩
    exact ⟨a, run_lift _ _⟩

theorem reaches_bind : Reaches (x >>= f) table next ↔
    ∃ a between, x.run.run table = (.ok a, between) ∧ Reaches (f a) between next := by
  constructor
  · rintro ⟨b, hrun⟩
    obtain ⟨a, between, hx, hf⟩ := run_bind_eq_ok.mp hrun
    exact ⟨a, between, hx, b, hf⟩
  · rintro ⟨a, between, hx, b, hf⟩
    exact ⟨b, run_bind_eq_ok.mpr ⟨a, between, hx, hf⟩⟩

/-- The same where the table that the second leaves does not depend on the result of the first. -/
theorem reaches_andThen {reached : EasingTable → Prop}
    (h : ∀ a between, Reaches (f a) between next ↔ reached between) :
    Reaches (x >>= f) table next ↔ ∃ between, Reaches x table between ∧ reached between := by
  rw [reaches_bind]
  constructor
  · rintro ⟨a, between, hx, hf⟩
    exact ⟨between, ⟨a, hx⟩, (h a between).mp hf⟩
  · rintro ⟨between, ⟨a, hx⟩, hreached⟩
    exact ⟨a, between, hx, (h a between).mpr hreached⟩

section Attributes

variable {blame other : Blame} {q : α → Prop}

theorem ends_lift_of_isPlain {result : Except Fault α} (h : FaultsOnly Fault.IsPlain result) :
    Ends Fault.IsPlain (fun _ ↦ True) (lift result) :=
  ends_lift h fun _ _ ↦ trivial

theorem Attributes.congr (h : Attributes blame x)
    (hsame : ∀ table path cause, blame table path cause ↔ other table path cause) :
    Attributes other x where
  bare := h.bare
  blamed := fun table path cause ↦ (h.blamed table path cause).trans (hsame table path cause)

/-- A compilation that meets no fault of scalar arithmetic has none to attribute. -/
theorem Ends.attributes (h : Ends Fault.IsPlain q x) : Attributes (fun _ _ _ ↦ False) x := by
  constructor
  · intro table cause hrun
    have hends := h table
    rw [hrun] at hends
    exact hends
  · refine fun table path cause ↦ ⟨fun hrun ↦ ?_, False.elim⟩
    have hends := h table
    rw [hrun] at hends
    exact hends

/-- Of two compilations in turn the second has faults to attribute only where it is begun. -/
theorem Attributes.bind {blames : α → Blame} (hx : Attributes blame x)
    (hf : ∀ a, Attributes (blames a) (f a)) :
    Attributes (fun table path cause ↦ blame table path cause ∨
      ∃ a next, x.run.run table = (.ok a, next) ∧ blames a next path cause) (x >>= f) := by
  constructor
  · intro table cause
    rcases hrun : x.run.run table with ⟨result, next⟩
    cases result with
    | ok a =>
      rw [run_bind_ok hrun]
      exact (hf a).bare next cause
    | error fault =>
      rw [run_bind_error hrun]
      have hbare := hx.bare table cause
      rw [hrun] at hbare
      exact fun h ↦ hbare (congrArg Except.error (Except.error.inj h))
  · intro table path cause
    have hblamed := hx.blamed table path cause
    rcases hrun : x.run.run table with ⟨result, next⟩
    rw [hrun] at hblamed
    cases result with
    | ok a =>
      rw [run_bind_ok hrun, (hf a).blamed, ← hrun, exists_run_of_ok hrun]
      refine ⟨Or.inr, fun h ↦ h.resolve_left fun hfirst ↦ ?_⟩
      cases hblamed.mpr hfirst
    | error fault =>
      rw [run_bind_error hrun, ← hrun, or_iff_left (not_exists_run_of_error hrun), ← hblamed,
        Except.error.injEq, Except.error.injEq]

/-- The same where the faults of the second do not depend on the result of the first. -/
theorem Attributes.andThen (hx : Attributes blame x) (hf : ∀ a, Attributes other (f a)) :
    Attributes (fun table path cause ↦ blame table path cause ∨
      ∃ next, Reaches x table next ∧ other next path cause) (x >>= f) := by
  refine (hx.bind hf).congr fun table path cause ↦ or_congr_right ?_
  constructor
  · rintro ⟨a, next, hrun, h⟩
    exact ⟨next, ⟨a, hrun⟩, h⟩
  · rintro ⟨next, ⟨a, hrun⟩, h⟩
    exact ⟨a, next, hrun, h⟩

/-- What follows a compilation and meets no fault of scalar arithmetic changes nothing about its
faults. -/
theorem Attributes.bind_plain (hx : Attributes blame x) {q : β → Prop}
    (hf : ∀ a, Ends Fault.IsPlain q (f a)) : Attributes blame (x >>= f) := by
  refine (hx.bind fun a ↦ (hf a).attributes).congr fun table path cause ↦ ?_
  simp

theorem Attributes.bind_pure (hx : Attributes blame x) (g : α → β) :
    Attributes blame (do return g (← x)) :=
  hx.bind_plain fun _ ↦ ends_pure (p := fun _ ↦ True) trivial

theorem attributes_pure (a : α) : Attributes (fun _ _ _ ↦ False) (pure a) :=
  (ends_pure (p := fun _ ↦ True) trivial).attributes

/-- Before a compilation comes a computation that registers nothing and meets no fault of scalar
arithmetic. -/
theorem attributes_lift_bind {result : Except Fault α} {blames : α → Blame}
    (hresult : FaultsOnly Fault.IsPlain result) (hf : ∀ a, Attributes (blames a) (f a)) :
    Attributes (fun table path cause ↦ ∃ a, result = .ok a ∧ blames a table path cause)
      (lift result >>= f) := by
  refine ((ends_lift_of_isPlain hresult).attributes.bind hf).congr fun table path cause ↦ ?_
  rw [false_or]
  constructor
  · rintro ⟨a, next, hrun, h⟩
    rw [run_lift] at hrun
    cases hrun
    exact ⟨a, rfl, h⟩
  · rintro ⟨a, rfl, h⟩
    exact ⟨a, table, rfl, h⟩

end Attributes

end Compile

section Refusals

/-- The cause of the fault of scalar arithmetic that a computation ends with, if it does. -/
def refusal? {α : Type} : Except Fault α → Option ArithmeticFault
  | .error (.arithmetic cause) => some cause
  | _ => none

/-- Why a value is refused as a scalar, if it is. -/
def Data.refusal? (value : Data) : Option ArithmeticFault :=
  Motion.refusal? (Scalar.ofData value none)

/-- Why the fixed value of a property of one component is refused. Of a list the only item counts. -/
def Animated.singleRefusal? (property : Animated) : Option ArithmeticFault :=
  if property.isAnimated then none
  else
    match property.content with
    | .list [value] => value.refusal?
    | value => value.refusal?

/-- Why the fixed values of a property are refused: the first that is no scalar has its value refused,
or has one that cannot even be shown. -/
def Animated.multipleRefusal? (property : Animated) : Option ArithmeticFault :=
  if property.isAnimated then none
  else
    match property.content with
    | .list values => refusal? (values.mapM (Scalar.ofData · none))
    | value => value.refusal?

variable [Validator]

/-- Why the fixed value of a property of one component, given as data, is refused. -/
def Data.singleRefusal? (data : Data) : Option ArithmeticFault :=
  (Validator.animated data).toOption.bind Animated.singleRefusal?

/-- Why the fixed values of a property, given as data, are refused. -/
def Data.multipleRefusal? (data : Data) : Option ArithmeticFault :=
  (Validator.animated data).toOption.bind Animated.multipleRefusal?

end Refusals

section Values

open Compile

theorem isBare_ofData (value : Data) : FaultsOnly Fault.IsBare (Scalar.ofData value none) := by
  cases value with
  | num n => exact faultsOnly_ok _
  | str s => exact faultsOnly_ok _
  | _ =>
    intro fault hfault
    cases hfault
    unfold Data.refusedAs
    split_ifs <;> trivial

/-- Within a property, a computation is refused with its cause at the path of the property. -/
theorem attributed_attributes {α : Type} {result : Except Fault α}
    (h : FaultsOnly Fault.IsBare result) (path : String) :
    Attributes (fun _ place cause ↦ place = path ∧ refusal? result = some cause)
      (lift (attributed path result)) := by
  cases result with
  | ok a => exact (attributes_pure a).congr fun _ _ _ ↦ by simp [refusal?]
  | error fault =>
    have hbare := h fault rfl
    constructor
    · intro table cause
      rw [run_lift]
      cases fault <;> simp [attributed, Fault.within]
    · intro table place cause
      rw [run_lift]
      cases fault with
      | property _ _ => cases hbare
      | _ => simp [attributed, Fault.within, refusal?, eq_comm]

theorem fixedScalar_attributes (path : String) (value : Data) :
    Attributes (fun _ place cause ↦ place = path ∧ value.refusal? = some cause)
      (fixedScalar path value) :=
  attributed_attributes (isBare_ofData value) path

theorem lift_bind {α β : Type} (x : Except Fault α) (f : α → Except Fault β) :
    lift (x >>= f) = lift x >>= fun a ↦ lift (f a) := by
  cases x <;> rfl

theorem attributed_bind {α β : Type} (path : String) (x : Except Fault α)
    (f : α → Except Fault β) :
    attributed path (x >>= f) = attributed path x >>= fun a ↦ attributed path (f a) := by
  cases x <;> rfl

/-- The fixed values of a property are taken as scalars one after the other. -/
theorem mapM_fixedScalar (path : String) (values : List Data) :
    values.mapM (fixedScalar path) =
      lift (attributed path (values.mapM (Scalar.ofData · none))) := by
  induction values with
  | nil => rfl
  | cons value rest ih =>
    rw [List.mapM_cons, List.mapM_cons, ih, attributed_bind, lift_bind]
    refine congrArg (fixedScalar path value >>= ·) (funext fun scalar ↦ ?_)
    rw [attributed_bind, lift_bind]
    rfl

theorem mapM_fixedScalar_attributes (path : String) (values : List Data) :
    Attributes (fun _ place cause ↦
        place = path ∧ refusal? (values.mapM (Scalar.ofData · none)) = some cause)
      (values.mapM (fixedScalar path)) := by
  rw [mapM_fixedScalar]
  exact attributed_attributes (faultsOnly_mapM isBare_ofData values) path

end Values

section Properties

open Compile

variable {path : String}

theorem compileComponent_ends (keyframes : List Keyframe) (count index : ℤ) (reversed : Bool)
    (path : String) :
    Ends Fault.IsPlain (fun _ ↦ True) (compileComponent keyframes count index reversed path) := by
  intro table
  rw [run_compileComponent]
  have hplain := isPlain_courseOf table.precision keyframes count index reversed path
  cases hcourse : courseOf table.precision keyframes count index reversed path with
  | error fault => exact hplain fault hcourse
  | ok course =>
    dsimp only
    rw [Course.run_register]
    cases course <;> trivial

/-- The components of an animated property meet no fault of scalar arithmetic. -/
theorem compileMultiple_ends [Validator] {property : Animated} (hanimated : property.isAnimated = true)
    (path : String) :
    Ends Fault.IsPlain (fun _ ↦ True) (compileMultiple property path) := by
  have hkeyframes : FaultsOnly Fault.IsPlain property.keyframes := isPlain_validated _
  unfold compileMultiple
  rw [if_pos hanimated]
  refine (ends_lift_of_isPlain hkeyframes).bind fun keyframes _ ↦ ?_
  split
  · exact (ends_mapM fun (index : ℕ) _ ↦
      compileComponent_ends keyframes _ (index : ℤ) false path).imp fun _ _ ↦ trivial
  · exact ends_throw trivial

/-- A property of one component is refused exactly if its fixed value is, and the fault is attributed
to the path of the property. -/
theorem compileSingle_attributes [Validator] (property : Animated) (reversed : Bool) (path : String) :
    Attributes (fun _ place cause ↦ place = path ∧ property.singleRefusal? = some cause)
      (compileSingle property reversed path) := by
  unfold compileSingle Animated.singleRefusal?
  cases property.isAnimated with
  | true =>
    have hkeyframes : FaultsOnly Fault.IsPlain property.keyframes := isPlain_validated _
    refine (attributes_lift_bind hkeyframes fun keyframes ↦
      (compileComponent_ends keyframes 1 0 reversed path).attributes).congr fun table place cause ↦ ?_
    simp
  | false =>
    simp only [Bool.false_eq_true, if_false]
    rcases property.content with _ | _ | _ | _ | (_ | ⟨value, _ | ⟨next, rest⟩⟩) | _
    all_goals exact fixedScalar_attributes path _

theorem compileMultiple_attributes [Validator] (property : Animated) (path : String) :
    Attributes (fun _ place cause ↦ place = path ∧ property.multipleRefusal? = some cause)
      (compileMultiple property path) := by
  by_cases hanimated : property.isAnimated = true
  · refine (compileMultiple_ends hanimated path).attributes.congr fun table place cause ↦ ?_
    simp [Animated.multipleRefusal?, hanimated]
  · unfold compileMultiple Animated.multipleRefusal?
    rw [if_neg hanimated, if_neg hanimated]
    cases property.content with
    | list values => exact mapM_fixedScalar_attributes path values
    | _ => exact (fixedScalar_attributes path _).bind_pure ([·])

/-- What is found out about a property given as data is found out once it validates. -/
theorem exists_validated [Validator] {data : Data} {refusal? : Animated → Option ArithmeticFault}
    {place : String} {cause : ArithmeticFault} :
    (∃ property, validated (Validator.animated data) = .ok property ∧
        (place = path ∧ refusal? property = some cause)) ↔
      place = path ∧ (Validator.animated data).toOption.bind refusal? = some cause := by
  cases Validator.animated data with
  | error issues => simp [validated, Except.toOption]
  | ok property => simp [validated, Except.toOption]

theorem compileSingleData_attributes [Validator] (data : Data) (reversed : Bool) (path : String) :
    Attributes (fun _ place cause ↦ place = path ∧ data.singleRefusal? = some cause)
      (compileSingleData data reversed path) :=
  (attributes_lift_bind (isPlain_validated _) fun property ↦
    compileSingle_attributes property reversed path).congr fun _ _ _ ↦ exists_validated

theorem compileMultipleData_attributes [Validator] (data : Data) (path : String) :
    Attributes (fun _ place cause ↦ place = path ∧ data.multipleRefusal? = some cause)
      (compileMultipleData data path) :=
  (attributes_lift_bind (isPlain_validated _) fun property ↦
    compileMultiple_attributes property path).congr fun _ _ _ ↦ exists_validated

/-- A shape meets no fault of scalar arithmetic. -/
theorem compileShape_attributes [Validator] (shape : Animated) (path : String) :
    Attributes (fun _ _ _ ↦ False) (compileShape shape path) :=
  ((compileShape_ends shape path).mono fun _ ↦ Fault.IsOfShape.isPlain).attributes

theorem compileShapeData_attributes [Validator] (data : Data) (path : String) :
    Attributes (fun _ _ _ ↦ False) (compileShapeData data path) := by
  refine (attributes_lift_bind (isPlain_validated _) fun shape ↦
    compileShape_attributes shape path).congr fun table place cause ↦ ?_
  simp

end Properties

end Motion
