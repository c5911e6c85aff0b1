import Motion.Proofs.Data.Entries
import Motion.Proofs.Easing.Attribution
import Motion.Proofs.Path.Trace
import Motion.Style.Paint
import Motion.Style.Transform

/-!
Where the faults of scalar arithmetic are attributed to when a style is compiled. The color stops of a
gradient attribute one to their components, a dash pattern to the length of a part, a transform to one
of its parts, and to a coordinate of a position that is split; each time what comes before has been
compiled (`compilations_attribute`). Rounding, scaling and tracing meet none.
-/

set_option autoImplicit false
set_option relaxedAutoImplicit false

namespace Motion

open Compile

section Plain

variable {α β : Type}

theorem isPlain_attributed {result : Except Fault α} (h : FaultsOnly Fault.IsPlain result)
    (path : String) : FaultsOnly Fault.IsPlain (attributed path result) := by
  rwa [attributed_of_isPlain h]

theorem isPlain_usable (holds : Bool) : FaultsOnly Fault.IsPlain (usable holds) := by
  unfold usable
  split_ifs
  · exact faultsOnly_ok _
  · exact isPlain_error trivial

theorem isPlain_inRange (value? : Option α) : FaultsOnly Fault.IsPlain (inRange value?) := by
  cases value? with
  | none => exact isPlain_error trivial
  | some value => exact faultsOnly_ok _

theorem isPlain_multiply (x y : Scalar) : FaultsOnly Fault.IsPlain (x.multiply y) := by
  have hcombined : FaultsOnly Fault.IsPlain (x.combine? .mul y) :=
    faultsOnly_bind (isPlain_usable _) fun _ _ ↦ faultsOnly_ok _
  unfold Scalar.multiply
  split_ifs
  · exact faultsOnly_ok _
  · exact faultsOnly_ok _
  · exact faultsOnly_ok _
  · split
    · exact isPlain_inRange _
    · exact hcombined

theorem isPlain_floorOf (n : Number) : FaultsOnly Fault.IsPlain (Function.floorOf n) := by
  unfold Function.floorOf
  split <;> first | exact faultsOnly_ok _ | exact isPlain_error trivial

theorem isPlain_rounded (value : Data) : FaultsOnly Fault.IsPlain value.rounded := by
  cases value with
  | num n =>
    exact faultsOnly_bind (isPlain_inRange _) fun _ _ ↦
      faultsOnly_bind (isPlain_floorOf _) fun _ _ ↦ faultsOnly_ok _
  | str s => exact faultsOnly_ok _
  | bool b => exact faultsOnly_ok _
  | _ => exact isPlain_error trivial

theorem isPlain_colorText (red green blue : Scalar) :
    FaultsOnly Fault.IsPlain (colorText red green blue) := by
  have hchannel (fraction : Scalar) : FaultsOnly Fault.IsPlain (channel fraction) :=
    faultsOnly_bind (isPlain_multiply _ _) fun _ _ ↦
      faultsOnly_bind (isPlain_rounded _) fun _ _ ↦ faultsOnly_ok _
  exact faultsOnly_bind (hchannel _) fun _ _ ↦ faultsOnly_bind (hchannel _) fun _ _ ↦
    faultsOnly_bind (hchannel _) fun _ _ ↦ faultsOnly_ok _

theorem isPlain_colorStops (count : ℕ) (scalars : List Scalar) :
    FaultsOnly Fault.IsPlain (colorStops count scalars) := by
  induction count, scalars using colorStops.induct with
  | case1 count offset red green blue rest ih =>
    rw [colorStops]
    exact faultsOnly_bind (isPlain_colorText _ _ _) fun _ _ ↦
      faultsOnly_bind ih fun _ _ ↦ faultsOnly_ok _
  | case2 count scalars hfew =>
    rw [colorStops]
    · exact faultsOnly_ok _
    · exact hfew

theorem isPlain_firstTwo (scalars : List Scalar) : FaultsOnly Fault.IsPlain (firstTwo scalars) := by
  unfold firstTwo
  split
  · exact faultsOnly_ok _
  · exact isPlain_error trivial

namespace Data

theorem isPlain_mentions (key : String) (data : Data) :
    FaultsOnly Fault.IsPlain (data.mentions key) := by
  cases data <;> first | exact faultsOnly_ok _ | exact isPlain_error trivial

theorem isPlain_member (key : String) (data : Data) :
    FaultsOnly Fault.IsPlain (data.member key) := by
  unfold member
  split
  · split
    · exact faultsOnly_ok _
    · exact isPlain_error trivial
  · exact isPlain_error trivial

theorem isPlain_memberOrNull (key : String) (data : Data) :
    FaultsOnly Fault.IsPlain (data.memberOrNull key) := by
  cases data <;> first | exact faultsOnly_ok _ | exact isPlain_error trivial

end Data

theorem isPlain_isSkewed (data : Data) : FaultsOnly Fault.IsPlain (Transform.isSkewed data) := by
  unfold Transform.isSkewed
  refine faultsOnly_bind (Data.isPlain_memberOrNull _ _) fun skew _ ↦ ?_
  split_ifs
  · exact faultsOnly_ok _
  · refine faultsOnly_bind (Data.isPlain_memberOrNull _ _) fun angle _ ↦ ?_
    split_ifs
    · exact faultsOnly_ok _
    · exact faultsOnly_bind (Data.isPlain_memberOrNull _ _) fun _ _ ↦ faultsOnly_ok _

end Plain

section Painting

/-- An outline is traced without faults of scalar arithmetic. -/
theorem compilePathData_attributes [Validator] (data : Data) (path : String) :
    Attributes (fun _ _ _ ↦ False) (compilePathData data path) := by
  have hshape (shape : Animated) : Ends Fault.IsPlain (fun _ ↦ True) (do
      let outline ← compileShape shape path
      lift (attributed path (outline.trace shape.isAnimated))) := by
    refine ((compileShape_ends shape path).mono fun fault ↦ Fault.IsOfShape.isPlain).bind ?_
    rintro outline ⟨curve, -, -, haligned⟩
    obtain ⟨trace, htrace, -⟩ := trace_aligned haligned
    rw [htrace]
    exact ends_pure trivial
  exact ((ends_lift_of_isPlain (isPlain_validated (Validator.animated data))).bind
    fun shape _ ↦ hshape shape).attributes

/-- Color stops attribute a fault to their components, of which one is refused. -/
theorem compileGradient_attributes [Validator] (data : Data) (path : String) :
    Attributes (fun _ place cause ↦ place = path ++ ".k" ∧ ∃ stops,
        Validator.gradientStops data = .ok stops ∧ stops.components.multipleRefusal? = some cause)
      (compileGradient data path) := by
  have hstops (stops : GradientStops) (scalars : List Scalar) : Ends Fault.IsPlain (fun _ ↦ True)
      (do
        if (scalars.length : ℤ) < stops.count * 4 then
          lift (usable (Number.int stops.count).isWritable)
          throw (.easing (.tooFewComponents stops.count scalars.length) path none)
        lift (attributed path (colorStops stops.count scalars))) := by
    have hcolors := ends_lift_of_isPlain
      (isPlain_attributed (isPlain_colorStops stops.count scalars) path)
    generalize (Number.int stops.count).isWritable = writable
    split_ifs
    · exact (ends_lift_of_isPlain (isPlain_usable writable)).bind fun _ _ ↦
        Ends.bind (p := fun _ ↦ False) (ends_throw trivial) fun _ h ↦ h.elim
    · exact hcolors
  refine (attributes_lift_bind (isPlain_validated _) fun stops ↦
    (compileMultiple_attributes stops.components (path ++ ".k")).bind_plain (hstops stops)).congr
      fun table place cause ↦ ?_
  cases Validator.gradientStops data with
  | error issues => simp [validated]
  | ok stops => simp [validated]

theorem dashLength_attributes [Validator] (item : DashItem) (path : String) :
    Attributes (fun _ place cause ↦ place = path ∧ item.length.singleRefusal? = some cause)
      (dashLength item path) := by
  unfold dashLength
  by_cases hanimated : item.length.isAnimated = true
  · rw [if_pos hanimated]
    refine ((compileMultiple_attributes item.length path).bind_plain (q := fun _ ↦ True)
      fun scalars ↦ ?_).congr fun table place cause ↦ ?_
    · cases scalars with
      | nil => exact ends_throw trivial
      | cons first rest => exact ends_pure trivial
    · simp [Animated.multipleRefusal?, Animated.singleRefusal?, hanimated]
  · rw [if_neg hanimated]
    exact (compileSingle_attributes item.length false path).bind_pure Scalar.embed

/-- The path of the length of the part of a dash pattern with a number. -/
def dashPath (path : String) (n : ℕ) : String :=
  path ++ "[" ++ (Number.int n).text ++ "].v"

/-- A dash pattern attributes a fault to the length of the first part that is refused, if the parts
before it compile. -/
theorem dashPattern_attributes [Validator] (path : String) (pattern : DashPattern) (n : ℕ)
    (items : List DashItem) :
    Attributes (fun table place cause ↦ ∃ i item, items[i]? = some item ∧
        place = dashPath path (n + i) ∧ item.length.singleRefusal? = some cause ∧
        ∃ next, Reaches (dashPattern path pattern n (items.take i)) table next)
      (dashPattern path pattern n items) := by
  induction items generalizing pattern n with
  | nil =>
    refine (attributes_pure pattern).congr fun table place cause ↦ ?_
    simp
  | cons item rest ih =>
    rw [dashPattern]
    refine ((dashLength_attributes item _).bind fun length ↦ ih _ (n + 1)).congr
      fun table place cause ↦ ?_
    -- The part that is refused is the first one, or it is one of the others.
    rw [← Nat.or_exists_add_one]
    refine or_congr ?_ ⟨?_, ?_⟩
    · simp [dashPath, dashPattern, reaches_pure]
    · rintro ⟨length, between, hlength, i, other, hother, hplace, hrefusal, next, hreached⟩
      refine ⟨i, other, hother, by rwa [← Nat.add_assoc, Nat.add_right_comm], hrefusal, next, ?_⟩
      rw [List.take_succ_cons, dashPattern]
      exact reaches_bind.mpr ⟨length, between, hlength, hreached⟩
    · rintro ⟨i, other, hother, hplace, hrefusal, next, hreached⟩
      rw [List.take_succ_cons, dashPattern] at hreached
      obtain ⟨length, between, hlength, hreached⟩ := reaches_bind.mp hreached
      exact ⟨length, between, hlength, i, other, hother,
        by rwa [Nat.add_right_comm, Nat.add_assoc], hrefusal, next, hreached⟩

theorem compileDashes_attributes [Validator] (data : Data) (path : String) :
    Attributes (fun table place cause ↦ ∃ items i item, Validator.dashItems data = .ok items ∧
        items[i]? = some item ∧ place = dashPath path i ∧ item.length.singleRefusal? = some cause ∧
        ∃ next, Reaches (dashPattern path ⟨[], .num 0⟩ 0 (items.take i)) table next)
      (compileDashes data path) := by
  refine (attributes_lift_bind (isPlain_validated _) fun items ↦
    dashPattern_attributes path ⟨[], .num 0⟩ 0 items).congr fun table place cause ↦ ?_
  cases Validator.dashItems data with
  | error issues => simp [validated]
  | ok items => simp [validated]

end Painting

namespace Transform

variable {path : String} {members : Members} {table next : EasingTable}

/-- The keys of the parts of a transform in the order in which they are read. -/
def parts : List String :=
  ["a", "p", "s", "r", "o"]

/-- The members that are read before the part of a transform with a key. -/
def before (key : String) (members : Members) : Members :=
  members.filter fun member ↦ (parts.takeWhile (· ≠ key)).contains member.1

/-- Whether a condition holds of the value under a key, and of the table on which it is read once the
parts of the transform before it have been. -/
def Meets [Validator] (path : String) (members : Members) (table : EasingTable) (key : String)
    (condition : Data → EasingTable → Prop) : Prop :=
  ∃ value next, Entries.get? members key = some value ∧
    Reaches (read (.obj (before key members)) path) table next ∧ condition value next

/-- Whether a position is split into its coordinates. -/
def IsSplit (position : Data) (split : Bool) : Prop :=
  ∃ mark, position.memberOrNull "s" = .ok mark ∧ mark.isTruthy = split

/-- On which part of a transform a fault of scalar arithmetic is blamed: on the first that has a value
that is refused. -/
inductive Blames [Validator] (path : String) (members : Members) (table : EasingTable) :
    String → ArithmeticFault → Prop
  | pivot {cause : ArithmeticFault}
      (h : Meets path members table "a" fun value _ ↦ value.multipleRefusal? = some cause) :
      Blames path members table (path ++ ".a") cause
  | position {cause : ArithmeticFault}
      (h : Meets path members table "p" fun value _ ↦
        IsSplit value false ∧ value.multipleRefusal? = some cause) :
      Blames path members table (path ++ ".p") cause
  | positionX {cause : ArithmeticFault}
      (h : Meets path members table "p" fun value _ ↦ IsSplit value true ∧
        ∃ x, value.member "x" = .ok x ∧ x.singleRefusal? = some cause) :
      Blames path members table (path ++ ".p" ++ ".x") cause
  | positionY {cause : ArithmeticFault}
      (h : Meets path members table "p" fun value next ↦ IsSplit value true ∧
        ∃ x y last, value.member "x" = .ok x ∧
          Reaches (compileSingleData x false (path ++ ".p" ++ ".x")) next last ∧
          value.member "y" = .ok y ∧ y.singleRefusal? = some cause) :
      Blames path members table (path ++ ".p" ++ ".y") cause
  | scale {cause : ArithmeticFault}
      (h : Meets path members table "s" fun value _ ↦ value.multipleRefusal? = some cause) :
      Blames path members table (path ++ ".s") cause
  | rotation {cause : ArithmeticFault}
      (h : Meets path members table "r" fun value _ ↦ value.singleRefusal? = some cause) :
      Blames path members table (path ++ ".r") cause
  | opacity {cause : ArithmeticFault}
      (h : Meets path members table "o" fun value _ ↦ value.singleRefusal? = some cause) :
      Blames path members table (path ++ ".o") cause

section Reading

variable {α : Type} {key : String} {fallback : α} {reading : Data → Compile α}

theorem whenGiven_obj (members : Members) :
    whenGiven (.obj members) key fallback reading =
      match Entries.get? members key with
      | some value => reading value
      | none => pure fallback := by
  have hmentions : (Data.obj members).mentions key = .ok (Entries.get? members key).isSome :=
    congrArg Except.ok (Entries.contains_eq_isSome members key)
  unfold whenGiven
  rw [hmentions, Data.member]
  cases Entries.get? members key <;> rfl

theorem whenGiven_attributes {blames : Data → Compile.Blame}
    (h : ∀ value, Attributes (blames value) (reading value)) :
    Attributes (fun table place cause ↦ ∃ value, Entries.get? members key = some value ∧
        blames value table place cause) (whenGiven (.obj members) key fallback reading) := by
  rw [whenGiven_obj]
  cases Entries.get? members key with
  | none => exact (attributes_pure fallback).congr fun _ _ _ ↦ by simp
  | some value => exact (h value).congr fun _ _ _ ↦ by simp

/-- Data that is not an object has no parts. -/
theorem whenGiven_ends {data : Data} (hdata : ∀ members, data ≠ .obj members) :
    Ends Fault.IsPlain (fun _ ↦ True) (whenGiven data key fallback reading) := by
  have hmember : data.member key = .error .wrongType := by
    cases data with
    | obj members => exact absurd rfl (hdata members)
    | _ => rfl
  refine (ends_lift_of_isPlain (Data.isPlain_mentions key data)).bind fun given _ ↦ ?_
  cases given with
  | false => exact ends_pure trivial
  | true =>
    rw [hmember]
    exact Ends.bind (p := fun _ ↦ False) (ends_throw trivial) fun _ h ↦ h.elim

/-- Of the parts before one with a key, the ones that are given stay as they are. -/
theorem whenGiven_before (members : Members) (part : String) :
    whenGiven (.obj (before part members)) key fallback reading =
      if (parts.takeWhile (· ≠ part)).contains key then
        whenGiven (.obj members) key fallback reading
      else pure fallback := by
  rw [whenGiven_obj, whenGiven_obj, before, Entries.get?_filter_keys members
    (parts.takeWhile (· ≠ part)).contains]
  split_ifs <;> rfl

end Reading

theorem readPair_attributes [Validator] (path : String) (data : Data) :
    Attributes (fun _ place cause ↦ place = path ∧ data.multipleRefusal? = some cause)
      (readPair path data) :=
  (compileMultipleData_attributes data path).bind_plain fun scalars ↦
    ends_lift_of_isPlain (isPlain_firstTwo scalars)

theorem readPosition_attributes [Validator] (path : String) (data : Data) :
    Attributes (fun table place cause ↦
        (place = path ∧ IsSplit data false ∧ data.multipleRefusal? = some cause) ∨
        (place = path ++ ".x" ∧ IsSplit data true ∧
          ∃ x, data.member "x" = .ok x ∧ x.singleRefusal? = some cause) ∨
        (place = path ++ ".y" ∧ IsSplit data true ∧ ∃ x y next, data.member "x" = .ok x ∧
          Reaches (compileSingleData x false (path ++ ".x")) table next ∧
          data.member "y" = .ok y ∧ y.singleRefusal? = some cause))
      (readPosition path data) := by
  have hmark (mark : Data) : Attributes (fun table place cause ↦
      if mark.isTruthy then ∃ x, data.member "x" = .ok x ∧
        (place = path ++ ".x" ∧ x.singleRefusal? = some cause ∨
          ∃ next, Reaches (compileSingleData x false (path ++ ".x")) table next ∧
            ∃ y, data.member "y" = .ok y ∧ place = path ++ ".y" ∧ y.singleRefusal? = some cause)
      else place = path ∧ data.multipleRefusal? = some cause)
      (if mark.isTruthy then do
        let x ← compileSingleData (← lift (data.member "x")) false (path ++ ".x")
        let y ← compileSingleData (← lift (data.member "y")) false (path ++ ".y")
        return (x, y)
      else readPair path data) := by
    cases mark.isTruthy with
    | false => exact readPair_attributes path data
    | true =>
      exact attributes_lift_bind (Data.isPlain_member "x" data) fun x ↦
        (compileSingleData_attributes x false (path ++ ".x")).andThen fun _ ↦
          attributes_lift_bind (Data.isPlain_member "y" data) fun y ↦
            (compileSingleData_attributes y false (path ++ ".y")).bind_pure _
  refine (attributes_lift_bind (Data.isPlain_memberOrNull "s" data) hmark).congr
    fun table place cause ↦ ?_
  unfold IsSplit
  cases data.memberOrNull "s" with
  | error fault => simp
  | ok mark => cases mark.isTruthy <;> simp <;> grind

theorem readScale_attributes [Validator] (path : String) (data : Data) :
    Attributes (fun _ place cause ↦ place = path ∧ data.multipleRefusal? = some cause)
      (readScale path data) :=
  (compileMultipleData_attributes data path).bind_plain fun percentages ↦
    (ends_lift_of_isPlain (isPlain_attributed
      (faultsOnly_mapM (fun scalar ↦ isPlain_multiply scalar percent) percentages) path)).bind
        fun fractions _ ↦ ends_lift_of_isPlain (isPlain_firstTwo fractions)

theorem readOpacity_attributes [Validator] (path : String) (data : Data) :
    Attributes (fun _ place cause ↦ place = path ∧ data.singleRefusal? = some cause)
      (readOpacity path data) :=
  (compileSingleData_attributes data false path).bind_plain fun percentage ↦
    ends_lift_of_isPlain (isPlain_attributed (isPlain_multiply percentage percent) path)

theorem isSkewed_before (part : String) (members : Members) :
    isSkewed (.obj (before part members)) = .ok false := by
  have hparts : (parts.takeWhile (· ≠ part)).contains "sk" = false := by
    rw [List.contains_eq_mem, decide_eq_false_iff_not]
    exact fun h ↦ absurd (List.takeWhile_subset _ h) (by decide)
  have hnone : Entries.get? (before part members) "sk" = none := by
    rw [before, Entries.get?_filter_keys members (parts.takeWhile (· ≠ part)).contains, hparts]
    rfl
  have hmember : (Data.obj (before part members)).memberOrNull "sk" = .ok .null := by
    rw [Data.memberOrNull, hnone]
    rfl
  rw [isSkewed, hmember]
  rfl

/-- A transform is read part by part. -/
theorem reaches_read [Validator] : Reaches (read (.obj members) path) table next ↔
    ∃ a, Reaches (whenGiven (.obj members) "a" (0, 0) (readPair (path ++ ".a"))) table a ∧
    ∃ p, Reaches (whenGiven (.obj members) "p" (0, 0) (readPosition (path ++ ".p"))) a p ∧
    ∃ s, Reaches (whenGiven (.obj members) "s" (1, 1) (readScale (path ++ ".s"))) p s ∧
    ∃ r, Reaches (whenGiven (.obj members) "r" 0
      fun value ↦ compileSingleData value false (path ++ ".r")) s r ∧
    ∃ o, Reaches (whenGiven (.obj members) "o" 1 (readOpacity (path ++ ".o"))) r o ∧
    (∃ skewed, isSkewed (.obj members) = .ok skewed) ∧ next = o := by
  unfold read
  refine reaches_andThen fun pivot _ ↦ reaches_andThen fun position _ ↦ reaches_andThen fun scale _ ↦
    reaches_andThen fun rotation _ ↦ reaches_andThen fun opacity last ↦ ?_
  refine (reaches_andThen fun skewed _ ↦ reaches_pure _).trans ⟨?_, ?_⟩
  · rintro ⟨_, hlift, rfl⟩
    exact (reaches_lift _).mp hlift
  · rintro ⟨hskewed, rfl⟩
    exact ⟨_, (reaches_lift _).mpr ⟨hskewed, rfl⟩, rfl⟩

section Before

variable (path members)

theorem reaches_before_pivot [Validator] :
    Reaches (read (.obj (before "a" members)) path) table next ↔ next = table := by
  simp [reaches_read, whenGiven_before, parts, reaches_pure, isSkewed_before]

theorem reaches_before_position [Validator] :
    Reaches (read (.obj (before "p" members)) path) table next ↔
      Reaches (whenGiven (.obj members) "a" (0, 0) (readPair (path ++ ".a"))) table next := by
  simp [reaches_read, whenGiven_before, parts, reaches_pure, isSkewed_before]

theorem reaches_before_scale [Validator] :
    Reaches (read (.obj (before "s" members)) path) table next ↔
      ∃ a, Reaches (whenGiven (.obj members) "a" (0, 0) (readPair (path ++ ".a"))) table a ∧
        Reaches (whenGiven (.obj members) "p" (0, 0) (readPosition (path ++ ".p"))) a next := by
  simp [reaches_read, whenGiven_before, parts, reaches_pure, isSkewed_before]

theorem reaches_before_rotation [Validator] :
    Reaches (read (.obj (before "r" members)) path) table next ↔
      ∃ a, Reaches (whenGiven (.obj members) "a" (0, 0) (readPair (path ++ ".a"))) table a ∧
      ∃ p, Reaches (whenGiven (.obj members) "p" (0, 0) (readPosition (path ++ ".p"))) a p ∧
        Reaches (whenGiven (.obj members) "s" (1, 1) (readScale (path ++ ".s"))) p next := by
  simp [reaches_read, whenGiven_before, parts, reaches_pure, isSkewed_before]

theorem reaches_before_opacity [Validator] :
    Reaches (read (.obj (before "o" members)) path) table next ↔
      ∃ a, Reaches (whenGiven (.obj members) "a" (0, 0) (readPair (path ++ ".a"))) table a ∧
      ∃ p, Reaches (whenGiven (.obj members) "p" (0, 0) (readPosition (path ++ ".p"))) a p ∧
      ∃ s, Reaches (whenGiven (.obj members) "s" (1, 1) (readScale (path ++ ".s"))) p s ∧
        Reaches (whenGiven (.obj members) "r" 0
          fun value ↦ compileSingleData value false (path ++ ".r")) s next := by
  simp [reaches_read, whenGiven_before, parts, reaches_pure, isSkewed_before]

end Before

/-- A transform attributes a fault to the first of its parts that has a value that is refused. -/
theorem readObject_attributes [Validator] (path : String) (members : Members) :
    Attributes (Blames path members) (read (.obj members) path) := by
  refine ((whenGiven_attributes (readPair_attributes _)).andThen fun pivot ↦
    (whenGiven_attributes (readPosition_attributes _)).andThen fun position ↦
      (whenGiven_attributes (readScale_attributes _)).andThen fun scale ↦
        (whenGiven_attributes fun value ↦ compileSingleData_attributes value false _).andThen
          fun rotation ↦ (whenGiven_attributes (readOpacity_attributes _)).bind_plain
            (q := fun _ ↦ True) fun opacity ↦ ?_).congr fun table place cause ↦ ⟨?_, ?_⟩
  · exact (ends_lift_of_isPlain (isPlain_isSkewed _)).bind fun _ _ ↦ ends_pure trivial
  -- A part is blamed on the table that the parts before it have left.
  · rintro (⟨value, hvalue, rfl, h⟩ | ⟨a, ha, hrest⟩)
    · have hbefore := (reaches_before_pivot path members).mpr (Eq.refl table)
      exact .pivot ⟨value, table, hvalue, hbefore, h⟩
    rcases hrest with ⟨value, hvalue, hposition⟩ | ⟨p, hp, hrest⟩
    · have hbefore := (reaches_before_position path members).mpr ha
      rcases hposition with ⟨rfl, h⟩ | ⟨rfl, h⟩ | ⟨rfl, h⟩
      · exact .position ⟨value, a, hvalue, hbefore, h⟩
      · exact .positionX ⟨value, a, hvalue, hbefore, h⟩
      · exact .positionY ⟨value, a, hvalue, hbefore, h⟩
    rcases hrest with ⟨value, hvalue, rfl, h⟩ | ⟨s, hs, hrest⟩
    · have hbefore := (reaches_before_scale path members).mpr ⟨a, ha, hp⟩
      exact .scale ⟨value, p, hvalue, hbefore, h⟩
    rcases hrest with ⟨value, hvalue, rfl, h⟩ | ⟨r, hr, value, hvalue, rfl, h⟩
    · have hbefore := (reaches_before_rotation path members).mpr ⟨a, ha, p, hp, hs⟩
      exact .rotation ⟨value, s, hvalue, hbefore, h⟩
    · have hbefore := (reaches_before_opacity path members).mpr ⟨a, ha, p, hp, s, hs, hr⟩
      exact .opacity ⟨value, r, hvalue, hbefore, h⟩
  · intro h
    cases h with
    | pivot h =>
      obtain ⟨value, next, hvalue, -, h⟩ := h
      exact Or.inl ⟨value, hvalue, rfl, h⟩
    | position h =>
      obtain ⟨value, next, hvalue, hbefore, h⟩ := h
      have ha := (reaches_before_position path members).mp hbefore
      exact Or.inr ⟨next, ha, Or.inl ⟨value, hvalue, Or.inl ⟨rfl, h⟩⟩⟩
    | positionX h =>
      obtain ⟨value, next, hvalue, hbefore, h⟩ := h
      have ha := (reaches_before_position path members).mp hbefore
      exact Or.inr ⟨next, ha, Or.inl ⟨value, hvalue, Or.inr (Or.inl ⟨rfl, h⟩)⟩⟩
    | positionY h =>
      obtain ⟨value, next, hvalue, hbefore, h⟩ := h
      have ha := (reaches_before_position path members).mp hbefore
      exact Or.inr ⟨next, ha, Or.inl ⟨value, hvalue, Or.inr (Or.inr ⟨rfl, h⟩)⟩⟩
    | scale h =>
      obtain ⟨value, next, hvalue, hbefore, h⟩ := h
      obtain ⟨a, ha, hp⟩ := (reaches_before_scale path members).mp hbefore
      exact Or.inr ⟨a, ha, Or.inr ⟨next, hp, Or.inl ⟨value, hvalue, rfl, h⟩⟩⟩
    | rotation h =>
      obtain ⟨value, next, hvalue, hbefore, h⟩ := h
      obtain ⟨a, ha, p, hp, hs⟩ := (reaches_before_rotation path members).mp hbefore
      exact Or.inr ⟨a, ha, Or.inr ⟨p, hp, Or.inr ⟨next, hs, Or.inl ⟨value, hvalue, rfl, h⟩⟩⟩⟩
    | opacity h =>
      obtain ⟨value, next, hvalue, hbefore, h⟩ := h
      obtain ⟨a, ha, p, hp, s, hs, hr⟩ := (reaches_before_opacity path members).mp hbefore
      exact Or.inr ⟨a, ha, Or.inr ⟨p, hp, Or.inr ⟨s, hs, Or.inr ⟨next, hr, value, hvalue, rfl,
        h⟩⟩⟩⟩

theorem read_attributes [Validator] (data : Data) (path : String) :
    Attributes (fun table place cause ↦ ∃ members, data = .obj members ∧
        Blames path members table place cause) (read data path) := by
  by_cases hdata : ∃ members, data = .obj members
  · obtain ⟨members, rfl⟩ := hdata
    exact (readObject_attributes path members).congr fun _ _ _ ↦ by simp
  · have hnone : ∀ members, data ≠ .obj members := fun members h ↦ hdata ⟨members, h⟩
    refine (Ends.attributes (q := fun _ ↦ True) ?_).congr fun table place cause ↦ ?_
    · exact (whenGiven_ends hnone).bind fun _ _ ↦ (whenGiven_ends hnone).bind fun _ _ ↦
        (whenGiven_ends hnone).bind fun _ _ ↦ (whenGiven_ends hnone).bind fun _ _ ↦
          (whenGiven_ends hnone).bind fun _ _ ↦
            (ends_lift_of_isPlain (isPlain_isSkewed data)).bind fun _ _ ↦ ends_pure trivial
    · simp [hnone]

end Transform

/-- Faults of scalar arithmetic are attributed to the innermost property that they happen in. A fault
that is attributed once stays with its property, and a compilation leaves none bare: it attributes one
exactly where a fixed value of a property is refused as a scalar, with the cause of the refusal, if what
comes before has been compiled. The paths are the ones of the property itself, of the components of
color stops, of the length of a part of a dash pattern, and of the parts of a transform and the
coordinates of a split position. Shapes meet no such fault. -/
theorem compilations_attribute [Validator] (path : String) :
    (∀ fault inner, (Fault.within inner fault).within path = fault.within inner) ∧
    (∀ property reversed,
      Attributes (fun _ place cause ↦ place = path ∧ property.singleRefusal? = some cause)
        (compileSingle property reversed path)) ∧
    (∀ data reversed,
      Attributes (fun _ place cause ↦ place = path ∧ data.singleRefusal? = some cause)
        (compileSingleData data reversed path)) ∧
    (∀ property,
      Attributes (fun _ place cause ↦ place = path ∧ property.multipleRefusal? = some cause)
        (compileMultiple property path)) ∧
    (∀ data, Attributes (fun _ place cause ↦ place = path ∧ data.multipleRefusal? = some cause)
      (compileMultipleData data path)) ∧
    (∀ shape, Attributes (fun _ _ _ ↦ False) (compileShape shape path)) ∧
    (∀ data, Attributes (fun _ _ _ ↦ False) (compileShapeData data path)) ∧
    (∀ data, Attributes (fun _ _ _ ↦ False) (compilePathData data path)) ∧
    (∀ data, Attributes (fun _ place cause ↦ place = path ++ ".k" ∧ ∃ stops,
      Validator.gradientStops data = .ok stops ∧ stops.components.multipleRefusal? = some cause)
        (compileGradient data path)) ∧
    (∀ data, Attributes (fun table place cause ↦ ∃ items i item,
      Validator.dashItems data = .ok items ∧ items[i]? = some item ∧ place = dashPath path i ∧
        item.length.singleRefusal? = some cause ∧
        ∃ next, Reaches (dashPattern path ⟨[], .num 0⟩ 0 (items.take i)) table next)
        (compileDashes data path)) ∧
    ∀ data, Attributes (fun table place cause ↦ ∃ members, data = .obj members ∧
      Transform.Blames path members table place cause) (Transform.read data path) := by
  refine ⟨fun fault inner ↦ fault.within_within inner path, ?_, ?_, ?_, ?_, ?_, ?_, ?_, ?_, ?_, ?_⟩
  · exact fun property reversed ↦ compileSingle_attributes property reversed path
  · exact fun data reversed ↦ compileSingleData_attributes data reversed path
  · exact fun property ↦ compileMultiple_attributes property path
  · exact fun data ↦ compileMultipleData_attributes data path
  · exact fun shape ↦ compileShape_attributes shape path
  · exact fun data ↦ compileShapeData_attributes data path
  · exact fun data ↦ compilePathData_attributes data path
  · exact fun data ↦ compileGradient_attributes data path
  · exact fun data ↦ compileDashes_attributes data path
  · exact fun data ↦ Transform.read_attributes data path

end Motion
