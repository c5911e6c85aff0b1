import Motion.Proofs.Scene.Appearance
import Motion.Proofs.Scene.Frames
import Motion.Proofs.Style.Transform

/-!
What a group does that takes on a transform. The group is moved by the position less the pivot, and
turns and scales about the pivot; a property that would change nothing is left out. Read back with
neutral values for what is left out, the properties make the affine map of the transform: about its
pivot, to its position (`assign_places`). Here as well the transform is refused only where a number
with too many digits would have to be written.
-/

set_option autoImplicit false
set_option relaxedAutoImplicit false

namespace Motion

open Expression

section Amounts

variable (env : Assignment)

/-- What a number amounts to; an infinity and NaN may stand for anything. -/
def Number.amount (n : Number) : ℚ :=
  n.toRat?.getD (env.special (.num n))

/-- What an expression amounts to, if each of its tokens is taken as long as it can be; a text that
cannot be read may stand for anything. -/
def textAmount (text : String) : ℚ :=
  ((Token.scanLongest text.toList).bind Token.read?).elim (env.special (.str text)) (eval env)

def Scalar.amount : Scalar → ℚ
  | literal n => n.amount env
  | expr text _ => textAmount env text

/-- The expression in a data binding. -/
def bindingText? (s : String) : Option String :=
  match s.toList with
  | '$' :: '\x7b' :: rest =>
    if rest.getLast? = some '\x7d' then some (String.ofList rest.dropLast) else none
  | _ => none

/-- What a value of a property amounts to: a number to itself, a data binding to its expression. -/
def Data.readBack : Data → ℚ
  | .num n => n.amount env
  | .str s => (bindingText? s).elim (env.special (.str s)) (textAmount env)
  | value => env.special value

/-- What the properties of a group amount to. One that is left out changes nothing. -/
def Pose.ofGroup (members : Members) : Pose :=
  fun property ↦ (Entries.get? members property.name).elim (neutral property) (Data.readBack env)

end Amounts

section Embedding

variable {env : Assignment}

theorem Number.amount_normalize (n : Number) : n.normalize.amount env = n.amount env := by
  cases n with
  | int i => rfl
  | float x =>
    unfold normalize
    dsimp only
    split
    · rename_i i hi
      split_ifs
      · rw [amount, amount, toRat?_of_toInt? hi]
        rfl
      · rfl
    · rfl

theorem bindingText?_binding (text : String) : bindingText? (Scalar.binding text) = some text := by
  have htext : (Scalar.binding text).toList = '$' :: '\x7b' :: (text.toList ++ ['\x7d']) := by
    simp [Scalar.binding]
  rw [bindingText?, htext]
  simp

/-- A scalar amounts to the same in a document. -/
theorem Scalar.readBack_embed (x : Scalar) : x.embed.readBack env = x.amount env := by
  cases x with
  | literal n => exact n.amount_normalize
  | expr text slope =>
    rw [embed, Data.readBack, bindingText?_binding]
    rfl

theorem Scalar.isLiteral_iff {x : Scalar} {i : ℤ} :
    x.isLiteral (.int i) = true ↔ ∃ n, x = .literal n ∧ n.toRat? = some (i : ℚ) := by
  cases x with
  | literal n =>
    rw [isLiteral, Number.same_iff]
    constructor
    · exact fun h ↦ ⟨n, rfl, h⟩
    · rintro ⟨m, hm, h⟩
      cases hm
      exact h
  | expr text slope => simp [isLiteral]

/-- A scalar that is made of integers and easings by sums and differences amounts to what its recipe
says. -/
theorem Recipe.amount_build {recipe : Recipe} {x : Scalar} (hint : recipe.IsIntegral)
    (hadditive : recipe.IsAdditive) (h : recipe.build = .ok x) (env : Assignment) :
    x.amount env = recipe.value env.atom := by
  cases x with
  | literal n =>
    obtain ⟨i, rfl, hvalue⟩ := Recipe.build_literal hint hadditive.dividesNoNumbers h
    exact (hvalue env.atom).symm
  | expr text slope =>
    obtain ⟨tokens, e, hscan, -, -, hread, heval⟩ :=
      Recipe.build_reads hint hadditive.dividesNoNumbers h
    rw [Scalar.text] at hscan
    rw [Scalar.amount, textAmount, hscan, Option.bind_some, hread]
    exact heval env

/-- The difference of linear scalars amounts to the difference. -/
theorem Scalar.amount_subtract {x y v : Scalar} (hx : x.IsLinear) (hy : y.IsLinear)
    (h : x.subtract y = .ok v) (env : Assignment) : v.amount env = x.amount env - y.amount env := by
  obtain ⟨first, hfirst, hadditive, hbuild⟩ := hx
  obtain ⟨second, hsecond, hadditive', hbuild'⟩ := hy
  have hdifference : (Recipe.binary .sub first second).build = .ok v := by
    rw [Recipe.build, hbuild, hbuild']
    exact h
  have hintegral : (Recipe.binary .sub first second).IsIntegral := ⟨hfirst, hsecond⟩
  have hsub : (Recipe.binary .sub first second).IsAdditive := ⟨rfl, hadditive, hadditive'⟩
  rw [Recipe.amount_build hintegral hsub hdifference,
    Recipe.amount_build hfirst hadditive hbuild, Recipe.amount_build hsecond hadditive' hbuild']
  rfl

end Embedding

namespace Transform

/-- Whether a property with a scalar changes nothing: the scalar is the neutral number. -/
def IsIdle (property : Property) (x : Scalar) : Prop :=
  ∃ n, x = .literal n ∧ n.toRat? = some (neutral property)

/-- The properties of a group that takes on a transform and is moved by two scalars. -/
def propertiesMovedBy (transform : Transform) (x y : Scalar) : List (Property × Scalar) :=
  [(.translateX, x), (.translateY, y), (.pivotX, transform.pivotX), (.pivotY, transform.pivotY),
    (.scaleX, transform.scaleX), (.scaleY, transform.scaleY), (.rotation, transform.rotation),
    (.opacity, transform.opacity)]

section Assigning

variable {env : Assignment} {property : Property} {x : Scalar}

theorem IsIdle.amount (h : IsIdle property x) : x.amount env = neutral property := by
  obtain ⟨n, rfl, hn⟩ := h
  rw [Scalar.amount, Number.amount, hn]
  rfl

/-- A property is put into a group unless it changes nothing. -/
theorem assignProperty_cases (hproperty : property ≠ .clipPath) (group : Members) (x : Scalar) :
    IsIdle property x ∧ assignProperty group property x = group ∨
      ¬ IsIdle property x ∧ assignProperty group property x =
        Entries.put group property.name x.embed := by
  obtain ⟨i, hneutral⟩ : ∃ i : ℤ, property.family.neutral? = some i := by
    cases property <;> first | exact ⟨_, rfl⟩ | exact absurd rfl hproperty
  have hfamily : (family? property).bind Family.neutral? = some i := hneutral
  have hidle : x.isLiteral (.int i) = true ↔ IsIdle property x := by
    rw [IsIdle, neutral_of_neutral? hfamily]
    exact Scalar.isLiteral_iff
  rw [assignProperty, hneutral]
  by_cases hliteral : x.isLiteral (.int i) = true
  · exact Or.inl ⟨hidle.mp hliteral, if_pos hliteral⟩
  · exact Or.inr ⟨fun h ↦ hliteral (hidle.mpr h), if_neg hliteral⟩

theorem get?_assignProperty_of_ne {key : String} (hne : property.name ≠ key) (group : Members)
    (x : Scalar) :
    Entries.get? (assignProperty group property x) key = Entries.get? group key := by
  have hput := Entries.get?_put_of_ne hne group x.embed
  unfold assignProperty
  split
  · split_ifs
    · rfl
    · exact hput
  · exact hput

/-- The group with some properties put into it. -/
def assignEach (group : Members) (entries : List (Property × Scalar)) : Members :=
  entries.foldl (fun group (property, scalar) ↦ assignProperty group property scalar) group

theorem assignEach_cons (group : Members) (property : Property) (x : Scalar)
    (rest : List (Property × Scalar)) : assignEach group ((property, x) :: rest) =
      assignEach (assignProperty group property x) rest :=
  rfl

theorem get?_assignEach_of_ne {entries : List (Property × Scalar)} {key : String}
    (h : ∀ entry ∈ entries, entry.1.name ≠ key) (group : Members) :
    Entries.get? (assignEach group entries) key = Entries.get? group key := by
  induction entries generalizing group with
  | nil => rfl
  | cons entry rest ih =>
    obtain ⟨property, y⟩ := entry
    obtain ⟨hne, hrest⟩ := List.forall_mem_cons.mp h
    rw [assignEach_cons, ih hrest, get?_assignProperty_of_ne hne]

/-- Each property that a group takes on is found there, unless it is idle. -/
theorem get?_assignEach {entries : List (Property × Scalar)} (hnodup : (Entries.keys entries).Nodup)
    (hproperty : property ≠ .clipPath) (hget : Entries.get? entries property = some x)
    (group : Members) (habsent : Entries.get? group property.name = none) :
    IsIdle property x ∧ Entries.get? (assignEach group entries) property.name = none ∨
      ¬ IsIdle property x ∧
        Entries.get? (assignEach group entries) property.name = some x.embed := by
  induction entries generalizing group with
  | nil => cases hget
  | cons entry rest ih =>
    obtain ⟨other, y⟩ := entry
    rw [Entries.keys, List.map_cons, List.nodup_cons] at hnodup
    rw [Entries.get?_cons] at hget
    rw [assignEach_cons]
    by_cases hother : other = property
    -- What is put first stays, as no other property has its name.
    · subst hother
      rw [if_pos rfl, Option.some.injEq] at hget
      obtain rfl : y = x := hget
      have hrest : ∀ entry ∈ rest, entry.1.name ≠ other.name := fun entry hentry hname ↦
        hnodup.1 (List.mem_map.mpr ⟨entry, hentry, Property.name_injective hname⟩)
      rw [get?_assignEach_of_ne hrest]
      rcases assignProperty_cases hproperty group y with ⟨hidle, hgroup⟩ | ⟨hidle, hgroup⟩
      · rw [hgroup, habsent]
        exact Or.inl ⟨hidle, rfl⟩
      · rw [hgroup, Entries.get?_put_self]
        exact Or.inr ⟨hidle, rfl⟩
    · rw [if_neg hother] at hget
      refine ih hnodup.2 hget _ ?_
      rw [get?_assignProperty_of_ne fun hname ↦ hother (Property.name_injective hname), habsent]

/-- A group without properties that takes on a transform amounts to its scalars, of which the idle ones
are left out. -/
theorem exists_assign {transform : Transform} {x y : Scalar}
    (hx : transform.positionX.subtract transform.pivotX = .ok x)
    (hy : transform.positionY.subtract transform.pivotY = .ok y) {group : Members}
    (habsent : ∀ property : Property, Entries.get? group property.name = none) :
    ∃ members, transform.assign group = .ok members ∧
      (∀ key, (∀ entry ∈ transform.propertiesMovedBy x y, entry.1.name ≠ key) →
        Entries.get? members key = Entries.get? group key) ∧
      ∀ property scalar, (property, scalar) ∈ transform.propertiesMovedBy x y →
        (Entries.get? members property.name = none ↔ IsIdle property scalar) ∧
          ∀ env, Pose.ofGroup env members property = scalar.amount env := by
  have hassign : transform.assign group =
      .ok (assignEach group (transform.propertiesMovedBy x y)) := by
    rw [assign, properties, hx, hy]
    rfl
  refine ⟨_, hassign, fun key h ↦ get?_assignEach_of_ne h group, fun property scalar hmem ↦ ?_⟩
  have hnodup : (Entries.keys (transform.propertiesMovedBy x y)).Nodup := by
    show ([.translateX, .translateY, .pivotX, .pivotY, .scaleX, .scaleY, .rotation, .opacity] :
      List Property).Nodup
    decide
  have hproperty : property ≠ .clipPath := by
    rintro rfl
    simp [propertiesMovedBy] at hmem
  rcases get?_assignEach hnodup hproperty (Entries.get?_of_mem hnodup hmem) group
    (habsent property) with ⟨hidle, hnone⟩ | ⟨hidle, hsome⟩
  · refine ⟨iff_of_true hnone hidle, fun env ↦ ?_⟩
    rw [Pose.ofGroup, hnone, hidle.amount]
    rfl
  · refine ⟨iff_of_false (by rw [hsome]; exact Option.some_ne_none _) hidle, fun env ↦ ?_⟩
    rw [Pose.ofGroup, hsome, ← scalar.readBack_embed]
    rfl

end Assigning

section Placement

variable (env : Assignment) (transform : Transform)

def position : Plane :=
  (transform.positionX.amount env, transform.positionY.amount env)

def pivot : Plane :=
  (transform.pivotX.amount env, transform.pivotY.amount env)

/-- Whether the position and the pivot may be written into one expression. -/
def canAssign : Bool :=
  transform.positionX.mayMeet transform.pivotX && transform.positionY.mayMeet transform.pivotY

end Placement

/-- A transform is refused where a number with too many digits has to be written. -/
theorem assign_refused {transform : Transform} (hlinear : transform.IsLinear)
    (h : transform.canAssign = false) (group : Members) :
    transform.assign group = .error .badValue := by
  cases hx : transform.positionX.mayMeet transform.pivotX with
  | false =>
    rw [assign, properties, Scalar.subtract_eq_badValue hx]
    rfl
  | true =>
    obtain ⟨x, hsubx⟩ := Scalar.exists_subtract hlinear.positionX hlinear.pivotX hx
    rw [canAssign, hx, Bool.true_and] at h
    rw [assign, properties, hsubx, Scalar.subtract_eq_badValue h]
    rfl

/-- What a group amounts to that takes on a transform. The shift and the pivot add up to the position
of the transform. -/
structure IsTakenOn (env : Assignment) (transform : Transform) (pose : Pose) : Prop where
  position : pose.translation + pose.pivot = transform.position env
  pivot : pose.pivot = transform.pivot env
  rotation : pose .rotation = transform.rotation.amount env
  scaleX : pose .scaleX = transform.scaleX.amount env
  scaleY : pose .scaleY = transform.scaleY.amount env
  opacity : pose .opacity = transform.opacity.amount env

theorem isTakenOn {env : Assignment} {transform : Transform} (hlinear : transform.IsLinear)
    {x y : Scalar} (hx : transform.positionX.subtract transform.pivotX = .ok x)
    (hy : transform.positionY.subtract transform.pivotY = .ok y) {pose : Pose}
    (h : ∀ entry ∈ transform.propertiesMovedBy x y, pose entry.1 = entry.2.amount env) :
    IsTakenOn env transform pose := by
  simp only [propertiesMovedBy, List.forall_mem_cons] at h
  obtain ⟨htranslateX, htranslateY, hpivotX, hpivotY, hscaleX, hscaleY, hrotation, hopacity, -⟩ := h
  have hpositionX : pose .translateX + pose .pivotX = transform.positionX.amount env := by
    rw [htranslateX, hpivotX, Scalar.amount_subtract hlinear.positionX hlinear.pivotX hx,
      sub_add_cancel]
  have hpositionY : pose .translateY + pose .pivotY = transform.positionY.amount env := by
    rw [htranslateY, hpivotY, Scalar.amount_subtract hlinear.positionY hlinear.pivotY hy,
      sub_add_cancel]
  refine ⟨?_, ?_, hrotation, hscaleX, hscaleY, hopacity⟩
  · rw [position, ← hpositionX, ← hpositionY, Rat.cast_add, Rat.cast_add]
    rfl
  · rw [Pose.pivot, pivot, hpivotX, hpivotY]

/-- A linear scalar amounts to what its recipe says. Hence a group that takes on a transform with linear
position and pivot places the plane as the transform does: about the pivot it turns and scales in the
same way, however that is done, and it moves the pivot to the position. The opacity is the same, and a
property is left out exactly if its scalar is the neutral number. -/
theorem assign_places :
    (∀ (recipe : Recipe) (x : Scalar), recipe.IsIntegral → recipe.IsAdditive →
      recipe.build = .ok x → ∀ env : Assignment, x.amount env = recipe.value env.atom) ∧
    ∀ transform : Transform, transform.IsLinear →
      (transform.canAssign = true → ∃ members x y,
        transform.assign [("type", .str "group")] = .ok members ∧
        transform.positionX.subtract transform.pivotX = .ok x ∧
        transform.positionY.subtract transform.pivotY = .ok y ∧
        (∀ (env : Assignment) (turn : ℚ → ℚ → ℚ → Plane →ₗ[ℝ] Plane) (pose : Pose),
          pose = Pose.ofGroup env members →
          shift pose.translation * shift pose.pivot *
              (turn (pose .rotation) (pose .scaleX) (pose .scaleY)).toAffineMap *
                shift (-pose.pivot) =
            shift (transform.position env) *
              (turn (transform.rotation.amount env) (transform.scaleX.amount env)
                (transform.scaleY.amount env)).toAffineMap * shift (-transform.pivot env)) ∧
        (∀ env, Pose.ofGroup env members .opacity = transform.opacity.amount env) ∧
        (∀ key, (∀ entry ∈ transform.propertiesMovedBy x y, entry.1.name ≠ key) →
          Entries.get? members key = Entries.get? [("type", .str "group")] key) ∧
        ∀ property scalar, (property, scalar) ∈ transform.propertiesMovedBy x y →
          (Entries.get? members property.name = none ↔
            ∃ n, scalar = .literal n ∧ n.toRat? = some (neutral property))) ∧
      (transform.canAssign = false →
        transform.assign [("type", .str "group")] = .error .badValue) := by
  refine ⟨fun recipe x hint hadditive hbuild ↦ Recipe.amount_build hint hadditive hbuild,
    fun transform hlinear ↦ ⟨fun hassign ↦ ?_, fun h ↦ assign_refused hlinear h _⟩⟩
  obtain ⟨hmeetX, hmeetY⟩ := Bool.and_eq_true_iff.mp hassign
  obtain ⟨x, hx⟩ := Scalar.exists_subtract hlinear.positionX hlinear.pivotX hmeetX
  obtain ⟨y, hy⟩ := Scalar.exists_subtract hlinear.positionY hlinear.pivotY hmeetY
  have habsent (property : Property) :
      Entries.get? [("type", Data.str "group")] property.name = none := by
    cases property <;> decide
  obtain ⟨members, hmembers, hothers, hproperties⟩ := exists_assign hx hy habsent
  have htaken (env : Assignment) : IsTakenOn env transform (Pose.ofGroup env members) :=
    isTakenOn hlinear hx hy fun entry hentry ↦ (hproperties entry.1 entry.2 hentry).2 env
  refine ⟨members, x, y, hmembers, hx, hy, ?_, fun env ↦ (htaken env).opacity, hothers,
    fun property scalar h ↦ (hproperties property scalar h).1⟩
  rintro env turn _ rfl
  rw [shift_mul_shift, (htaken env).position, (htaken env).pivot, (htaken env).rotation,
    (htaken env).scaleX, (htaken env).scaleY]

/-- What the transform that turns along an easing makes of a group. -/
def turningGroup : Members :=
  [("type", .str "group"), ("translateX", .str (Scalar.binding "(@ease1(frame)+3)")),
    ("translateY", .str (Scalar.binding "(-(5-@ease2(frame)))")), ("pivotX", .num (.int (-3))),
    ("pivotY", .str (Scalar.binding "(5-@ease2(frame))"))]

theorem assign_places_turning : turning.IsLinear ∧ turning.canAssign = true ∧
    turning.assign [("type", .str "group")] = .ok turningGroup ∧
    (∀ env, turning.pivotY.amount env = 5 - env.atom 2) ∧
    (∀ (env : Assignment) (turn : ℚ → ℚ → ℚ → Plane →ₗ[ℝ] Plane) (pose : Pose),
      pose = Pose.ofGroup env turningGroup →
      shift pose.translation * shift pose.pivot *
          (turn (pose .rotation) (pose .scaleX) (pose .scaleY)).toAffineMap * shift (-pose.pivot) =
        shift (turning.position env) * (turn 0 1 1).toAffineMap * shift (-turning.pivot env)) ∧
    overlong.canAssign = false ∧ overlong.assign [("type", .str "group")] = .error .badValue := by
  have hassign : turning.canAssign = true := by decide +kernel
  have hx : turning.positionX.subtract turning.pivotX = .ok (.expr "(@ease1(frame)+3)"
      (some (.expr "((@ease1(frame+1)-@ease1(frame))+0)"))) := by decide +kernel
  have hy : turning.positionY.subtract turning.pivotY = .ok (.expr "(-(5-@ease2(frame)))"
      (some (.expr "(-(0-(@ease2(frame+1)-@ease2(frame))))"))) := by decide +kernel
  have hgroup : turning.assign [("type", .str "group")] = .ok turningGroup := by
    rw [assign, properties, hx, hy]
    rfl
  have hrefused : overlong.canAssign = false := by decide +kernel
  obtain ⟨hamount, hplaces⟩ := assign_places
  obtain ⟨members, x, y, hmembers, -, -, hmap, -⟩ := (hplaces turning isLinear_turning).1 hassign
  obtain rfl : turningGroup = members := Except.ok.inj (hgroup.symm.trans hmembers)
  refine ⟨isLinear_turning, hassign, hgroup, fun env ↦ ?_, fun env turn ↦ hmap env turn, hrefused,
    (hplaces overlong isLinear_overlong).2 hrefused⟩
  exact hamount (.binary .sub (.number (.int 5)) (.atom 2)) turning.pivotY ⟨⟨5, rfl⟩, trivial⟩
    ⟨rfl, trivial, trivial⟩ (by decide +kernel) env

/-- Not every linear transform can be taken on. -/
theorem assign_overlong :
    overlong.IsLinear ∧ overlong.assign [("type", .str "group")] = .error .badValue :=
  ⟨isLinear_overlong, assign_refused isLinear_overlong (by decide +kernel) _⟩

end Transform

end Motion
