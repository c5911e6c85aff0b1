import Motion.Proofs.Path.Box
import Mathlib.Data.List.Forall2
import Mathlib.Data.List.Perm.Basic

/-!
Boxes over any course of steps. A step makes a new box, feeds a point into a box, or makes a new box
that combines two or copies one. Done on lists of points in place of boxes, the same steps tell what
has been fed into each box (`BoxOperations.points`). A step keeps every box the hull of its points
(`after_isHull`), so a run does (`run_isHull`). Hulls of the same points are equal by value
(`Box.IsHull.same`), from which the laws of combining follow.
-/

set_option autoImplicit false
set_option relaxedAutoImplicit false

namespace Motion

/-- A step with the boxes made so far, which are numbered in the order they were made in. -/
inductive BoxStep where
  | create
  | update (k : ℕ) (x y : Number)
  | combine (k l : ℕ)
  | copy (k : ℕ)

/-- What steps do with objects of a kind. -/
structure BoxOperations (α : Type) where
  create : α
  update : α → Number → Number → α
  combine : α → α → α
  copy : α → α

/-- Steps on boxes. -/
def BoxOperations.boxes : BoxOperations Box where
  create := .ofSides none none none none
  update := Box.update
  combine := Box.combine
  copy := Box.copyOf

/-- Steps on the points fed into boxes. -/
def BoxOperations.points : BoxOperations (List (Number × Number)) where
  create := []
  update := fun points x y ↦ points ++ [(x, y)]
  combine := fun points others ↦ points ++ others
  copy := fun points ↦ points

namespace BoxStep

/-- Whether a point that is fed has coordinates with values. -/
def isFinite : BoxStep → Bool
  | update _ x y => x.toRat?.isSome && y.toRat?.isSome
  | _ => true

/-- The objects after a step. Only an update changes one of those that were there before. -/
def after {α : Type} (operations : BoxOperations α) (objects : List α) : BoxStep → List α
  | create => objects ++ [operations.create]
  | update k x y => objects.modify k fun object ↦ operations.update object x y
  | combine k l =>
    match objects[k]?, objects[l]? with
    | some first, some second => objects ++ [operations.combine first second]
    | _, _ => objects
  | copy k =>
    match objects[k]? with
    | some object => objects ++ [operations.copy object]
    | none => objects

/-- The objects that steps make. -/
def run {α : Type} (operations : BoxOperations α) (steps : List BoxStep) : List α :=
  steps.foldl (after operations) []

end BoxStep

namespace Number

variable {m n : Number} {first second : List Number}

theorem isAtMost_self (h : n.toRat?.isSome = true) : n.IsAtMost n := by
  obtain ⟨q, hq⟩ := Option.isSome_iff_exists.mp h
  exact ⟨q, q, hq, hq, le_rfl⟩

theorem IsAtMost.same (hmn : m.IsAtMost n) (hnm : n.IsAtMost m) : m.same n = true := by
  obtain ⟨p, q, hm, hn, hpq⟩ := hmn
  obtain ⟨q', p', hn', hm', hqp⟩ := hnm
  obtain rfl : p = p' := Option.some.inj (hm.symm.trans hm')
  obtain rfl : q = q' := Option.some.inj (hn.symm.trans hn')
  rw [Number.same, compare?_of_toRat? hm hn, le_antisymm hpq hqp, compareRat_self]
  rfl

theorem IsMinimum.same (hm : m.IsMinimum first) (hn : n.IsMinimum second)
    (h : ∀ k, k ∈ first ↔ k ∈ second) : m.same n = true :=
  (hm.2 n ((h n).mpr hn.1)).same (hn.2 m ((h m).mp hm.1))

theorem IsMaximum.same (hm : m.IsMaximum first) (hn : n.IsMaximum second)
    (h : ∀ k, k ∈ first ↔ k ∈ second) : m.same n = true :=
  (hn.2 m ((h m).mp hm.1)).same (hm.2 n ((h n).mpr hn.1))

/-- Between the least and the greatest of some integers is a distance. -/
theorem exists_sub_eq_natCast (hm : m.IsMinimum first) (hn : n.IsMaximum first)
    (hint : ∀ k ∈ first, ∃ i, k = .int i) : ∃ d : ℕ, n.sub m = some (.int d) := by
  obtain ⟨i, rfl⟩ := hint m hm.1
  obtain ⟨j, rfl⟩ := hint n hn.1
  have hle : i ≤ j := isAtMost_int.mp (hm.2 _ hn.1)
  refine ⟨(j - i).toNat, ?_⟩
  rw [Int.toNat_of_nonneg (Int.sub_nonneg.mpr hle)]
  rfl

end Number

namespace Box

/-- Whether boxes are both undefined, or have sides that are equal by value. -/
def Same : Box → Box → Prop
  | undefined, undefined => True
  | sides left top right bottom, sides left' top' right' bottom' =>
    left.same left' = true ∧ top.same top' = true ∧ right.same right' = true ∧
      bottom.same bottom' = true
  | _, _ => False

/-- What a box tells of the points fed into it. -/
structure Encloses (box : Box) (points : List (Number × Number)) : Prop where
  isDefined_iff : box.isDefined = false ↔ points = []
  unreadable : points = [] → box.left = .error .undefinedBox ∧ box.top = .error .undefinedBox ∧
    box.width = .error .undefinedBox ∧ box.height = .error .undefinedBox
  readable : points ≠ [] → ∃ left top right bottom, box = sides left top right bottom ∧
    box.left = .ok left ∧ box.top = .ok top ∧
    left.IsMinimum (points.map Prod.fst) ∧ top.IsMinimum (points.map Prod.snd) ∧
    right.IsMaximum (points.map Prod.fst) ∧ bottom.IsMaximum (points.map Prod.snd)
  size : points ≠ [] → (∀ point ∈ points, ∃ i j, point = (Number.int i, Number.int j)) →
    ∃ width height : ℕ, box.width = .ok (.int width) ∧ box.height = .ok (.int height)

variable {first second third box : Box} {points others more : List (Number × Number)}

theorem copyOf_eq (box : Box) : box.copyOf = box := by
  cases box <;> rfl

/-- A hull tells what the points are. -/
theorem IsHull.encloses (h : box.IsHull points) : box.Encloses points := by
  cases box with
  | undefined =>
    obtain rfl : points = [] := h
    exact ⟨⟨fun _ ↦ rfl, fun _ ↦ rfl⟩, fun _ ↦ ⟨rfl, rfl, rfl, rfl⟩, fun hne ↦ absurd rfl hne,
      fun hne ↦ absurd rfl hne⟩
  | sides left top right bottom =>
    obtain ⟨hleft, htop, hright, hbottom⟩ := h
    have hne : points ≠ [] := by
      rintro rfl
      cases hleft.1
    refine ⟨⟨fun hfalse ↦ (by cases hfalse), fun hnil ↦ absurd hnil hne⟩,
      fun hnil ↦ absurd hnil hne,
      fun _ ↦ ⟨left, top, right, bottom, rfl, rfl, rfl, hleft, htop, hright, hbottom⟩,
      fun _ hint ↦ ?_⟩
    obtain ⟨width, hwidth⟩ := Number.exists_sub_eq_natCast hleft hright fun k hk ↦ by
      obtain ⟨point, hpoint, rfl⟩ := List.mem_map.mp hk
      obtain ⟨i, j, rfl⟩ := hint point hpoint
      exact ⟨i, rfl⟩
    obtain ⟨height, hheight⟩ := Number.exists_sub_eq_natCast htop hbottom fun k hk ↦ by
      obtain ⟨point, hpoint, rfl⟩ := List.mem_map.mp hk
      obtain ⟨i, j, rfl⟩ := hint point hpoint
      exact ⟨j, rfl⟩
    exact ⟨width, height, by rw [Box.width, hwidth]; rfl, by rw [Box.height, hheight]; rfl⟩

/-- Two hulls of the same points, in whatever order and number, are equal by value. -/
theorem IsHull.same (hfirst : first.IsHull points) (hsecond : second.IsHull others)
    (h : ∀ point, point ∈ points ↔ point ∈ others) : first.Same second := by
  have hmap (f : Number × Number → Number) (k : Number) :
      k ∈ points.map f ↔ k ∈ others.map f := by
    simp only [List.mem_map, h]
  cases first with
  | undefined =>
    cases second with
    | undefined => trivial
    | sides left top right bottom =>
      obtain rfl : points = [] := hfirst
      cases (hmap _ _).mpr hsecond.1.1
  | sides left top right bottom =>
    cases second with
    | undefined =>
      obtain rfl : others = [] := hsecond
      cases (hmap _ _).mp hfirst.1.1
    | sides left' top' right' bottom' =>
      obtain ⟨hleft, htop, hright, hbottom⟩ := hfirst
      obtain ⟨hleft', htop', hright', hbottom'⟩ := hsecond
      exact ⟨hleft.same hleft' (hmap _), htop.same htop' (hmap _), hright.same hright' (hmap _),
        hbottom.same hbottom' (hmap _)⟩

theorem IsHull.combine_comm (hfirst : first.IsHull points) (hsecond : second.IsHull others) :
    (first.combine second).Same (second.combine first) :=
  (hfirst.combine hsecond).same (hsecond.combine hfirst) fun point ↦ by
    simp only [List.mem_append, or_comm]

theorem IsHull.combine_assoc (hfirst : first.IsHull points) (hsecond : second.IsHull others)
    (hthird : third.IsHull more) :
    ((first.combine second).combine third).Same (first.combine (second.combine third)) :=
  ((hfirst.combine hsecond).combine hthird).same (hfirst.combine (hsecond.combine hthird))
    fun point ↦ by simp only [List.mem_append, or_assoc]

theorem IsHull.combine_self (h : box.IsHull points) : (box.combine box).Same box :=
  (h.combine h).same h fun point ↦ by simp only [List.mem_append, or_self]

theorem undefined_combine (box : Box) : undefined.combine box = box := by
  cases box <;> rfl

theorem combine_undefined (box : Box) : box.combine undefined = box := by
  cases box <;> rfl

/-- The box grown to hold some points one after the other. -/
def updateAll (box : Box) (points : List (Number × Number)) : Box :=
  points.foldl (fun box point ↦ box.update point.1 point.2) box

theorem IsHull.updateAll (h : box.IsHull points)
    (hmore : ∀ point ∈ more, point.1.toRat?.isSome = true ∧ point.2.toRat?.isSome = true) :
    (box.updateAll more).IsHull (points ++ more) := by
  induction more generalizing box points with
  | nil => rwa [List.append_nil]
  | cons point rest ih =>
    obtain ⟨hpoint, hrest⟩ := List.forall_mem_cons.mp hmore
    have hstep := h.update (Number.isAtMost_self hpoint.1) (Number.isAtMost_self hpoint.2)
    have hrun := ih hstep hrest
    rwa [List.append_assoc] at hrun

end Box

section Lists

variable {α β : Type} {R : α → β → Prop} {l : List α} {u : List β}

theorem forall₂_modify (h : List.Forall₂ R l u) {f : α → α} {g : β → β}
    (hstep : ∀ a b, R a b → R (f a) (g b)) (k : ℕ) :
    List.Forall₂ R (l.modify k f) (u.modify k g) := by
  induction h generalizing k with
  | nil => cases k <;> exact .nil
  | cons hab hrest ih =>
    cases k with
    | zero => exact .cons (hstep _ _ hab) hrest
    | succ k => exact .cons hab (ih k)

/-- Items at one place are related, or neither is there. -/
theorem forall₂_getElem? (h : List.Forall₂ R l u) (k : ℕ) :
    l[k]? = none ∧ u[k]? = none ∨ ∃ a b, l[k]? = some a ∧ u[k]? = some b ∧ R a b := by
  induction h generalizing k with
  | nil => exact Or.inl ⟨rfl, rfl⟩
  | cons hab hrest ih =>
    cases k with
    | zero => exact Or.inr ⟨_, _, rfl, rfl, hab⟩
    | succ k => exact ih k

theorem forall₂_concat (h : List.Forall₂ R l u) {a : α} {b : β} (hab : R a b) :
    List.Forall₂ R (l ++ [a]) (u ++ [b]) :=
  List.rel_append h (.cons hab .nil)

end Lists

namespace BoxStep

variable {boxes : List Box} {points : List (List (Number × Number))}

/-- A step keeps every box the hull of its points. -/
theorem after_isHull (h : List.Forall₂ Box.IsHull boxes points) {step : BoxStep}
    (hstep : step.isFinite = true) :
    List.Forall₂ Box.IsHull (step.after .boxes boxes) (step.after .points points) := by
  cases step with
  | create => exact forall₂_concat h Box.isHull_undefined
  | update k x y =>
    obtain ⟨hx, hy⟩ := Bool.and_eq_true_iff.mp hstep
    exact forall₂_modify h (fun box fed hbox ↦
      hbox.update (Number.isAtMost_self hx) (Number.isAtMost_self hy)) k
  | combine k l =>
    rcases forall₂_getElem? h k with ⟨hk, hk'⟩ | ⟨first, fed, hk, hk', hfirst⟩
    · simp only [after, hk, hk']
      exact h
    · rcases forall₂_getElem? h l with ⟨hl, hl'⟩ | ⟨second, others, hl, hl', hsecond⟩
      · simp only [after, hk, hk', hl, hl']
        exact h
      · simp only [after, hk, hk', hl, hl']
        exact forall₂_concat h (hfirst.combine hsecond)
  | copy k =>
    rcases forall₂_getElem? h k with ⟨hk, hk'⟩ | ⟨box, fed, hk, hk', hbox⟩
    · simp only [after, hk, hk']
      exact h
    · simp only [after, hk, hk']
      refine forall₂_concat h ?_
      change box.copyOf.IsHull fed
      rwa [Box.copyOf_eq]

/-- After any steps every box is the hull of the points fed into it. -/
theorem run_isHull {steps : List BoxStep} (hsteps : ∀ step ∈ steps, step.isFinite = true) :
    List.Forall₂ Box.IsHull (run .boxes steps) (run .points steps) := by
  have hrun : ∀ boxes points, List.Forall₂ Box.IsHull boxes points →
      List.Forall₂ Box.IsHull (steps.foldl (after .boxes) boxes)
        (steps.foldl (after .points) points) := by
    induction steps with
    | nil => exact fun _ _ h ↦ h
    | cons step rest ih =>
      obtain ⟨hstep, hrest⟩ := List.forall_mem_cons.mp hsteps
      exact fun boxes points h ↦ ih hrest _ _ (after_isHull h hstep)
  exact hrun [] [] .nil

theorem exists_isHull {steps : List BoxStep} (hsteps : ∀ step ∈ steps, step.isFinite = true) {k : ℕ}
    {box : Box} (hbox : (run .boxes steps)[k]? = some box) :
    ∃ points, (run .points steps)[k]? = some points ∧ box.IsHull points := by
  rcases forall₂_getElem? (run_isHull hsteps) k with
    ⟨hnone, -⟩ | ⟨found, points, hfound, hpoints, hhull⟩
  · rw [hnone] at hbox
    cases hbox
  · rw [hfound] at hbox
    cases hbox
    exact ⟨points, hpoints, hhull⟩

/-- A step leaves a box alone unless it feeds a point into it. -/
theorem getElem?_after {α : Type} (operations : BoxOperations α) {objects : List α} {k : ℕ}
    {object : α} (h : objects[k]? = some object) {step : BoxStep}
    (hstep : ∀ x y, step ≠ .update k x y) :
    (step.after operations objects)[k]? = some object := by
  have happend (more : List α) : (objects ++ more)[k]? = some object := by
    rw [List.getElem?_append_left (List.getElem?_eq_some_iff.mp h).1, h]
  cases step with
  | create => exact happend _
  | update l x y =>
    have hne : l ≠ k := by
      rintro rfl
      exact hstep x y rfl
    rw [after, List.getElem?_modify, h]
    simp [hne]
  | combine l l' =>
    rw [after]
    split
    · exact happend _
    · exact h
  | copy l =>
    rw [after]
    split
    · exact happend _
    · exact h

end BoxStep

/-- The laws of combining boxes of a collection, and of feeding points into them. -/
structure Box.FollowLaws (boxes : List Box) : Prop where
  comm : ∀ first ∈ boxes, ∀ second ∈ boxes, (first.combine second).Same (second.combine first)
  assoc : ∀ first ∈ boxes, ∀ second ∈ boxes, ∀ third ∈ boxes,
    ((first.combine second).combine third).Same (first.combine (second.combine third))
  idempotent : ∀ box ∈ boxes, (box.combine box).Same box
  identity : ∀ box ∈ boxes, undefined.combine box = box ∧ box.combine undefined = box
  order : ∀ box ∈ boxes, ∀ points others : List (Number × Number), points.Perm others →
    (∀ point ∈ points, point.1.toRat?.isSome = true ∧ point.2.toRat?.isSome = true) →
    (box.updateAll points).Same (box.updateAll others)

theorem Box.followLaws {boxes : List Box} (h : ∀ box ∈ boxes, ∃ points, box.IsHull points) :
    FollowLaws boxes where
  comm := by
    intro first hfirst second hsecond
    obtain ⟨points, hpoints⟩ := h first hfirst
    obtain ⟨others, hothers⟩ := h second hsecond
    exact hpoints.combine_comm hothers
  assoc := by
    intro first hfirst second hsecond third hthird
    obtain ⟨points, hpoints⟩ := h first hfirst
    obtain ⟨others, hothers⟩ := h second hsecond
    obtain ⟨more, hmore⟩ := h third hthird
    exact hpoints.combine_assoc hothers hmore
  idempotent := by
    intro box hbox
    obtain ⟨points, hpoints⟩ := h box hbox
    exact hpoints.combine_self
  identity := fun box _ ↦ ⟨undefined_combine box, combine_undefined box⟩
  order := by
    intro box hbox points others hperm hfinite
    obtain ⟨before, hbefore⟩ := h box hbox
    have hother := fun point hpoint ↦ hfinite point (hperm.mem_iff.mpr hpoint)
    exact (hbefore.updateAll hfinite).same (hbefore.updateAll hother) fun point ↦ by
      rw [List.mem_append, List.mem_append, hperm.mem_iff]

/-- Boxes made by any steps, fed with points that have values. Every box tells of just the points fed
into it and into the boxes it was made from: it is undefined exactly if there are none, and else its
sides are the least and greatest coordinates. So two boxes with the same points are equal by value,
however they were made, and combining is commutative, associative and idempotent by value, with the
undefined box as identity. A step changes no box but the one it feeds, so that combining and copying
leave alone the boxes they start from. -/
theorem Box.run_encloses {steps : List BoxStep} (hsteps : ∀ step ∈ steps, step.isFinite = true) :
    let boxes := BoxStep.run .boxes steps
    let fed := BoxStep.run .points steps
    boxes.length = fed.length ∧
    (∀ (k : ℕ) (box : Box) points, boxes[k]? = some box → fed[k]? = some points →
      box.Encloses points) ∧
    (∀ others : List BoxStep, (∀ step ∈ others, step.isFinite = true) →
      ∀ (k l : ℕ) (box other : Box) points points', boxes[k]? = some box → fed[k]? = some points →
        (BoxStep.run .boxes others)[l]? = some other →
        (BoxStep.run .points others)[l]? = some points' → points.Perm points' → box.Same other) ∧
    FollowLaws boxes ∧
    ∀ (k : ℕ) (box : Box) (step : BoxStep), boxes[k]? = some box →
      (∀ x y, step ≠ .update k x y) → (step.after .boxes boxes)[k]? = some box := by
  intro boxes fed
  refine ⟨(BoxStep.run_isHull hsteps).length_eq, fun k box points hbox hpoints ↦ ?_,
    fun others hothers k l box other points points' hbox hpoints hother hpoints' hperm ↦ ?_,
    followLaws fun box hbox ↦ ?_, fun k box step hbox hstep ↦ BoxStep.getElem?_after _ hbox hstep⟩
  · obtain ⟨found, hfound, hhull⟩ := BoxStep.exists_isHull hsteps hbox
    cases hfound.symm.trans hpoints
    exact hhull.encloses
  · obtain ⟨found, hfound, hhull⟩ := BoxStep.exists_isHull hsteps hbox
    obtain ⟨found', hfound', hhull'⟩ := BoxStep.exists_isHull hothers hother
    cases hfound.symm.trans hpoints
    cases hfound'.symm.trans hpoints'
    exact hhull.same hhull' fun point ↦ hperm.mem_iff
  · obtain ⟨k, hk⟩ := List.getElem?_of_mem hbox
    obtain ⟨points, -, hhull⟩ := BoxStep.exists_isHull hsteps hk
    exact ⟨points, hhull⟩

/-- Two boxes that are fed in turn, one of them also by a float; their combination is copied, and the
copy fed again. The last box stays undefined. -/
def mixedSteps : List BoxStep :=
  [.create, .update 0 (.int 3) (.int 4), .create,
    .update 1 (.float (.ofUnits true Binary64.unitsPerOne 2)) (.int 7), .combine 0 1, .copy 2,
    .update 3 (.int 5) (.int 8), .create]

theorem Box.run_encloses_mixedSteps :
    (∀ step ∈ mixedSteps, step.isFinite = true) ∧
    ∃ boxes, boxes = BoxStep.run .boxes mixedSteps ∧
      boxes[2]? = some (.sides (.float (.finite true 1022 0)) (.int 4) (.int 3) (.int 7)) ∧
      boxes[3]? = some (.sides (.float (.finite true 1022 0)) (.int 4) (.int 5) (.int 8)) ∧
      boxes[4]? = some .undefined ∧ FollowLaws boxes := by
  have hfinite : ∀ step ∈ mixedSteps, step.isFinite = true := by decide +kernel
  refine ⟨hfinite, _, rfl, ?_, ?_, ?_, (Box.run_encloses hfinite).2.2.2.1⟩
  all_goals decide +kernel

end Motion
