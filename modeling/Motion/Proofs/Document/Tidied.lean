import Motion.Document.Typed
import Motion.Proofs.Easing.Mention
import Motion.Proofs.Scene.Frames
import Motion.Proofs.Scene.Levels

/-!
What cleaning changes within a scene. Some items go from lists and static gradients give way to their
tokens (`Data.Tidied`); nothing else changes below the root. So no level is added, the groups keep
their properties, and if nothing goes that mentions an easing the same easings are mentioned.
-/

set_option autoImplicit false
set_option relaxedAutoImplicit false

namespace Motion

namespace Data

/-- Whether a value comes from another one by dropping items and by replacing static gradients with
tokens. The items that may go satisfy a condition. -/
inductive Tidied (gone : Data → Prop) : Data → Data → Prop
  | same (value : Data) : Tidied gone value value
  | trans {first second third : Data} (before : Tidied gone first second)
      (after : Tidied gone second third) : Tidied gone first third
  | drop {item : Data} {rest kept : List Data} (hgone : gone item)
      (others : Tidied gone (.list rest) (.list kept)) :
      Tidied gone (.list (item :: rest)) (.list kept)
  | cons {item tidied : Data} {rest kept : List Data} (first : Tidied gone item tidied)
      (others : Tidied gone (.list rest) (.list kept)) :
      Tidied gone (.list (item :: rest)) (.list (tidied :: kept))
  | member {members : Members} {key : String} {value tidied : Data}
      (hkey : key = itemKey ∨ key = itemsKey) (hget : Entries.get? members key = some value)
      (below : Tidied gone value tidied) :
      Tidied gone (.obj members) (.obj (Entries.put members key tidied))
  | paint {members : Members} {key : String} {paint : Data} (hkey : key = "fill" ∨ key = "stroke")
      (hget : Entries.get? members key = some paint) (hstatic : paint.isStaticGradient = true)
      (n : ℕ) :
      Tidied gone (.obj members) (.obj (Entries.put members key (.str (tokenOf (gradientName n)))))

variable {gone : Data → Prop} {value tidied : Data}

/-- Tidying an object keeps the members that neither hold items nor are painted, and tidies what stands
under `items`. -/
theorem Tidied.obj {members : Members} (h : Tidied gone (.obj members) tidied) :
    ∃ others, tidied = .obj others ∧
      (∀ key ∉ [itemKey, itemsKey, "fill", "stroke"],
        Entries.get? others key = Entries.get? members key) ∧
      Tidied gone ((Entries.get? members itemsKey).getD .null)
        ((Entries.get? others itemsKey).getD .null) := by
  generalize hvalue : Data.obj members = value at h
  induction h generalizing members with
  | same value => exact ⟨members, hvalue.symm, fun _ _ ↦ rfl, .same _⟩
  | trans _ _ first second =>
    obtain ⟨between, rfl, hbefore, hfirst⟩ := first hvalue
    obtain ⟨others, rfl, hafter, hsecond⟩ := second rfl
    exact ⟨others, rfl, fun key hkey ↦ (hafter key hkey).trans (hbefore key hkey),
      .trans hfirst hsecond⟩
  | drop => cases hvalue
  | cons => cases hvalue
  | @member others key value tidied hkey hget below =>
    cases hvalue
    have hlisted : key ∈ [itemKey, itemsKey, "fill", "stroke"] := by
      rcases hkey with rfl | rfl <;> decide
    refine ⟨_, rfl, fun other hother ↦ Entries.get?_put_of_ne ?_ others tidied, ?_⟩
    · rintro rfl
      exact hother hlisted
    · rcases hkey with rfl | rfl
      · rw [Entries.get?_put_of_ne (by decide)]
        exact .same _
      · rw [hget, Entries.get?_put_self]
        exact below
  | @paint others key paint hkey =>
    cases hvalue
    have hlisted : key ∈ [itemKey, itemsKey, "fill", "stroke"] := by
      rcases hkey with rfl | rfl <;> decide
    refine ⟨_, rfl, fun other hother ↦ Entries.get?_put_of_ne ?_ others _, ?_⟩
    · rintro rfl
      exact hother hlisted
    · have hne : key ≠ itemsKey := by rcases hkey with rfl | rfl <;> decide
      rw [Entries.get?_put_of_ne hne]
      exact .same _

section Levels

/-- The values that stand among the items of an object whose member `items` is the given value. -/
def standing : Data → List Data
  | .list items => items
  | .obj members => [.obj members]
  | _ => []

theorem children_obj (members : Members) :
    (Data.obj members).children = ((Entries.get? members itemsKey).getD .null).standing := by
  rw [children]
  cases Entries.get? members itemsKey with
  | none => rfl
  | some value => cases value <;> rfl

/-- A value that goes no deeper than another one, as an object, as an item and as a list of items. -/
structure IsShallower (tidied value : Data) : Prop where
  exceeds : ∀ limit depth, tidied.exceeds limit depth = true → value.exceeds limit depth = true
  opens : tidied.opensLevel = true → value.opensLevel = true
  standing : ∀ limit depth, tidied.standing.any (goesBeyond limit depth) = true →
    value.standing.any (goesBeyond limit depth) = true

theorem IsShallower.goesBeyond (h : IsShallower tidied value) {limit depth : ℤ}
    (hbeyond : tidied.goesBeyond limit depth = true) : value.goesBeyond limit depth = true := by
  unfold Data.goesBeyond at hbeyond ⊢
  rw [Bool.and_eq_true, Bool.or_eq_true] at hbeyond ⊢
  exact ⟨h.opens hbeyond.1, hbeyond.2.imp_right (h.exceeds limit (depth + 1))⟩

theorem isShallower_list {items kept : List Data}
    (h : ∀ limit depth, kept.any (Data.goesBeyond limit depth) = true →
      items.any (Data.goesBeyond limit depth) = true) : IsShallower (.list kept) (.list items) :=
  ⟨fun _ _ hexceeds ↦ hexceeds, fun hopens ↦ hopens, h⟩

/-- An object goes no deeper than another one if it has no items where that has none, and what stands
among its items goes no deeper. -/
theorem isShallower_obj {members others : Members}
    (hopens : hasItems others = true → hasItems members = true)
    (h : ∀ limit depth, (Data.obj others).children.any (Data.goesBeyond limit depth) = true →
      (Data.obj members).children.any (Data.goesBeyond limit depth) = true) :
    IsShallower (.obj others) (.obj members) := by
  have hexceeds (limit depth : ℤ) (hother : (Data.obj others).exceeds limit depth = true) :
      (Data.obj members).exceeds limit depth = true := by
    rw [exceeds_eq] at hother ⊢
    exact h limit depth hother
  refine ⟨hexceeds, hopens, fun limit depth hbeyond ↦ ?_⟩
  rw [Data.standing, List.any_cons, List.any_nil, Bool.or_false] at hbeyond ⊢
  unfold Data.goesBeyond at hbeyond ⊢
  rw [Bool.and_eq_true, Bool.or_eq_true] at hbeyond ⊢
  exact ⟨hopens hbeyond.1, hbeyond.2.imp_right (hexceeds limit (depth + 1))⟩

/-- Putting a value under a key other than `items` adds no level. -/
theorem isShallower_put {key : String} (hkey : key ≠ itemsKey) (members : Members) (value : Data) :
    IsShallower (.obj (Entries.put members key value)) (.obj members) := by
  refine isShallower_obj (fun h ↦ ?_) fun limit depth h ↦ ?_
  · rwa [hasItems, Entries.contains_congr (Entries.get?_put_of_ne hkey members value)] at h
  · rwa [children_obj, Entries.get?_put_of_ne hkey, ← children_obj] at h

/-- Tidying adds no level. -/
theorem Tidied.isShallower (h : Tidied gone value tidied) : IsShallower tidied value := by
  induction h with
  | same => exact ⟨fun _ _ h ↦ h, id, fun _ _ h ↦ h⟩
  | trans _ _ first second =>
    exact ⟨fun limit depth h ↦ first.exceeds limit depth (second.exceeds limit depth h),
      first.opens ∘ second.opens,
      fun limit depth h ↦ first.standing limit depth (second.standing limit depth h)⟩
  | drop _ _ others =>
    refine isShallower_list fun limit depth h ↦ ?_
    rw [List.any_cons, Bool.or_eq_true]
    exact Or.inr (others.standing limit depth h)
  | cons _ _ first others =>
    refine isShallower_list fun limit depth h ↦ ?_
    rw [List.any_cons, Bool.or_eq_true] at h ⊢
    exact h.imp first.goesBeyond (others.standing limit depth)
  | @member members key value tidied hkey hget _ below =>
    rcases hkey with rfl | rfl
    · exact isShallower_put (by decide) members tidied
    · refine isShallower_obj (fun _ ↦ ?_) fun limit depth h ↦ ?_
      · rw [hasItems, Entries.contains_eq_isSome, hget]
        rfl
      · rw [children_obj, Entries.get?_put_self] at h
        rw [children_obj, hget]
        exact below.standing limit depth h
  | @paint members key _ hkey =>
    have hne : key ≠ itemsKey := by rcases hkey with rfl | rfl <;> decide
    exact isShallower_put hne members _

end Levels

section Groups

/-- The items that a member `items` holds, where a value that is no list counts as a list of one. -/
def held : Data → List Data
  | .list items => items
  | value => [value]

theorem heldItems_eq (members : Members) :
    heldItems members = ((Entries.get? members itemsKey).map held).getD [] := by
  rw [heldItems]
  cases Entries.get? members itemsKey with
  | none => rfl
  | some value => cases value <;> rfl

/-- The transform properties of the groups from a value on downwards. -/
def groupProperties (value : Data) : List Members :=
  value.groupsOf.map propertiesOf

theorem map_groupsIn (items : List Data) :
    (groupsIn items).map propertiesOf = items.flatMap groupProperties := by
  induction items with
  | nil => rfl
  | cons item rest ih => rw [groupsIn, List.map_append, ih, List.flatMap_cons, groupProperties]

theorem groupProperties_obj (members : Members) : (Data.obj members).groupProperties =
    if isGroup members then
      propertiesOf members :: (heldItems members).flatMap groupProperties else [] := by
  rw [groupProperties, groupsOf, groupsAmong_eq]
  split_ifs <;> simp [map_groupsIn]

theorem isGroup_congr {members others : Members}
    (h : Entries.get? others typeKey = Entries.get? members typeKey) :
    isGroup others = isGroup members := by
  rw [isGroup, isGroup, h]

/-- An object and one that it has been tidied to have the same properties and those of the same groups
below, if what goes is no group. -/
theorem Tidied.groupProperties (hgone : ∀ item, gone item → item.groupProperties = [])
    (h : Tidied gone value tidied) : tidied.groupProperties = value.groupProperties ∧
      tidied.held.flatMap Data.groupProperties = value.held.flatMap Data.groupProperties := by
  have hput {members : Members} {key : String} (hname : Property.ofName? key = none)
      (htype : key ≠ typeKey) (hitems : key ≠ itemsKey) (value : Data) :
      (Data.obj (Entries.put members key value)).groupProperties =
        (Data.obj members).groupProperties := by
    rw [groupProperties_obj, groupProperties_obj, propertiesOf_put hname, heldItems_eq,
      heldItems_eq, Entries.get?_put_of_ne hitems,
      isGroup_congr (Entries.get?_put_of_ne htype members value)]
  have hobj {members others : Members}
      (hsame : (Data.obj others).groupProperties = (Data.obj members).groupProperties) :
      (Data.obj others).groupProperties = (Data.obj members).groupProperties ∧
        (Data.obj others).held.flatMap Data.groupProperties =
          (Data.obj members).held.flatMap Data.groupProperties :=
    ⟨hsame, by simp only [held, List.flatMap_cons, List.flatMap_nil, hsame]⟩
  induction h with
  | same => exact ⟨rfl, rfl⟩
  | trans _ _ first second => exact ⟨second.1.trans first.1, second.2.trans first.2⟩
  | drop hitem _ others =>
    refine ⟨rfl, ?_⟩
    rw [others.2, held, held, List.flatMap_cons, hgone _ hitem, List.nil_append]
  | cons _ _ first others =>
    refine ⟨rfl, ?_⟩
    have hrest := others.2
    rw [held, held] at hrest ⊢
    rw [List.flatMap_cons, List.flatMap_cons, first.1, hrest]
  | @member members key value tidied hkey hget _ below =>
    rcases hkey with rfl | rfl
    · exact hobj (hput (by decide) (by decide) (by decide) tidied)
    · refine hobj ?_
      rw [groupProperties_obj, groupProperties_obj, propertiesOf_put (by decide), heldItems_eq,
        heldItems_eq, Entries.get?_put_self, hget,
        isGroup_congr (Entries.get?_put_of_ne (by decide) members tidied)]
      simp only [Option.map_some, Option.getD_some, below.2]
  | paint hkey =>
    rcases hkey with rfl | rfl <;> exact hobj (hput (by decide) (by decide) (by decide) _)

/-- The transform properties of the groups below a root. -/
theorem map_groups (members : Members) : (Data.obj members).groups.map propertiesOf =
    ((Entries.get? members itemsKey).getD .null).held.flatMap groupProperties := by
  have hheld : (heldItems members).flatMap groupProperties =
      ((Entries.get? members itemsKey).getD .null).held.flatMap groupProperties := by
    rw [heldItems_eq]
    cases Entries.get? members itemsKey <;> rfl
  rw [groups, groupsAmong_eq, map_groupsIn, hheld]

end Groups

section Easings

theorem easingTokens_of_isStaticGradient {paint : Data} (h : paint.isStaticGradient = true) :
    paint.easingTokens = [] := by
  refine easingTokens_of_refersToResource paint ?_
  unfold isStaticGradient at h
  split at h
  · rw [Bool.and_eq_true, Bool.not_eq_true'] at h
    exact h.2
  · cases h

/-- Tidying keeps the easings that are mentioned, if what goes mentions none. -/
theorem Tidied.easingTokens (hgone : ∀ item, gone item → item.easingTokens = [])
    (h : Tidied gone value tidied) : tidied.easingTokens = value.easingTokens := by
  induction h with
  | same => rfl
  | trans _ _ first second => exact second.trans first
  | drop hitem _ others =>
    rw [others, Data.easingTokens, Data.easingTokens, tokensInList, hgone _ hitem, List.nil_append]
  | cons _ _ first others =>
    rw [Data.easingTokens, Data.easingTokens] at others
    rw [Data.easingTokens, Data.easingTokens, tokensInList, tokensInList, first, others]
  | member _ hget _ below =>
    rw [Data.easingTokens, Data.easingTokens, tokensInMembers_put hget below]
  | paint _ hget hstatic n =>
    have htoken : (Data.str (tokenOf (gradientName n))).easingTokens = [] := by
      rw [Data.easingTokens]
      exact tokensIn_gradient n
    rw [Data.easingTokens, Data.easingTokens, tokensInMembers_put hget]
    rw [htoken, easingTokens_of_isStaticGradient hstatic]

end Easings

end Data

end Motion
