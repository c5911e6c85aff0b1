import Motion.Proofs.Scene.Appearance
import Motion.Proofs.Scene.Frames
import Motion.Proofs.Scene.Merging

/-!
What a group does, told by its members and told by its tags. Moving properties under tags, dropping
what does not show and moving properties back keep it; pushing the tags of a group into its only
child makes the child do the work of both.
-/

set_option autoImplicit false
set_option relaxedAutoImplicit false

namespace Motion

namespace Pose

/-- What the properties among the members of a group amount to. -/
def ofMembers (env : Assignment) (members : Members) : Pose :=
  fun property ↦ reading env members property.name

/-- What properties under tags amount to, all kinds of a property taken together. -/
def ofTags (env : Assignment) (tags : Tagged) : Pose :=
  fun property ↦ (mergeOperator property).apply
    ((mergeOperator property).apply (reading env tags ⟨property, .numeric⟩)
      (reading env tags ⟨property, .binding⟩)) (reading env tags ⟨property, .special⟩)

theorem ofTags_of_neutral {env : Assignment} {tags : Tagged} {property : Property}
    (h : ∀ kind, reading env tags ⟨property, kind⟩ = neutral property) :
    ofTags env tags property = neutral property := by
  rw [ofTags, h, h, h, apply_neutral_left, apply_neutral_left]

theorem appearance_ofTags_nil (turning : Turning) (env : Assignment) :
    (ofTags env []).appearance turning = 1 :=
  appearance_of_neutral fun _ ↦ ofTags_of_neutral fun _ ↦ reading_of_none rfl

/-- Where one kind of a property is there at most, it alone counts. -/
theorem ofTags_of_kind {env : Assignment} {tags : Tagged} {property : Property} (kind : Kind)
    (h : ∀ other, other ≠ kind → Entries.get? tags ⟨property, other⟩ = none) :
    ofTags env tags property = reading env tags ⟨property, kind⟩ := by
  have hneutral (other : Kind) (hne : other ≠ kind) :
      reading env tags ⟨property, other⟩ = neutral property := reading_of_none (h other hne)
  cases kind with
  | numeric =>
    rw [ofTags, hneutral .binding (by decide), hneutral .special (by decide), apply_neutral_right,
      apply_neutral_right]
  | binding =>
    rw [ofTags, hneutral .numeric (by decide), hneutral .special (by decide), apply_neutral_left,
      apply_neutral_right]
  | special =>
    rw [ofTags, hneutral .numeric (by decide), hneutral .binding (by decide), apply_neutral_left,
      apply_neutral_left]

/-- Tags that amount to what two others merge to, merge what the two do. -/
theorem ofTags_merge {env : Assignment} {merged tags candidates : Tagged}
    (h : ∀ tag, reading env merged tag =
      (mergeOperator tag).apply (reading env tags tag) (reading env candidates tag)) :
    ofTags env merged = merge (ofTags env candidates) (ofTags env tags) := by
  funext property
  have hkind (kind : Kind) : reading env merged ⟨property, kind⟩ =
      (mergeOperator property).apply (reading env tags ⟨property, kind⟩)
        (reading env candidates ⟨property, kind⟩) := h ⟨property, kind⟩
  rw [merge, ofTags, ofTags, ofTags, hkind, hkind, hkind]
  rcases mergeOperator_eq property with ⟨hop, -⟩ | ⟨hop, -⟩
  · rw [hop]
    simp only [Operator.apply]
    ring
  · rw [hop]
    simp only [Operator.apply]
    ring

end Pose

open Pose

section Pruning

variable {κ : Type} [DecidableEq κ] [HasFamily κ]

/-- Either pruning keeps all readings, or nothing turns or scales and it keeps all but those of the
pivot. -/
theorem prune_cases {entries : Entries κ Data} (h : IsReadable entries) (env : Assignment) :
    (∀ key, reading env (prune entries) key = reading env entries key) ∨
      (∀ key, family? key = some .rotation ∨ family? key = some .scale →
        reading env entries key = neutral key) ∧
      ∀ key, family? key ≠ some .pivot →
        reading env (prune entries) key = reading env entries key := by
  cases hused : pivotUsed entries with
  | true => exact Or.inl fun key ↦ reading_prune h (Or.inl hused)
  | false => exact Or.inr ⟨fun key hkey ↦ reading_of_pivotUsed_eq_false h hused hkey,
      fun key hkey ↦ reading_prune h (Or.inr hkey)⟩

variable {turning : Turning} {env : Assignment}

theorem family?_name (property : Property) : family? property.name = some property.family := by
  show (Property.ofName? property.name).map Property.family = some property.family
  rw [Property.ofName?_name]
  rfl

theorem neutral_name (property : Property) : neutral property.name = neutral property := by
  rw [neutral, family?_name]
  rfl

theorem appearance_ofMembers_prune {members : Members} (h : IsReadable members) :
    (ofMembers env (prune members)).appearance turning =
      (ofMembers env members).appearance turning := by
  rcases prune_cases h env with hsame | ⟨hstill, hsame⟩
  · rw [show ofMembers env (prune members) = ofMembers env members from
      funext fun property ↦ hsame property.name]
  · refine IsStill.appearance_congr (fun property hfamily ↦ ?_) fun property hfamily ↦ ?_
    · rw [ofMembers, hstill, neutral_name]
      rw [family?_name, Option.some_inj, Option.some_inj]
      exact hfamily
    · apply hsame
      rw [family?_name, Ne, Option.some_inj]
      exact hfamily

theorem appearance_ofTags_prune {tags : Tagged} (h : IsReadable tags) :
    (ofTags env (prune tags)).appearance turning = (ofTags env tags).appearance turning := by
  rcases prune_cases h env with hsame | ⟨hstill, hsame⟩
  · rw [show ofTags env (prune tags) = ofTags env tags from
      funext fun property ↦ by rw [ofTags, ofTags, hsame, hsame, hsame]]
  · refine IsStill.appearance_congr (fun property hfamily ↦ ?_) fun property hfamily ↦ ?_
    · refine ofTags_of_neutral fun kind ↦ hstill _ ?_
      exact hfamily.imp (congrArg some) (congrArg some)
    · have hkind (kind : Kind) : reading env (prune tags) ⟨property, kind⟩ =
          reading env tags ⟨property, kind⟩ := hsame _ fun hpivot ↦ hfamily (Option.some_inj.mp hpivot)
      rw [ofTags, ofTags, hkind, hkind, hkind]

end Pruning

/-- Tags of a group: each is there once and holds a value of its kind, and a special value is the
only one of its property. -/
structure Tagged.IsSound (tags : Tagged) : Prop where
  nodup : (Entries.keys tags).Nodup
  isOf : ∀ tag value, Entries.get? tags tag = some value → value.IsOf tag.kind
  alone : ∀ property value, Entries.get? tags ⟨property, .special⟩ = some value →
    ∀ kind, kind ≠ .special → Entries.get? tags ⟨property, kind⟩ = none

theorem Tagged.IsMergeable.isSound {tags : Tagged} (h : tags.IsMergeable) : tags.IsSound where
  nodup := h.nodup
  isOf := h.isOf
  alone := fun property value hget ↦ absurd rfl (h.kind ⟨property, .special⟩ value hget)

theorem Tagged.isSound_nil : IsSound [] :=
  ⟨List.nodup_nil, fun _ _ h ↦ (by cases h), fun _ _ h ↦ (by cases h)⟩

section Tagging

variable {members : Members}

/-- The value that a member puts under a tag. -/
def taggedValue? (members : Members) (tag : Tag) : Option Data :=
  (Entries.get? members tag.property.name).bind fun value ↦
    if value.kind = tag.kind then some value.tagged else none

theorem tagMember_nodup {tags : Tagged} (h : (Entries.keys tags).Nodup) (property : Property) :
    (Entries.keys (tagMember members tags property)).Nodup := by
  unfold tagMember
  cases Entries.get? members property.name with
  | none => exact h
  | some value => exact Entries.nodup_keys_put h _ _

theorem get?_tagMember (members : Members) {tags : Tagged} {property : Property} (tag : Tag)
    (h : tag.property = property → Entries.get? tags tag = none) :
    Entries.get? (tagMember members tags property) tag =
      if tag.property = property then taggedValue? members tag else Entries.get? tags tag := by
  unfold tagMember taggedValue?
  split_ifs with hproperty
  · subst hproperty
    cases Entries.get? members tag.property.name with
    | none => exact h rfl
    | some value =>
      dsimp only [Option.bind_some]
      rw [Entries.get?_put]
      split_ifs with htag hkind hkind
      · rfl
      · exact absurd (congrArg Tag.kind htag) hkind
      · exact absurd (by rw [hkind]) htag
      · exact h rfl
  · cases Entries.get? members property.name with
    | none => rfl
    | some value =>
      refine Entries.get?_put_of_ne ?_ tags _
      rintro rfl
      exact hproperty rfl

/-- Tagging finds under each tag what the member of its property puts there. -/
theorem tagMembers_spec (members : Members) : ∀ (order : List Property) (tags : Tagged), order.Nodup →
    (Entries.keys tags).Nodup → (∀ tag, tag.property ∈ order → Entries.get? tags tag = none) →
      (Entries.keys (order.foldl (tagMember members) tags)).Nodup ∧
        ∀ tag, Entries.get? (order.foldl (tagMember members) tags) tag =
          if tag.property ∈ order then taggedValue? members tag else Entries.get? tags tag
  | [], tags, _, htags, _ => ⟨htags, fun _ ↦ (if_neg List.not_mem_nil).symm⟩
  | property :: rest, tags, horder, htags, hfresh => by
    obtain ⟨hproperty, hrest⟩ := List.nodup_cons.mp horder
    have hget (tag : Tag) := get?_tagMember members tag fun htag ↦
      hfresh tag (List.mem_cons.mpr (Or.inl htag))
    obtain ⟨hnodup, hall⟩ := tagMembers_spec members rest _ hrest (tagMember_nodup htags property)
      fun tag htag ↦ by
        have hne : tag.property ≠ property := fun heq ↦ hproperty (heq ▸ htag)
        rw [hget, if_neg hne]
        exact hfresh tag (List.mem_cons_of_mem _ htag)
    refine ⟨hnodup, fun tag ↦ ?_⟩
    rw [List.foldl_cons, hall, hget]
    by_cases htag : tag.property = property
    · rw [if_pos htag, if_neg (htag ▸ hproperty), if_pos (List.mem_cons.mpr (Or.inl htag))]
    · simp [htag]

theorem Property.mem_all (property : Property) : property ∈ all := by
  cases property <;> decide

theorem get?_tagMembers (members : Members) (tag : Tag) :
    Entries.get? (tagMembers members) tag = taggedValue? members tag := by
  have hall : Property.all.Nodup := by decide
  have hspec := (tagMembers_spec members Property.all [] hall List.nodup_nil fun _ _ ↦ rfl).2 tag
  rwa [if_pos tag.property.mem_all] at hspec

theorem nodup_tagMembers (members : Members) : (Entries.keys (tagMembers members)).Nodup := by
  have hall : Property.all.Nodup := by decide
  exact (tagMembers_spec members Property.all [] hall List.nodup_nil fun _ _ ↦ rfl).1

theorem taggedValue?_eq_some {tag : Tag} {value : Data} (h : taggedValue? members tag = some value) :
    ∃ member, Entries.get? members tag.property.name = some member ∧ member.kind = tag.kind ∧
      member.tagged = value := by
  obtain ⟨member, hmember, hvalue⟩ := Option.bind_eq_some_iff.mp h
  split_ifs at hvalue with hkind
  cases hvalue
  exact ⟨member, hmember, hkind, rfl⟩

/-- A property is under a tag of one kind at most. -/
theorem get?_tagMembers_of_ne {property : Property} {kind other : Kind} {value : Data}
    (hget : Entries.get? (tagMembers members) ⟨property, kind⟩ = some value) (hne : other ≠ kind) :
    Entries.get? (tagMembers members) ⟨property, other⟩ = none := by
  rw [get?_tagMembers] at hget ⊢
  obtain ⟨member, hmember, hkind, -⟩ := taggedValue?_eq_some hget
  have hother : member.kind ≠ other := fun heq ↦ hne (heq.symm.trans hkind)
  simp [taggedValue?, hmember, hother]

/-- Members of a group that can be moved under tags: they stand for something and are not null. -/
structure IsTaggable (members : Members) : Prop extends IsReadable members where
  isNull : ∀ property value, Entries.get? members (Property.name property) = some value →
    value.isNull = false

theorem IsTaggable.isOf_tagged (h : IsTaggable members) {property : Property} {value : Data}
    (hget : Entries.get? members property.name = some value) :
    value.tagged.IsOf value.kind ∧ (∀ env, value.tagged.amount env = value.amount env) ∧
      value.tagged.size = value.size := by
  have hfamily : (family? property.name).isSome = true := by rw [family?_name]; rfl
  obtain ⟨e, he⟩ := h.readable _ value hfamily hget
  exact Data.isOf_tagged he (h.isNull property value hget)

theorem isSound_tagMembers (h : IsTaggable members) : (tagMembers members).IsSound where
  nodup := nodup_tagMembers members
  isOf := by
    intro tag value hget
    rw [get?_tagMembers] at hget
    obtain ⟨member, hmember, hkind, rfl⟩ := taggedValue?_eq_some hget
    exact hkind ▸ (h.isOf_tagged hmember).1
  alone := fun _ _ hget _ hkind ↦ get?_tagMembers_of_ne hget hkind

/-- Under tags the properties amount to what they did among the members. -/
theorem ofTags_tagMembers (h : IsTaggable members) (env : Assignment) :
    ofTags env (tagMembers members) = ofMembers env members := by
  funext property
  cases hget : Entries.get? members property.name with
  | none =>
    rw [ofMembers, reading_of_none hget, neutral_name]
    refine ofTags_of_neutral fun kind ↦ reading_of_none ?_
    rw [get?_tagMembers, taggedValue?, hget, Option.bind_none]
  | some value =>
    obtain ⟨hisOf, hamount, -⟩ := h.isOf_tagged hget
    rw [ofMembers, reading_of_some hget (h.isNull property value hget),
      ofTags_of_kind value.kind fun other hother ↦ ?_, reading_of_some ?_ hisOf.isNull, hamount]
    · rw [get?_tagMembers, taggedValue?, hget, Option.bind_some, if_pos rfl]
    · rw [get?_tagMembers, taggedValue?, hget, Option.bind_some, if_neg (Ne.symm hother)]

theorem sizeAt_tagMembers (h : IsTaggable members) (tag : Tag) :
    sizeAt (tagMembers members) tag ≤ sizeAt members tag.property.name := by
  rw [sizeAt, get?_tagMembers]
  cases htagged : taggedValue? members tag with
  | none => exact one_le_sizeAt members _
  | some value =>
    obtain ⟨member, hmember, -, rfl⟩ := taggedValue?_eq_some htagged
    rw [Option.elim_some, (h.isOf_tagged hmember).2.2, sizeAt, hmember, Option.elim_some]

/-- Tagging takes the properties that show from among the members. -/
theorem Frame.tagged_tag (frame : Frame) (items : List Item) :
    (frame.tag items).tagged = tagMembers (prune (frame.members.filter isPublic)) := by
  have hshown : (frame.tag items).tagged = tagMembers
      ((frame.filter isPublic).filter (shows (pivotUsed (frame.filter isPublic).members))).members :=
    rfl
  rw [hshown, Frame.members_filter, Frame.members_filter]
  rfl

end Tagging

end Motion
