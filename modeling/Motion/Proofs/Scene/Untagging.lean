import Motion.Proofs.Scene.Tags

/-!
Moving properties from under their tags back among the members. The number and the binding of a
property become one binding, so that the members amount to what the tags did. It fails only where a
number with too many digits would have to be written.
-/

set_option autoImplicit false
set_option relaxedAutoImplicit false

namespace Motion

open Pose

/-- What a property has to be among the members so that it amounts to what it does under its tags.
-/
structure IsUntagged (tags : Tagged) (property : Property) (value? : Option Data) : Prop where
  absent : value? = none ↔ ∀ kind, Entries.get? tags ⟨property, kind⟩ = none
  present : ∀ value, value? = some value → value.isNull = false ∧
    (∃ e, value.expression? = some e) ∧ ∀ env, value.amount env = ofTags env tags property

/-- Whether some tag holds an integer that has too many digits to be written. -/
def IsOverlong (tags : Tagged) : Prop :=
  ∃ tag, 10 ^ Numeral.digitLimit < sizeAt tags tag

section Untagging

variable {tags : Tagged}

theorem IsUntagged.neutral_of_none {property : Property} (h : IsUntagged tags property none)
    (env : Assignment) : ofTags env tags property = neutral property :=
  ofTags_of_neutral fun kind ↦ reading_of_none (h.absent.mp rfl kind)

/-- Beside a number or a binding there is no special value. -/
theorem Tagged.IsSound.get?_special (h : tags.IsSound) {property : Property} {kind : Kind}
    {value : Data} (hget : Entries.get? tags ⟨property, kind⟩ = some value)
    (hkind : kind ≠ .special) : Entries.get? tags ⟨property, .special⟩ = none := by
  cases hspecial : Entries.get? tags ⟨property, .special⟩ with
  | none => rfl
  | some special =>
    rw [h.alone property special hspecial kind hkind] at hget
    cases hget

theorem isUntagged_kind {property : Property} {kind : Kind} {value : Data} (h : tags.IsSound)
    (hget : Entries.get? tags ⟨property, kind⟩ = some value)
    (hother : ∀ other, other ≠ kind → Entries.get? tags ⟨property, other⟩ = none) :
    IsUntagged tags property (some value) where
  absent := by
    refine ⟨fun hnone ↦ (by cases hnone), fun hall ↦ ?_⟩
    rw [hall kind] at hget
    cases hget
  present := by
    rintro current hcurrent
    cases hcurrent
    have hisOf := h.isOf _ value hget
    refine ⟨hisOf.isNull, hisOf.expression?, fun env ↦ ?_⟩
    rw [ofTags_of_kind kind hother, reading_of_some hget hisOf.isNull]

/-- A number under a tag that cannot be written is too long. -/
theorem isOverlong_of_get? {tag : Tag} {i : ℤ} (hget : Entries.get? tags tag = some (.num (.int i)))
    (hwritable : isWritableOperand (.num (.int i)) = false) : IsOverlong tags := by
  refine ⟨tag, ?_⟩
  rw [isWritableOperand, Number.isWritable, decide_eq_false_iff_not, Nat.pow_eq] at hwritable
  rw [sizeAt_of_some hget, Data.size_of_number? (Data.number?_int i)]
  generalize 10 ^ Numeral.digitLimit = bound at hwritable ⊢
  omega

/-- A number and a binding merge into one binding, unless the number is too long. -/
theorem untagValue?_both (h : tags.IsSound) {property : Property} {number binding : Data}
    (hnumber : Entries.get? tags ⟨property, .numeric⟩ = some number)
    (hbinding : Entries.get? tags ⟨property, .binding⟩ = some binding) :
    (∃ value, untagValue? tags property = .ok (some value) ∧
        IsUntagged tags property (some value)) ∨
      untagValue? tags property = .error .badValue ∧ IsOverlong tags := by
  have hvalue : number.IsOf .numeric := h.isOf _ number hnumber
  have huntag : untagValue? tags property =
      (mergeText tags ⟨property, .binding⟩ number none).map fun merged ↦
        Entries.get? merged ⟨property, .binding⟩ := by
    rw [untagValue?, hnumber, hbinding]
  by_cases hwritable : isWritableOperand number = true
  · obtain ⟨merged, hok, hmerge⟩ := mergeText_eq_ok (h.isOf ⟨property, .binding⟩) hvalue (by decide)
      hwritable (Or.inl rfl)
    refine Or.inl ⟨merged, ?_, ⟨fun hnone ↦ (by cases hnone), fun hall ↦ ?_⟩, ?_⟩
    · rw [huntag, hok, Except.map, Entries.get?_put_self]
    · rw [hall] at hnumber
      cases hnumber
    · rintro current hcurrent
      cases hcurrent
      refine ⟨hmerge.isOf.isNull, hmerge.isOf.expression?, fun env ↦ ?_⟩
      have hnone : reading env tags ⟨property, .special⟩ = neutral property :=
        reading_of_none (h.get?_special hnumber (by decide))
      have hread : reading env tags ⟨property, .numeric⟩ = number.amount env :=
        reading_of_some hnumber hvalue.isNull
      rw [hmerge.amount, ofTags, hnone, apply_neutral_right, hread]
      exact apply_comm property _ _
  · obtain ⟨i, rfl⟩ := hvalue
    refine Or.inr ⟨?_, isOverlong_of_get? hnumber (Bool.eq_false_iff.mpr hwritable)⟩
    rw [huntag, mergeText, Bool.eq_false_iff.mpr hwritable, Bool.and_false]
    rfl

/-- Taking a property from under its tags keeps what it amounts to, or a number is too long. -/
theorem untagValue?_cases (h : tags.IsSound) (property : Property) :
    (∃ value?, untagValue? tags property = .ok value? ∧ IsUntagged tags property value?) ∨
      untagValue? tags property = .error .badValue ∧ IsOverlong tags := by
  cases hbinding : Entries.get? tags ⟨property, .binding⟩ with
  | some binding =>
    cases hnumber : Entries.get? tags ⟨property, .numeric⟩ with
    | some number =>
      refine (untagValue?_both h hnumber hbinding).imp_left ?_
      rintro ⟨value, hok, hvalue⟩
      exact ⟨some value, hok, hvalue⟩
    | none =>
      refine Or.inl ⟨some binding, by rw [untagValue?, hnumber, hbinding],
        isUntagged_kind h hbinding fun other hother ↦ ?_⟩
      cases other with
      | numeric => exact hnumber
      | binding => exact absurd rfl hother
      | special => exact h.get?_special hbinding (by decide)
  | none =>
    cases hnumber : Entries.get? tags ⟨property, .numeric⟩ with
    | some number =>
      refine Or.inl ⟨some number, by rw [untagValue?, hnumber, hbinding],
        isUntagged_kind h hnumber fun other hother ↦ ?_⟩
      cases other with
      | numeric => exact absurd rfl hother
      | binding => exact hbinding
      | special => exact h.get?_special hnumber (by decide)
    | none =>
      refine Or.inl ⟨Entries.get? tags ⟨property, .special⟩,
        by rw [untagValue?, hnumber, hbinding], ?_⟩
      cases hspecial : Entries.get? tags ⟨property, .special⟩ with
      | some value =>
        refine isUntagged_kind h hspecial fun other hother ↦ ?_
        cases other with
        | numeric => exact hnumber
        | binding => exact hbinding
        | special => exact absurd rfl hother
      | none =>
        refine ⟨⟨fun _ kind ↦ ?_, fun _ ↦ rfl⟩, fun _ hsome ↦ ?_⟩
        · cases kind with
          | numeric => exact hnumber
          | binding => exact hbinding
          | special => exact hspecial
        · cases hsome

end Untagging

namespace Frame

theorem keys_members (frame : Frame) :
    Entries.keys frame.members = Entries.keys frame.before ++ Entries.keys frame.after :=
  List.map_append

/-- Putting a member keeps the keys distinct. -/
theorem nodup_members_put {frame : Frame} (h : (Entries.keys frame.members).Nodup) (key : String)
    (value : Data) : (Entries.keys (frame.put key value).members).Nodup := by
  rw [keys_members] at h ⊢
  rw [put]
  split_ifs with hbefore
  · rw [Entries.keys_put, if_pos hbefore]
    exact h
  · rw [Entries.contains_iff_mem_keys] at hbefore
    rw [Entries.keys_put]
    split_ifs with hafter
    · exact h
    · rw [Entries.contains_iff_mem_keys] at hafter
      rw [← List.append_assoc]
      refine List.nodup_append.mpr ⟨h, List.nodup_singleton key, fun first hfirst last hlast heq ↦ ?_⟩
      rw [List.mem_singleton] at hlast
      rw [heq, hlast] at hfirst
      rcases List.mem_append.mp hfirst with hmem | hmem
      · exact hbefore hmem
      · exact hafter hmem

/-- What the members of a group are after properties have been taken from under its tags. -/
structure HasUntagged (tags : Tagged) (order : List Property) (frame after : Frame) : Prop where
  nodup : (Entries.keys after.members).Nodup
  other : ∀ key, (∀ property ∈ order, Property.name property ≠ key) →
    Entries.get? after.members key = Entries.get? frame.members key
  untagged : ∀ property ∈ order,
    IsUntagged tags property (Entries.get? after.members property.name)

theorem untagProperty_cases {tags : Tagged} (h : tags.IsSound) {frame : Frame}
    (hnodup : (Entries.keys frame.members).Nodup) {property : Property}
    (hfresh : Entries.get? frame.members property.name = none) :
    (∃ after, untagProperty tags frame property = .done after ∧
        HasUntagged tags [property] frame after) ∨
      untagProperty tags frame property = .stopped frame .badValue ∧ IsOverlong tags := by
  rcases untagValue?_cases h property with ⟨value?, hok, huntagged⟩ | ⟨herror, hlong⟩
  · refine Or.inl ?_
    cases value? with
    | none =>
      refine ⟨frame, by rw [untagProperty, hok]; rfl, hnodup, fun _ _ ↦ rfl, fun other hother ↦ ?_⟩
      rw [List.mem_singleton] at hother
      rw [hother, hfresh]
      exact huntagged
    | some value =>
      refine ⟨frame.put property.name value, by rw [untagProperty, hok]; rfl,
        nodup_members_put hnodup _ _, fun key hkey ↦ ?_, fun other hother ↦ ?_⟩
      · rw [get?_members_put, if_neg (hkey property (List.mem_singleton.mpr rfl))]
      · rw [List.mem_singleton] at hother
        rw [hother, get?_members_put, if_pos rfl]
        exact huntagged
  · refine Or.inr ⟨?_, hlong⟩
    rw [untagProperty, herror]
    rfl

/-- Goes on with a walk by taking properties from under their tags. -/
def untagEach (tags : Tagged) (walk : Progress Frame) (order : List Property) : Progress Frame :=
  order.foldl (fun acc property ↦ acc.andThen fun before ↦ untagProperty tags before property) walk

theorem untag_eq (frame : Frame) :
    frame.untag = untagEach frame.tagged (.done { frame with tags := none }) Property.all :=
  rfl

theorem untagEach_cons (tags : Tagged) (frame : Frame) (property : Property)
    (rest : List Property) : untagEach tags (.done frame) (property :: rest) =
      untagEach tags (untagProperty tags frame property) rest :=
  rfl

theorem untagEach_stopped (tags : Tagged) (frame : Frame) (fault : Fault) (order : List Property) :
    untagEach tags (.stopped frame fault) order = .stopped frame fault := by
  induction order with
  | nil => rfl
  | cons property rest ih => exact ih

/-- Taking properties from under their tags one after the other. -/
theorem untagEach_cases {tags : Tagged} (h : tags.IsSound) : ∀ (order : List Property)
    (frame : Frame), order.Nodup → (Entries.keys frame.members).Nodup →
    (∀ property ∈ order, Entries.get? frame.members (Property.name property) = none) →
      (∃ after, untagEach tags (.done frame) order = .done after ∧
        HasUntagged tags order frame after) ∨
      (untagEach tags (.done frame) order).fault? = some .badValue ∧ IsOverlong tags
  | [], frame, _, hnodup, _ =>
    Or.inl ⟨frame, rfl, hnodup, fun _ _ ↦ rfl, fun _ hmem ↦ absurd hmem List.not_mem_nil⟩
  | property :: rest, frame, horder, hnodup, hfresh => by
    obtain ⟨hproperty, hrest⟩ := List.nodup_cons.mp horder
    rw [untagEach_cons]
    rcases untagProperty_cases h hnodup (hfresh property List.mem_cons_self) with
      ⟨first, hfirst, hput⟩ | ⟨hstopped, hlong⟩
    · have hother (other : Property) (hmem : other ∈ rest) :
          Entries.get? first.members other.name = none := by
        rw [hput.other, hfresh other (List.mem_cons_of_mem _ hmem)]
        intro one hone heq
        rw [List.mem_singleton] at hone
        rw [hone] at heq
        exact hproperty (Property.name_injective heq ▸ hmem)
      rw [hfirst]
      refine (untagEach_cases h rest first hrest hput.nodup hother).imp_left ?_
      rintro ⟨after, hdone, hafter⟩
      refine ⟨after, hdone, hafter.nodup, fun key hkey ↦ ?_, fun other hmem ↦ ?_⟩
      · rw [hafter.other key fun one hone ↦ hkey one (List.mem_cons_of_mem _ hone), hput.other]
        intro one hone
        rw [List.mem_singleton] at hone
        exact hone ▸ hkey property List.mem_cons_self
      · by_cases hlater : other ∈ rest
        · exact hafter.untagged other hlater
        · have heq : other = property := (List.mem_cons.mp hmem).resolve_right hlater
          rw [heq, hafter.other]
          · exact hput.untagged property (List.mem_singleton.mpr rfl)
          · intro one hone hname
            exact hproperty (Property.name_injective hname ▸ hone)
    · rw [hstopped, untagEach_stopped]
      exact Or.inr ⟨rfl, hlong⟩

/-- A group with plain members only. -/
structure IsPlain (frame : Frame) : Prop where
  nodup : (Entries.keys frame.members).Nodup
  plain : ∀ property : Property, Entries.get? frame.members property.name = none

/-- Untagging makes the members amount to what the tags did, or some number is too long. -/
theorem untag_cases {frame : Frame} (hplain : frame.IsPlain) (htags : frame.tagged.IsSound) :
    (frame.untag.fault? = none ∧ IsReadable frame.untag.value.members ∧
        Entries.get? frame.untag.value.members itemsKey = Entries.get? frame.members itemsKey ∧
          (∀ env, ofMembers env frame.untag.value.members = ofTags env frame.tagged) ∧
            ∀ property, IsUntagged frame.tagged property
              (Entries.get? frame.untag.value.members property.name)) ∨
      frame.untag.fault? = some .badValue ∧ IsOverlong frame.tagged := by
  have horder : Property.all.Nodup := by decide
  rw [untag_eq]
  refine (untagEach_cases htags Property.all { frame with tags := none } horder hplain.nodup
    fun property _ ↦ hplain.plain property).imp_left ?_
  rintro ⟨after, hdone, hafter⟩
  rw [hdone]
  refine ⟨rfl, ⟨hafter.nodup, fun key value hfamily hget ↦ ?_⟩,
    hafter.other itemsKey fun property _ ↦ property.name_ne (by decide), fun env ↦ ?_,
    fun property ↦ hafter.untagged property property.mem_all⟩
  · obtain ⟨property, rfl⟩ := Property.exists_name_eq hfamily
    exact ((hafter.untagged property property.mem_all).present value hget).2.1
  · funext property
    have huntagged := hafter.untagged property property.mem_all
    rw [ofMembers, Progress.value_done]
    cases hget : Entries.get? after.members property.name with
    | none =>
      rw [hget] at huntagged
      rw [reading_of_none hget, neutral_name, huntagged.neutral_of_none]
    | some value =>
      obtain ⟨hnull, -, hamount⟩ := huntagged.present value hget
      rw [reading_of_some hget hnull, hamount]

end Frame

end Motion
