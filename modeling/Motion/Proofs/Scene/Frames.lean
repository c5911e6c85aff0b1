import Motion.Proofs.Scene.Leaves
import Motion.Proofs.Scene.Walk
import Motion.Scene.Tagging

/-!
What changes of a single frame do to its members. Tagging keeps the plain members that are public;
untagging puts transform properties among them, and so it keeps all that putting such a property
keeps (`Frame.untag_induction`).
-/

set_option autoImplicit false
set_option relaxedAutoImplicit false

namespace Motion

theorem Property.ofName?_name (property : Property) : ofName? property.name = some property := by
  cases property <;> decide

theorem Property.name_injective {first second : Property} (h : first.name = second.name) :
    first = second := by
  have hname := congrArg ofName? h
  rw [ofName?_name, ofName?_name] at hname
  exact Option.some_inj.mp hname

theorem isPlain_name (property : Property) (value : Data) :
    isPlain (property.name, value) = false := by
  simp [isPlain, Property.ofName?_name]

theorem Property.name_ne {key : String} (h : ofName? key = none) (property : Property) :
    property.name ≠ key := by
  rintro rfl
  rw [ofName?_name] at h
  cases h

theorem Property.name_of_ofName? {key : String} {property : Property}
    (h : ofName? key = some property) : property.name = key := by
  simpa using List.find?_some h

/-- Only the keys of transform properties have a family. -/
theorem Property.exists_name_eq {key : String} (h : (family? key).isSome = true) :
    ∃ property : Property, property.name = key := by
  rw [show family? key = (ofName? key).map Property.family from rfl, Option.isSome_map] at h
  obtain ⟨property, hproperty⟩ := Option.isSome_iff_exists.mp h
  exact ⟨property, name_of_ofName? hproperty⟩

/-- The transform properties among some members. -/
def propertiesOf (members : Members) : Members :=
  members.filter fun member ↦ !isPlain member

theorem propertiesOf_put {key : String} (hkey : Property.ofName? key = none) (members : Members)
    (value : Data) : propertiesOf (Entries.put members key value) = propertiesOf members :=
  Entries.filter_put (fun other ↦ by simp [isPlain, hkey]) members value

theorem mem_propertiesOf {members : Members} {property : Property} {value : Data} :
    (property.name, value) ∈ propertiesOf members ↔ (property.name, value) ∈ members := by
  rw [propertiesOf, List.mem_filter, isPlain_name]
  simp

/-- Members with the same properties have the same members under the keys of properties. -/
theorem mem_congr_propertiesOf {members others : Members}
    (h : propertiesOf others = propertiesOf members) {property : Property} {value : Data} :
    (property.name, value) ∈ others ↔ (property.name, value) ∈ members := by
  rw [← mem_propertiesOf, h, mem_propertiesOf]

theorem get?_propertiesOf (members : Members) (property : Property) :
    Entries.get? (propertiesOf members) property.name = Entries.get? members property.name := by
  cases hget : Entries.get? members property.name with
  | some value => exact Entries.get?_filter_of_accepts hget (by rw [isPlain_name]; rfl)
  | none =>
    rw [← Entries.contains_eq_false_iff] at hget ⊢
    exact Entries.contains_filter_eq_false hget _

namespace Frame

@[simp] theorem members_filter (frame : Frame) (p : String × Data → Bool) :
    (frame.filter p).members = frame.members.filter p :=
  (List.filter_append ..).symm

/-- A plain member is no transform property, so it is neither neutral nor a pivot. -/
theorem shows_of_isPlain {member : String × Data} (h : isPlain member = true) (pivotUsed : Bool) :
    shows pivotUsed member = true := by
  have hfamily : family? member.1 = none := by
    have hname : Property.ofName? member.1 = none := by simpa [isPlain] using h
    exact congrArg (Option.map Property.family) hname
  simp [shows, isNeutral, hfamily]

theorem members_tag (frame : Frame) (items : List Item) :
    (frame.tag items).members =
      frame.members.filter fun member ↦ isPlain member && isPublic member := by
  have hmembers : (frame.tag items).members =
      ((frame.members.filter isPublic).filter
        (shows (pivotUsed (frame.filter isPublic).members))).filter isPlain := by
    rw [← members_filter, ← members_filter, ← members_filter]
    rfl
  rw [hmembers, List.filter_filter, List.filter_filter]
  refine List.filter_congr fun member _ ↦ ?_
  cases hplain : isPlain member
  · rfl
  · simp [shows_of_isPlain hplain]

theorem holding_tag {frame : Frame} {items : List Item} (h : frame.HasList items) :
    (frame.tag items).holding = frame.holding := by
  rcases h with hholding | ⟨hholding, _⟩ <;> simp [tag, filter, hholding]

/-- Untagging keeps what putting properties among the members keeps. -/
theorem untag_induction {p : Frame → Prop} (frame : Frame) (hstart : p { frame with tags := none })
    (hput : ∀ other property value, untagValue? frame.tagged property = .ok (some value) → p other →
      p (other.put (Property.name property) value)) :
    p frame.untag.value := by
  have step (property : Property) (other : Frame) (h : p other) :
      p (untagProperty frame.tagged other property).value := by
    unfold untagProperty
    cases hvalue : untagValue? frame.tagged property with
    | error fault => exact h
    | ok value? =>
      cases value? with
      | none => exact h
      | some value => exact hput other property value hvalue h
  unfold untag
  generalize hacc : (Progress.done { frame with tags := none } : Progress Frame) = acc
  have hp : p acc.value := hacc ▸ hstart
  clear hacc hstart
  induction Property.all generalizing acc with
  | nil => exact hp
  | cons property rest ih =>
    exact ih _ (Progress.andThen_keeps hp (step property))

/-- Putting a property among the members of a group leaves the plain members as they are. -/
theorem filter_members_put {keep : String × Data → Bool}
    (hkeep : ∀ member, keep member = true → isPlain member = true) (frame : Frame)
    (property : Property) (value : Data) :
    (frame.put property.name value).members.filter keep = frame.members.filter keep := by
  have hreject (other : Data) : keep (property.name, other) = false := by
    rw [Bool.eq_false_iff]
    intro h
    have hplain := hkeep _ h
    rw [isPlain_name property other] at hplain
    exact Bool.false_ne_true hplain
  rw [put]
  split_ifs with h <;> simp [members, Entries.filter_put hreject]

theorem get?_members_put (frame : Frame) (key other : String) (value : Data) :
    Entries.get? (frame.put key value).members other =
      if key = other then some value else Entries.get? frame.members other := by
  rw [put]
  split_ifs with hbefore hkey hkey
  · subst hkey
    simp [members, Entries.get?_append]
  · simp [members, Entries.get?_append, Entries.get?_put_of_ne hkey]
  · subst hkey
    have hnone := (Entries.contains_eq_false_iff _ _).mp (Bool.eq_false_iff.mpr hbefore)
    simp [members, Entries.get?_append, hnone]
  · simp [members, Entries.get?_append, Entries.get?_put_of_ne hkey]

theorem mem_members_put {frame : Frame} {key : String} {value : Data} {member : String × Data}
    (h : member ∈ (frame.put key value).members) :
    member = (key, value) ∨ member ∈ frame.members := by
  have hmembers (other : Frame) : member ∈ other.members ↔
      member ∈ other.before ∨ member ∈ other.after := List.mem_append
  rw [put] at h
  rw [hmembers]
  split_ifs at h
  · rcases (hmembers _).mp h with hbefore | hafter
    · exact (Entries.mem_put hbefore).imp_right Or.inl
    · exact Or.inr (Or.inr hafter)
  · rcases (hmembers _).mp h with hbefore | hafter
    · exact Or.inr (Or.inl hbefore)
    · exact (Entries.mem_put hafter).imp_right Or.inr

@[simp] theorem holding_put (frame : Frame) (key : String) (value : Data) :
    (frame.put key value).holding = frame.holding := by
  rw [put]
  split_ifs <;> rfl

@[simp] theorem tags_put (frame : Frame) (key : String) (value : Data) :
    (frame.put key value).tags = frame.tags := by
  rw [put]
  split_ifs <;> rfl

theorem isGroup_put {frame : Frame} (h : frame.IsGroup) (property : Property) (value : Data) :
    (frame.put property.name value).IsGroup where
  type := by
    have hne : property.name ≠ typeKey := property.name_ne (by decide)
    have htype := h.type
    rwa [isGroup, get?_members_put, if_neg hne]
  before := by
    have hne : property.name ≠ itemsKey := property.name_ne (by decide)
    rw [put]
    split_ifs
    · simp [Entries.contains_put, hne, h.before]
    · exact h.before
  absent := by
    have hne : property.name ≠ itemsKey := property.name_ne (by decide)
    intro habsent
    rw [holding_put] at habsent
    have hafter := h.absent habsent
    rw [put]
    split_ifs
    · exact hafter
    · simp [Entries.contains_put, hne, hafter]

theorem isGroup_iff {members : Members} :
    isGroup members = true ↔ Entries.get? members typeKey = some (.str groupType) := by
  unfold isGroup
  split
  · simp_all
  · simp_all

theorem isGroup_filter {frame : Frame} (h : frame.IsGroup) (keep : String × Data → Bool)
    (hkeep : keep (typeKey, .str groupType) = true) : (frame.filter keep).IsGroup where
  type := by
    rw [members_filter, isGroup_iff]
    exact Entries.get?_filter_of_accepts (isGroup_iff.mp h.type) hkeep
  before := Entries.contains_filter_eq_false h.before keep
  absent := fun habsent ↦ Entries.contains_filter_eq_false (h.absent habsent) keep

theorem isGroup_tag {frame : Frame} (h : frame.IsGroup) {items : List Item}
    (hlist : frame.HasList items) : (frame.tag items).IsGroup := by
  have htype : isPlain (typeKey, .str groupType) = true := by decide
  have hfiltered := isGroup_filter (isGroup_filter (isGroup_filter h isPublic (by decide)) _
    (shows_of_isPlain htype (pivotUsed (frame.filter isPublic).members))) isPlain htype
  have hholding := holding_tag hlist
  exact ⟨hfiltered.type, hfiltered.before, fun habsent ↦
    hfiltered.absent (hholding.symm.trans habsent)⟩

end Frame

end Motion
