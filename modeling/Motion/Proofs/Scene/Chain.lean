import Motion.Proofs.Scene.Nest
import Motion.Proofs.Scene.Rendering

/-!
Chains of groups around a single leaf. Where all properties are integers and simple bindings and one
group at most turns or scales, collapsing leaves the leaf or one group around it
(`Data.collapse_chain`), unless the integers along the chain are so large that their product has more
digits than can be written into a binding.
-/

set_option autoImplicit false
set_option relaxedAutoImplicit false

namespace Motion

/-- Whether a group has a rotation or a scale other than the neutral one. -/
def turns (members : Members) : Bool :=
  [Property.rotation, .scaleX, .scaleY].any fun property ↦
    (Entries.get? members property.name).any fun value ↦ !isNeutral property value

/-- Whether a member may stand in a group of a chain: it is the type, the items, or an integer or
simple binding as a transform property other than the clip path. -/
def isLinkMember (member : String × Data) : Bool :=
  member.1 = typeKey || member.1 = itemsKey ||
    (Property.ofName? member.1).any (fun property ↦ property ≠ .clipPath) && member.2.isSimple

/-- The members of a group of a chain. -/
structure IsLink (members : Members) : Prop where
  nodup : (Entries.keys members).Nodup
  group : isGroup members = true
  simple : ∀ member ∈ members, isLinkMember member = true

namespace Data

/-- Whether a value is no group. -/
def IsLeaf (value : Data) : Prop :=
  ∀ members, value = .obj members → Motion.isGroup members = false

/-- Whether an item is a chain of groups around a leaf, each the only item of the one before. -/
def IsChainOf (leaf : Data) : List Members → Data → Prop
  | [], item => item = leaf
  | members :: rest, item =>
    item = .obj members ∧ ∃ inner, heldItems members = [inner] ∧ IsChainOf leaf rest inner

/-- Whether an item is the leaf itself, or a group whose only item is the leaf. -/
def IsWrapped (leaf item : Data) : Prop :=
  item = leaf ∨ ∃ members, item = .obj members ∧ Motion.isGroup members = true ∧
    Entries.get? members itemsKey = some (.list [leaf])

end Data

namespace Frame

/-- What holds of the frame of a group of a chain. -/
structure IsLink (frame : Frame) : Prop where
  group : frame.IsGroup
  nodup : (Entries.keys frame.members).Nodup
  simple : ∀ member ∈ frame.members, member.1 = typeKey ∨
    ∃ property, property ≠ .clipPath ∧ member.1 = Property.name property ∧ member.2.isSimple = true

/-- The frame of a group of a chain once its items are in a list and its properties under tags. -/
def tagLink (frame : Frame) : Frame :=
  frame.listed.tag []

theorem property_ne_type (property : Property) : property.name ≠ typeKey :=
  property.name_ne (by decide)

/-- A group of a chain has nothing but transform properties to be moved under tags. -/
theorem IsLink.get?_name {frame : Frame} (h : frame.IsLink) {property : Property} {value : Data}
    (hget : Entries.get? frame.members property.name = some value) :
    property ≠ .clipPath ∧ value.isSimple = true := by
  rcases h.simple _ (Entries.mem_of_get? hget) with htype | ⟨other, hclip, hname, hsimple⟩
  · exact absurd htype (property_ne_type property)
  · rw [Property.name_injective hname]
    exact ⟨hclip, hsimple⟩

/-- Entries under a single key are one entry. -/
theorem eq_singleton {members : Members} {key : String} {value : Data}
    (hnodup : (Entries.keys members).Nodup) (hkeys : ∀ member ∈ members, member.1 = key)
    (hget : Entries.get? members key = some value) : members = [(key, value)] := by
  have hmem := Entries.mem_of_get? hget
  have hall (member : String × Data) (hmember : member ∈ members) : member = (key, value) := by
    have hfound := Entries.get?_of_mem hnodup hmember
    rw [hkeys member hmember, hget, Option.some_inj] at hfound
    exact Prod.ext (hkeys member hmember) hfound.symm
  obtain ⟨n, hn⟩ : ∃ n, members = List.replicate n (key, value) :=
    ⟨members.length, List.eq_replicate_of_mem hall⟩
  rw [hn, Entries.keys, List.map_replicate, List.nodup_replicate] at hnodup
  have hpos : n ≠ 0 := by
    rintro rfl
    rw [hn] at hmem
    exact absurd hmem List.not_mem_nil
  have hone : n = 1 := by omega
  rw [hn, hone]
  rfl

theorem IsLink.listed {frame : Frame} (h : frame.IsLink) : frame.listed.IsLink :=
  ⟨h.group.listed, h.nodup, h.simple⟩

theorem holding_tagLink (frame : Frame) : frame.tagLink.holding = .listed :=
  holding_tag (Or.inl rfl)

theorem isGroup_tagLink {frame : Frame} (h : frame.IsLink) : frame.tagLink.IsGroup :=
  isGroup_tag h.listed.group (Or.inl rfl)

/-- Nothing but the type is left among the members. -/
theorem members_tagLink {frame : Frame} (h : frame.IsLink) :
    frame.tagLink.members = [(typeKey, .str groupType)] := by
  refine eq_singleton ?_ ?_ (isGroup_iff.mp (isGroup_tagLink h).type)
  · rw [tagLink, members_tag]
    exact Entries.nodup_keys_filter h.listed.nodup _
  · intro member hmember
    rw [tagLink, members_tag, List.mem_filter, Bool.and_eq_true] at hmember
    obtain ⟨hmember, hplain, -⟩ := hmember
    rcases h.listed.simple member hmember with htype | ⟨property, -, hname, -⟩
    · exact htype
    · obtain ⟨key, value⟩ := member
      rw [show key = property.name from hname, isPlain_name] at hplain
      cases hplain

/-- What is found under a tag was a member before. -/
theorem get?_tagLink {frame : Frame} (h : frame.IsLink) {tag : Tag} {value : Data}
    (hget : Entries.get? frame.tagLink.tagged tag = some value) :
    ∃ member, Entries.get? frame.members tag.property.name = some member ∧ member.kind = tag.kind ∧
      member.tagged = value ∧ shows (pivotUsed (frame.members.filter isPublic))
        (tag.property.name, member) = true := by
  have hpublic := Entries.nodup_keys_filter h.listed.nodup isPublic
  rw [tagLink, tagged_tag, get?_tagMembers] at hget
  obtain ⟨member, hmember, hkind, htagged⟩ := taggedValue?_eq_some hget
  rw [prune, Entries.get?_filter hpublic, Option.filter_eq_some_iff] at hmember
  obtain ⟨hmember, hshows⟩ := hmember
  rw [Entries.get?_filter h.listed.nodup] at hmember
  exact ⟨member, Option.eq_some_of_filter_eq_some hmember, hkind, htagged, hshows⟩

theorem isSimple_tagLink {frame : Frame} (h : frame.IsLink) : frame.tagLink.tagged.IsSimple := by
  constructor
  · rw [tagLink, tagged_tag]
    exact nodup_tagMembers _
  · intro tag value hget
    obtain ⟨member, hmember, hkind, htagged, -⟩ := get?_tagLink h hget
    obtain ⟨hclip, hsimple⟩ := h.get?_name hmember
    rw [← htagged]
    exact ⟨hkind ▸ (Data.isSimpleOf_tagged hsimple).1, hclip⟩

theorem taggedSize_tagLink {frame : Frame} (h : frame.IsLink) :
    frame.tagLink.taggedSize ≤ memberSize frame.members := by
  refine List.max_le_of_forall_le _ _ fun size hsize ↦ ?_
  obtain ⟨tag, -, rfl⟩ := List.mem_map.mp hsize
  cases hget : Entries.get? frame.tagLink.tagged tag with
  | none =>
    rw [sizeAt_of_none hget]
    exact Item.one_le_memberSize frame.members
  | some value =>
    obtain ⟨member, hmember, -, htagged, -⟩ := get?_tagLink h hget
    rw [sizeAt_of_some hget, ← htagged, (Data.isSimpleOf_tagged (h.get?_name hmember).2).2,
      ← sizeAt_of_some hmember]
    exact Item.sizeAt_le_memberSize frame.members tag.property

/-- Among the tags something acts about the pivot only if the group turns. -/
theorem turns_of_isPivotal {frame : Frame} (h : frame.IsLink)
    (hpivotal : frame.tagLink.tagged.isPivotal = true) : turns frame.members = true := by
  have hacts (property : Property) (value : Data)
      (hfamily : property.family = .rotation ∨ property.family = .scale)
      (hget : Entries.get? frame.members property.name = some value)
      (hneutral : isNeutral property.name value = false) : turns frame.members = true := by
    have hsame : isNeutral property value = isNeutral property.name value := by
      rw [isNeutral, isNeutral, family?_name]
      rfl
    rw [turns, List.any_eq_true]
    refine ⟨property, ?_, ?_⟩
    · cases property <;> simp_all [Property.family]
    · rw [hget, Option.any_some, hsame, hneutral]
      rfl
  obtain ⟨tag, htag, hcontains⟩ :=
    (Tagged.isPivotal_iff (isSimple_tagLink h).nodup).mp hpivotal
  rw [Entries.contains_eq_isSome, Option.isSome_iff_exists] at hcontains
  obtain ⟨value, hget⟩ := hcontains
  obtain ⟨member, hmember, -, -, hshows⟩ := get?_tagLink h hget
  rw [shows, Bool.and_eq_true, family?_name] at hshows
  by_cases hpivot : tag.property.family = .pivot
  · have hused : pivotUsed (frame.members.filter isPublic) = true := by simpa [hpivot] using hshows.2
    rw [pivotUsed, usesPivot, List.any_eq_true] at hused
    obtain ⟨⟨key, other⟩, hother, hfamily⟩ := hused
    rw [List.mem_filter, List.mem_filter] at hother
    rcases h.simple _ hother.1.1 with htype | ⟨property, -, hname, -⟩
    · rw [show key = typeKey from htype] at hfamily
      cases hfamily
    · obtain rfl : key = property.name := hname
      refine hacts property other ?_ (Entries.get?_of_mem h.nodup hother.1.1) (by simpa using hother.2)
      rw [family?_name] at hfamily
      cases hcases : property.family <;> simp_all
  · refine hacts tag.property member ?_ hmember (by simpa using hshows.1)
    rw [Tag.isPivotal, Tag.family] at htag
    cases hcases : tag.property.family <;> simp_all [Family.isPivotal]

/-- Without tags nothing is put among the members. -/
theorem untag_of_tagged_nil {frame : Frame} (h : frame.tagged = []) :
    frame.untag = .done (frame.withTags none) := by
  rw [untag_eq, h]
  have hfold (order : List Property) (other : Frame) :
      untagEach [] (.done other) order = .done other := by
    induction order with
    | nil => rfl
    | cons property rest ih =>
      rw [untagEach_cons]
      exact ih
  exact hfold _ _

end Frame

namespace Item

theorem ofData_of_isLeaf {leaf : Data} (h : leaf.IsLeaf) : ofData leaf = .leaf leaf := by
  cases leaf with
  | obj members => rw [ofData, if_neg (by simp [h members rfl])]
  | _ => rfl

/-- A chain is read as a nest of the frames of its groups. -/
theorem ofData_of_isChainOf {leaf : Data} (hleaf : leaf.IsLeaf) : ∀ {links : List Members}
    {item : Data}, Data.IsChainOf leaf links item → (∀ members ∈ links, IsLink members) →
      ofData item = nest (links.map frameOf) (.leaf leaf)
  | [], _, rfl, _ => ofData_of_isLeaf hleaf
  | members :: rest, _, ⟨rfl, inner, hitems, hchain⟩, hlinks => by
    obtain ⟨hlink, hrest⟩ := List.forall_mem_cons.mp hlinks
    rw [ofData, if_pos hlink.group, itemsOf_eq, hitems, ofList, ofList,
      ofData_of_isChainOf hleaf hchain hrest]
    rfl

theorem measure_nest (frames : List Frame) (leaf : Data) :
    measure memberStep 1 (nest frames (.leaf leaf)) =
      (frames.map fun frame ↦ memberSize frame.members).prod := by
  induction frames with
  | nil => rfl
  | cons frame rest ih =>
    have hone := one_le_measure (nest rest (.leaf leaf))
    rw [nest_cons, measure, memberStep, measureIn, measureIn, Nat.max_eq_left hone, ih,
      List.map_cons, List.prod_cons]

section Chain

variable {limit : ℤ} {frames : List Frame} (leaf : Data)

theorem listAll_chain (h : ∀ frame ∈ frames, frame.holding ≠ .absent)
    (hlimit : frames.length ≤ limit) : listAll limit [nest frames (.leaf leaf)] =
      .done [nest (frames.map Frame.listed) (.leaf leaf)] := by
  rw [listAll, checkDepth_eq_none (by omega), Progress.guarded_none, listEach, listEach,
    Progress.cons_done_nil, listBelow_nest h (by omega)]
  rfl

theorem tagAll_chain (hlimit : frames.length ≤ limit) :
    tagAll limit [nest (frames.map Frame.listed) (.leaf leaf)] =
      .done [nest (frames.map Frame.tagLink) (.leaf leaf)] := by
  have htag (frame : Frame) (hframe : frame ∈ frames.map Frame.listed) :
      (∀ items, Progress.done (frame.tag items) = .done (frame.tag [])) ∧
        (frame.tag []).holding = .listed := by
    obtain ⟨other, -, rfl⟩ := List.mem_map.mp hframe
    exact ⟨fun _ ↦ rfl, Frame.holding_tagLink other⟩
  rw [tagAll, changeAll, checkDepth_eq_none (by omega), Progress.guarded_none, changeEach,
    changeEach, Progress.cons_done_nil, changeBelow_nest htag (by simpa using hlimit), List.map_map]
  rfl

/-- Pushing takes the properties of all groups of a chain into the innermost one. -/
theorem pushAll_chain (hne : frames ≠ []) (h : ∀ frame ∈ frames, frame.IsLink)
    (hturns : frames.Pairwise fun first second ↦
      turns first.members = false ∨ turns second.members = false)
    (hlimit : frames.length ≤ limit) :
    ∃ (outer : List Frame) (last : Frame) (tags given : Tagged), frames = outer ++ [last] ∧
      tags.IsSimple ∧ (∀ tag, sizeAt tags tag ≤ (frames.map fun frame ↦ memberSize frame.members).prod) ∧
      pushAll limit [] [nest (frames.map Frame.tagLink) (.leaf leaf)] =
        .done ⟨[nest (outer.map (fun frame ↦ frame.tagLink.withTags (some [])) ++
          [last.tagLink.withTags (some tags)]) (.leaf leaf)], given, true⟩ := by
  obtain ⟨outer, last, rfl⟩ : ∃ outer last, frames = outer ++ [last] :=
    ⟨frames.dropLast, frames.getLast hne, (List.dropLast_append_getLast hne).symm⟩
  have htagged (frame : Frame) (hframe : frame ∈ (outer ++ [last]).map Frame.tagLink) :
      frame.holding = .listed ∧ frame.tagged.IsSimple := by
    obtain ⟨other, hother, rfl⟩ := List.mem_map.mp hframe
    exact ⟨Frame.holding_tagLink other, Frame.isSimple_tagLink (h other hother)⟩
  have hfree : ([] :: ((outer ++ [last]).map Frame.tagLink).map Frame.tagged).Pairwise IsFree := by
    rw [List.pairwise_cons, List.map_map, List.pairwise_map]
    refine ⟨fun _ _ ↦ Or.inl rfl, hturns.imp_of_mem fun {first second} hfirst hsecond hfree ↦ ?_⟩
    refine hfree.imp (fun hstill ↦ ?_) fun hstill ↦ ?_
    · exact Bool.eq_false_iff.mpr fun hpivotal ↦ by
        simp [Frame.turns_of_isPivotal (h first hfirst) hpivotal] at hstill
    · exact Bool.eq_false_iff.mpr fun hpivotal ↦ by
        simp [Frame.turns_of_isPivotal (h second hsecond) hpivotal] at hstill
  have hmay : mayPush [nest ((outer ++ [last]).map Frame.tagLink) (.leaf leaf)] [] = true :=
    mayPush_nest (by simp) _ Tagged.holds_nil fun frame hframe ↦
      ⟨(htagged frame hframe).2, Or.inr rfl⟩
  have hone (tag : Tag) : sizeAt ([] : Tagged) tag ≤ 1 := le_refl 1
  have hmap : (outer ++ [last]).map Frame.tagLink = outer.map Frame.tagLink ++ [last.tagLink] := by
    simp
  rw [hmap] at htagged hfree hmay ⊢
  obtain ⟨tags, given, hpush, hsimple, -, hsize⟩ := pushBelow_nest leaf last.tagLink
    (outer.map Frame.tagLink) 0 1 [] htagged (by simpa using hlimit) Tagged.holds_nil hfree hone
  refine ⟨outer, last, tags, given, rfl, hsimple, ?_, ?_⟩
  · intro tag
    refine (hsize tag).trans ?_
    rw [one_mul, ← hmap, List.map_map]
    exact List.prod_le_prod' fun frame hframe ↦ Frame.taggedSize_tagLink (h frame hframe)
  · rw [pushAll, checkDepth_eq_none (by omega), Progress.guarded_none, hmay,
      pushEach_singleton hpush, List.map_map]
    rfl

/-- Untagging goes past frames with nothing under tags. -/
theorem untagAll_nest (h : ∀ frame ∈ frames, frame.holding = .listed) (inner : Item)
    (hlimit : frames.length ≤ limit) :
    untagAll limit [nest (frames.map fun frame ↦ frame.withTags (some [])) inner] =
      (changeBelow (fun frame _ ↦ frame.untag) limit frames.length inner).map fun item ↦
        [nest (frames.map fun frame ↦ frame.withTags none) item] := by
  have hidle (frame : Frame) (hframe : frame ∈ frames.map fun frame ↦ frame.withTags (some [])) :
      (∀ items : List Item, frame.untag = .done (frame.withTags none)) ∧
        (frame.withTags none).holding = .listed := by
    obtain ⟨other, hother, rfl⟩ := List.mem_map.mp hframe
    exact ⟨fun _ ↦ Frame.untag_of_tagged_nil rfl, h other hother⟩
  have hdepth : 0 + ((frames.map fun frame ↦ frame.withTags (some [])).length : ℤ) ≤ limit := by
    simpa using hlimit
  rw [untagAll, changeAll, checkDepth_eq_none (by omega), Progress.guarded_none, changeEach,
    changeEach, Progress.cons_done_nil, changeBelow_nest hidle hdepth, List.map_map,
    List.length_map, zero_add]
  rfl

/-- Merging transforms along a chain leaves groups with nothing but their type around one group with
whatever is left, unless a number is too long. -/
theorem mergeTransforms_chain (hne : frames ≠ []) (h : ∀ frame ∈ frames, frame.IsLink)
    (hturns : frames.Pairwise fun first second ↦
      turns first.members = false ∨ turns second.members = false)
    (hlimit : frames.length ≤ limit) :
    (∃ (outer : List Frame) (last : Frame), outer.length + 1 = frames.length ∧
      (∀ frame ∈ outer, frame.holding = .listed ∧ frame.members.length = 1 ∧ frame.tags = none) ∧
      last.holding = .listed ∧ last.IsGroup ∧
      mergeTransforms limit [nest (frames.map Frame.listed) (.leaf leaf)] =
        .ok [nest outer (.group last [.leaf leaf])]) ∨
    mergeTransforms limit [nest (frames.map Frame.listed) (.leaf leaf)] = .error .badValue ∧
      10 ^ Numeral.digitLimit < (frames.map fun frame ↦ memberSize frame.members).prod := by
  obtain ⟨outer, last, tags, given, rfl, hsimple, hsize, hpush⟩ :=
    pushAll_chain leaf hne h hturns hlimit
  have hlast : last.IsLink := h last (by simp)
  have houter (frame : Frame) (hframe : frame ∈ outer) : frame.IsLink := h frame (by simp [hframe])
  have hlength : ((outer ++ [last]).length : ℤ) = (outer.map Frame.tagLink).length + 1 := by simp
  have hlisted (frame : Frame) (hframe : frame ∈ outer.map Frame.tagLink) :
      frame.holding = .listed := by
    obtain ⟨other, -, rfl⟩ := List.mem_map.mp hframe
    exact Frame.holding_tagLink other
  have hmerge : mergeTransforms limit [nest ((outer ++ [last]).map Frame.listed) (.leaf leaf)] =
      (untagAll limit [nest (outer.map (fun frame ↦ frame.tagLink.withTags (some [])) ++
        [last.tagLink.withTags (some tags)]) (.leaf leaf)]).toExcept := by
    rw [mergeTransforms, tagAll_chain leaf hlimit]
    show (pushAll limit [] [nest ((outer ++ [last]).map Frame.tagLink) (.leaf leaf)]).toExcept >>= _
      = _
    rw [hpush]
    rfl
  have huntag : untagAll limit [nest (outer.map (fun frame ↦ frame.tagLink.withTags (some [])) ++
      [last.tagLink.withTags (some tags)]) (.leaf leaf)] =
      (changeBelow (fun frame _ ↦ frame.untag) limit outer.length
        (.group (last.tagLink.withTags (some tags)) [.leaf leaf])).map fun item ↦
          [nest (outer.map fun frame ↦ frame.tagLink.withTags none) item] := by
    have hnest := untagAll_nest hlisted (.group (last.tagLink.withTags (some tags)) [.leaf leaf])
      (show _ ≤ limit by omega)
    rw [List.map_map, List.map_map, List.length_map] at hnest
    rw [nest_append]
    exact hnest
  rw [hmerge, huntag]
  have hfaults : (last.tagLink.withTags (some tags)).untag.FaultsIn fun fault ↦
      fault = .badValue ∧ IsOverlong tags :=
    Frame.untag_faultsIn_of (untagValue?_of_isSimple hsimple)
  cases hfault : (last.tagLink.withTags (some tags)).untag.fault? with
  | some fault =>
    obtain ⟨rfl, tag, hlong⟩ := hfaults fault hfault
    refine Or.inr ⟨?_, lt_of_lt_of_le hlong (hsize tag)⟩
    rw [changeBelow, hfault]
    rfl
  | none =>
    have hholding : (last.tagLink.withTags (some tags)).untag.value.holding = .listed :=
      (Frame.holding_untag _).trans (Frame.holding_tagLink last)
    have htagged : last.tagLink.IsShown := Frame.isShown_tag hlast.listed.group (Or.inl rfl)
    have hshown : (last.tagLink.withTags (some tags)).IsShown :=
      ⟨⟨htagged.group.type, htagged.group.before, htagged.group.absent⟩, htagged.shown⟩
    refine Or.inl ⟨outer.map fun frame ↦ frame.tagLink.withTags none,
      (last.tagLink.withTags (some tags)).untag.value, by simp, ?_, hholding,
      (Frame.kept_untag hshown).2.1.group, ?_⟩
    · intro frame hframe
      obtain ⟨other, hother, rfl⟩ := List.mem_map.mp hframe
      refine ⟨Frame.holding_tagLink other, ?_, rfl⟩
      exact congrArg List.length (Frame.members_tagLink (houter other hother))
    · rw [changeBelow, hfault, Progress.guarded_none, hholding]
      dsimp only
      rw [checkDepth_eq_none, Progress.guarded_none]
      · rfl
      · simp at hlimit
        omega

/-- What is left where a group around a leaf has been spliced. -/
theorem spliced_wrapped {last : Frame} (hlisted : last.holding = .listed) (hgroup : last.IsGroup) :
    ∃ item, spliced (.group last [.leaf leaf]) = [item] ∧ Data.IsWrapped leaf item.toData := by
  by_cases hredundant : isRedundant (.group last [.leaf leaf]) = true
  · exact ⟨.leaf leaf, if_pos hredundant, Or.inl rfl⟩
  · have hbefore := (Entries.contains_eq_false_iff _ _).mp hgroup.before
    refine ⟨.group last [.leaf leaf], if_neg hredundant, Or.inr ⟨last.written [leaf], rfl,
      Frame.isGroup_written hgroup _, ?_⟩⟩
    simp [Frame.written, itemsMember, hlisted, Entries.get?_append, hbefore, Entries.get?_cons]

theorem collapseItems_chain (hne : frames ≠ []) (h : ∀ frame ∈ frames, frame.IsLink)
    (hholding : ∀ frame ∈ frames, frame.holding ≠ .absent)
    (hturns : frames.Pairwise fun first second ↦
      turns first.members = false ∨ turns second.members = false)
    (hlimit : frames.length ≤ limit) :
    (∃ item, collapseItems true limit [nest frames (.leaf leaf)] = .ok [item] ∧
      Data.IsWrapped leaf item.toData) ∨
    collapseItems true limit [nest frames (.leaf leaf)] = .error .badValue ∧
      10 ^ Numeral.digitLimit < (frames.map fun frame ↦ memberSize frame.members).prod := by
  rw [collapseItems_listed true (listAll_chain leaf hholding hlimit), if_pos rfl]
  rcases mergeTransforms_chain leaf hne h hturns hlimit with
    ⟨outer, last, hlength, houter, hlisted, hgroup, hok⟩ | ⟨herror, hlong⟩
  · obtain ⟨item, hspliced, hwrapped⟩ := spliced_wrapped leaf hlisted hgroup
    have hlast : spliceBelow limit (0 + outer.length) (.group last [.leaf leaf]) =
        .done (.group last [.leaf leaf]) := by
      rw [spliceBelow, hlisted]
      dsimp only
      rw [checkDepth_eq_none (by omega), Progress.guarded_none]
      rfl
    have hsingle : (spliced (spliceBelow limit (0 + outer.length)
        (.group last [.leaf leaf])).value).length ≤ 1 := by
      rw [hlast, Progress.value_done, hspliced]
      exact le_refl 1
    obtain ⟨hfault, hbelow⟩ := spliceBelow_nest houter (by omega) (by rw [hlast]; rfl) hsingle
    rw [hlast, Progress.value_done, hspliced] at hbelow
    refine Or.inl ⟨item, ?_, hwrapped⟩
    rw [hok]
    show (spliceAll limit [nest outer (.group last [.leaf leaf])]).toExcept >>= _ = _
    rw [spliceAll, checkDepth_eq_none (by omega), Progress.guarded_none, spliceItems, spliceItems,
      Progress.cons_done_nil, Progress.eq_done hfault]
    show Except.ok (spliceEach [_]) = _
    rw [spliceEach, List.flatMap_singleton, Progress.value_done, hbelow]
  · refine Or.inr ⟨?_, hlong⟩
    rw [herror]
    rfl

end Chain

end Item

namespace Data

theorem isLink_frameOf {members : Members} (h : Motion.IsLink members) :
    (frameOf members).IsLink where
  group := Item.isGroup_frameOf h.group
  nodup := by
    rw [members_frameOf h.nodup]
    exact Entries.nodup_keys_filter h.nodup _
  simple := by
    intro member hmember
    rw [members_frameOf h.nodup, Entries.erase, List.mem_filter] at hmember
    have hlink := h.simple member hmember.1
    have hitems : member.1 ≠ itemsKey := by simpa using hmember.2
    simp only [isLinkMember, hitems, Bool.or_eq_true, decide_eq_true_eq, or_false,
      Bool.and_eq_true, Option.any_eq_true] at hlink
    refine hlink.imp_right ?_
    rintro ⟨⟨property, hname, hclip⟩, hsimple⟩
    exact ⟨property, hclip, (Property.name_of_ofName? hname).symm, hsimple⟩

theorem turns_frameOf (members : Members) : turns (frameOf members).members = turns members := by
  rw [turns, turns]
  refine congrArg (List.any _) (funext fun property ↦ ?_)
  rw [Item.get?_frameOf members (property.name_ne (by decide)).symm]

theorem holding_frameOf_of_isChainOf {leaf : Data} : ∀ {links : List Members} {item : Data},
    IsChainOf leaf links item → ∀ members ∈ links, (frameOf members).holding ≠ .absent
  | first :: rest, item, ⟨_, inner, hitems, hchain⟩, members, hmem => by
    rcases List.mem_cons.mp hmem with rfl | hrest
    · intro habsent
      have hnone := (Entries.contains_eq_false_iff _ _).mp (Item.contains_of_absent habsent)
      simp [heldItems, hnone] at hitems
    · exact holding_frameOf_of_isChainOf hchain members hrest

theorem pairwise_of_countP_le_one {α : Type} {p : α → Bool} : ∀ {items : List α},
    items.countP p ≤ 1 → items.Pairwise fun first second ↦ p first = false ∨ p second = false
  | [], _ => List.Pairwise.nil
  | first :: rest, h => by
    rw [List.countP_cons] at h
    refine List.pairwise_cons.mpr ⟨fun second hsecond ↦ ?_, pairwise_of_countP_le_one (by omega)⟩
    by_cases hfirst : p first = true
    · rw [if_pos hfirst] at h
      have hnone : rest.countP p = 0 := by omega
      exact Or.inr (Bool.eq_false_iff.mpr (List.countP_eq_zero.mp hnone second hsecond))
    · exact Or.inl (Bool.eq_false_iff.mpr hfirst)

/-- A chain of groups around a leaf, in which all properties are integers or simple bindings and one
group at most turns or scales, collapses to the leaf or to one group around it, unless the sizes
along the chain multiply to more than can be written. -/
theorem collapse_chain {limit : ℤ} (hlimit : 0 ≤ limit) {root : Members}
    (hdepth : (Data.obj root).exceeds limit 0 = false) {links : List Members} {outer leaf : Data}
    (hroot : heldItems root = [outer]) (hchain : IsChainOf leaf links outer) (hne : links ≠ [])
    (hlinks : ∀ members ∈ links, IsLink members) (hturns : links.countP turns ≤ 1)
    (hleaf : leaf.IsLeaf) :
    (∃ item, (Data.obj root).collapse true limit =
        .ok (.obj (Entries.put root itemsKey (.list [item]))) ∧ IsWrapped leaf item) ∨
      (Data.obj root).collapse true limit = .error .badValue ∧
        10 ^ Numeral.digitLimit < (Data.obj root).reach := by
  have hitems : Item.itemsOf root = [Item.nest (links.map frameOf) (.leaf leaf)] := by
    rw [Item.itemsOf_eq, hroot, Item.ofList, Item.ofList, Item.ofData_of_isChainOf hleaf hchain hlinks]
  have hcontains : Entries.contains root itemsKey = true := by
    by_contra hnot
    have hnone := (Entries.contains_eq_false_iff _ _).mp (Bool.eq_false_iff.mpr hnot)
    simp [heldItems, hnone] at hroot
  have hframe (frame : Frame) (hmem : frame ∈ links.map frameOf) :
      frame.IsLink ∧ frame.holding ≠ .absent := by
    obtain ⟨members, hmembers, rfl⟩ := List.mem_map.mp hmem
    exact ⟨isLink_frameOf (hlinks members hmembers), holding_frameOf_of_isChainOf hchain _ hmembers⟩
  have hheight := Item.heightIn_itemsOf root 0 hdepth hlimit
  rw [hitems, Item.heightIn, Item.measureIn, Item.measureIn, Nat.max_zero] at hheight
  rw [show Item.measure Item.heightStep 0 _ = (links.map frameOf).length from
    Item.height_nest (fun frame hmem ↦ (hframe frame hmem).2) leaf] at hheight
  have hpairwise : (links.map frameOf).Pairwise fun first second ↦
      turns first.members = false ∨ turns second.members = false := by
    rw [List.pairwise_map]
    simp only [turns_frameOf]
    exact pairwise_of_countP_le_one hturns
  rw [collapse_within true hdepth, if_pos hcontains, hitems]
  rcases Item.collapseItems_chain leaf (by simpa using hne) (fun frame hmem ↦ (hframe frame hmem).1)
    (fun frame hmem ↦ (hframe frame hmem).2) hpairwise
    (show ((links.map frameOf).length : ℤ) ≤ limit by omega) with ⟨item, hok, hwrapped⟩ |
      ⟨herror, hlong⟩
  · refine Or.inl ⟨item.toData, ?_, hwrapped⟩
    rw [hok]
    rfl
  · refine Or.inr ⟨by rw [herror]; rfl, ?_⟩
    rw [reach, ← Item.measureIn_itemsOf, hitems, Item.measureIn, Item.measureIn, Item.measure_nest]
    exact hlong.trans_le (le_max_left _ _)

/-- A group that turns about a pivot. -/
def outerLink (inner : Data) : Members :=
  [("type", .str "group"), ("rotation", .str (Scalar.binding "r")), ("pivotX", .num (.int 4)),
    ("items", .list [inner])]

/-- A group that shifts, with an opacity that is no well-formed binding. -/
def innerLink (leaf : Data) : Members :=
  [("opacity", .str (Scalar.binding "(")), ("translateX", .num (.int 3)),
    ("translateY", .str (Scalar.binding "y - 1")), ("items", leaf), ("type", .str "group")]

/-- A leaf that is no object. -/
def plainLeaf : Data :=
  .bool true

/-- A root that holds a chain of two groups. -/
def chainRoot : Members :=
  [("items", .obj (outerLink (.obj (innerLink plainLeaf))))]

theorem collapse_chain_turned : (0 : ℤ) ≤ 2 ∧ (Data.obj chainRoot).exceeds 2 0 = false ∧
    heldItems chainRoot = [.obj (outerLink (.obj (innerLink plainLeaf)))] ∧
    IsChainOf plainLeaf [outerLink (.obj (innerLink plainLeaf)), innerLink plainLeaf]
      (.obj (outerLink (.obj (innerLink plainLeaf)))) ∧
    (∀ members ∈ [outerLink (.obj (innerLink plainLeaf)), innerLink plainLeaf], IsLink members) ∧
    [outerLink (.obj (innerLink plainLeaf)), innerLink plainLeaf].countP turns = 1 ∧
    plainLeaf.IsLeaf ∧ ∃ item, (Data.obj chainRoot).collapse true 2 =
      .ok (.obj (Entries.put chainRoot itemsKey (.list [item]))) ∧ IsWrapped plainLeaf item := by
  have hdepth : (Data.obj chainRoot).exceeds 2 0 = false := by decide +kernel
  have hchain : IsChainOf plainLeaf [outerLink (.obj (innerLink plainLeaf)), innerLink plainLeaf]
      (.obj (outerLink (.obj (innerLink plainLeaf)))) :=
    ⟨rfl, _, rfl, rfl, _, rfl, rfl⟩
  have hlinks : ∀ members ∈ [outerLink (.obj (innerLink plainLeaf)), innerLink plainLeaf],
      IsLink members := by
    intro members hmembers
    rcases List.mem_pair.mp hmembers with rfl | rfl
    · exact ⟨by decide, by decide, by decide +kernel⟩
    · exact ⟨by decide, by decide, by decide +kernel⟩
  have hturns : [outerLink (.obj (innerLink plainLeaf)), innerLink plainLeaf].countP turns = 1 := by
    decide +kernel
  have hleaf : plainLeaf.IsLeaf := by
    intro members hmembers
    cases hmembers
  refine ⟨by decide, hdepth, rfl, hchain, hlinks, hturns, hleaf, ?_⟩
  rcases collapse_chain (by decide) hdepth rfl hchain (by simp) hlinks hturns.le hleaf with
    hresult | ⟨herror, -⟩
  · exact hresult
  · have hok : ((Data.obj chainRoot).collapse true 2).isOk = true := by decide +kernel
    rw [herror] at hok
    cases hok

/-- A group with an opacity around an item. -/
def opacityLink (opacity inner : Data) : Members :=
  [("type", .str "group"), ("opacity", opacity), ("items", .list [inner])]

/-- A path, which is no group. -/
def pathLeaf : Data :=
  .obj [("type", .str "path")]

/-- A chain of groups around a path. The opacities of the outer two have more than two thousand
digits, that of the innermost is a binding. -/
def overlongLinks : List Members :=
  let inner := opacityLink (.str (Scalar.binding "x")) pathLeaf
  let middle := opacityLink (.num (.int (10 ^ 2200))) (.obj inner)
  [opacityLink (.num (.int (10 ^ 2200))) (.obj middle), middle, inner]

/-- The root that holds the chain. -/
def overlongRoot : Members :=
  [("items", .list ((overlongLinks.take 1).map .obj))]

/-- A product with too many digits cannot be written into the binding of the innermost group. -/
theorem collapse_overlong_chain : (Data.obj overlongRoot).exceeds 256 0 = false ∧
    (∃ outer, heldItems overlongRoot = [outer] ∧ IsChainOf pathLeaf overlongLinks outer) ∧
    (∀ members ∈ overlongLinks, IsLink members) ∧ overlongLinks.countP turns ≤ 1 ∧ pathLeaf.IsLeaf ∧
      ¬ ∃ result, (Data.obj overlongRoot).collapse true 256 = .ok result := by
  refine ⟨by decide +kernel, ⟨_, rfl, rfl, _, rfl, rfl, _, rfl, rfl, _, rfl, rfl⟩, ?_,
    by decide +kernel, ?_, ?_⟩
  · intro members hmembers
    simp only [overlongLinks, List.mem_cons, List.not_mem_nil, or_false] at hmembers
    rcases hmembers with rfl | rfl | rfl
    · exact ⟨by decide, by decide, by decide +kernel⟩
    · exact ⟨by decide, by decide, by decide +kernel⟩
    · exact ⟨by decide, by decide, by decide +kernel⟩
  · intro members hmembers
    cases hmembers
    rfl
  · rintro ⟨result, hok⟩
    have hnone : ((Data.obj overlongRoot).collapse true 256).toOption.isNone = true := by
      decide +kernel
    rw [hok] at hnone
    cases hnone

end Data

end Motion
