import Motion.Proofs.Scene.Keys
import Motion.Proofs.Scene.Normal
import Motion.Scene.Stage

/-!
The scenes that are shown while transforms are merged. A scene whose groups hold their transforms
under tags is shown with the map of them as the last member of each group, and reading that back
gives groups without tags (`Item.ofData_shown`). Each stage on such a reading does what the stage
does on the scene: it meets the same faults, and where it ends or stops it shows the same
(`Stage.runShown_push`, `Stage.runShown_untag`). So the stages can be run one by one on what is
shown, and they lead where `Item.mergeTransforms` leads (`Stage.runEach_merges`).
-/

set_option autoImplicit false
set_option relaxedAutoImplicit false

namespace Motion

namespace Progress

variable {α β : Type}

theorem map_guarded (f : α → β) (check : Option Fault) (unchanged : α) (walk : Progress α) :
    (guarded check unchanged walk).map f = guarded check (f unchanged) (walk.map f) := by
  cases check <;> rfl

end Progress

section Reading

variable {before after : Members}

theorem frameOf_listed (h : Entries.contains before itemsKey = false) (items : List Data) :
    frameOf (before ++ (itemsKey, .list items) :: after) = ⟨before, after, .listed, none⟩ := by
  have hpass : ∀ member ∈ before, (!decide (member.1 = itemsKey)) = true := by
    simpa [Entries.contains] using h
  have hget := (Entries.contains_eq_false_iff before itemsKey).mp h
  simp [frameOf, List.takeWhile_append_of_pos hpass, List.dropWhile_append_of_pos hpass,
    Entries.get?_append, hget, Entries.get?_cons]

theorem frameOf_absent (h : Entries.contains before itemsKey = false) :
    frameOf before = ⟨before, [], .absent, none⟩ := by
  have hpass : ∀ member ∈ before, (!decide (member.1 = itemsKey)) = true := by
    simpa [Entries.contains] using h
  have hget := (Entries.contains_eq_false_iff before itemsKey).mp h
  rw [frameOf, List.takeWhile_eq_self_iff.mpr hpass, List.dropWhile_eq_nil_iff.mpr hpass, hget]
  rfl

end Reading

namespace Frame

/-- The map of tagged properties, if there is one, as it is shown among the members. -/
def tagsMember (frame : Frame) : Members :=
  match frame.tags with
  | none => []
  | some tags => [(tagsKey, (ShownTags.map (Key.ofTagged tags)).toData)]

/-- The frame of a group as it is read back from what is shown. -/
def exposed (frame : Frame) : Frame :=
  match frame.holding with
  | .absent => { frame with before := frame.before ++ frame.tagsMember, tags := none }
  | _ => { frame with after := frame.after ++ frame.tagsMember, tags := none }

/-- What holds of the frame of a group that can be read back from what is shown. A group without
items has no members after them, and one with tags no member in the place of their map. -/
structure IsRestorable (frame : Frame) : Prop where
  group : frame.IsGroup
  ends : frame.holding = .absent → frame.after = []
  hidden : frame.tags.isSome → Entries.contains frame.members tagsKey = false

variable {frame : Frame} {items : List Item}

theorem contains_members {key : String} : Entries.contains frame.members key = false ↔
    Entries.contains frame.before key = false ∧ Entries.contains frame.after key = false := by
  rw [members, Entries.contains, List.any_append, Bool.or_eq_false_iff]
  rfl

theorem exposed_of_bare (h : frame.tags = none) : frame.exposed = frame := by
  obtain ⟨before, after, holding, tags⟩ := frame
  cases h
  cases holding <;> simp [exposed, tagsMember]

@[simp] theorem holding_exposed (frame : Frame) : frame.exposed.holding = frame.holding := by
  unfold exposed
  split <;> rfl

theorem contains_tagsMember (frame : Frame) : Entries.contains frame.tagsMember itemsKey = false := by
  have hkey : ¬ tagsKey = itemsKey := by decide
  rw [tagsMember]
  cases frame.tags <;> simp [Entries.contains, hkey]

theorem IsRestorable.shown_eq (h : frame.IsRestorable) (items : List Data) :
    frame.shown items = frame.written items ++ frame.tagsMember := by
  rw [Frame.shown, tagsMember]
  cases htags : frame.tags with
  | none => exact (List.append_nil _).symm
  | some tags =>
    have hhidden := h.hidden (by rw [htags]; rfl)
    exact Entries.put_of_contains_eq_false (contains_written hhidden items) _

theorem IsRestorable.frameOf_shown (h : frame.IsRestorable) (hlist : frame.HasList items) :
    frameOf (frame.shown (Item.shownEach items)) = frame.exposed := by
  rw [h.shown_eq, written, exposed]
  rcases hlist with hholding | ⟨hholding, rfl⟩
  · rw [hholding, Item.itemsMember, List.append_assoc, List.append_assoc]
    exact frameOf_listed h.group.before _
  · have hmembers : Entries.contains (frame.before ++ frame.tagsMember) itemsKey = false := by
      rw [Entries.contains, List.any_append, Bool.or_eq_false_iff]
      exact ⟨h.group.before, contains_tagsMember frame⟩
    rw [hholding, Item.itemsMember, h.ends hholding, List.append_nil, List.append_nil,
      frameOf_absent hmembers]

theorem IsRestorable.isGroup_shown (h : frame.IsRestorable) (items : List Data) :
    isGroup (frame.shown items) = true := by
  have hwritten := isGroup_iff.mp (isGroup_written h.group items)
  rw [isGroup_iff, h.shown_eq, Entries.get?_append, hwritten]
  rfl

theorem IsRestorable.heldItems_shown (h : frame.IsRestorable) (hlist : frame.HasList items) :
    Data.heldItems (frame.shown (Item.shownEach items)) = Item.shownEach items := by
  have hbefore := (Entries.contains_eq_false_iff _ _).mp h.group.before
  rw [h.shown_eq, Data.heldItems, written]
  rcases hlist with hholding | ⟨hholding, rfl⟩
  · simp [Item.itemsMember, hholding, Entries.get?_append, hbefore, Entries.get?_cons]
  · have htags := (Entries.contains_eq_false_iff _ _).mp (contains_tagsMember frame)
    simp [Item.itemsMember, hholding, Entries.get?_append, hbefore, h.ends hholding, htags,
      Item.shownEach]

theorem get?_shownTags (h : Entries.contains frame.members tagsKey = false) :
    Entries.get? frame.exposed.members tagsKey = Entries.get? frame.tagsMember tagsKey := by
  have hmembers := (Entries.contains_eq_false_iff _ _).mp h
  rw [members, Entries.get?_append, Option.or_eq_none_iff] at hmembers
  unfold exposed
  split <;> simp [members, Entries.get?_append, hmembers]

/-- What holds of the frame of a group of a document, which has no tags. -/
structure IsBare (frame : Frame) : Prop extends frame.IsRestorable where
  tags : frame.tags = none

theorem isBare_frameOf {members : Members} (h : isGroup members = true) : (frameOf members).IsBare where
  group := Item.isGroup_frameOf h
  ends := fun habsent ↦ by
    rw [frameOf_absent (Item.contains_of_absent habsent)]
  hidden := fun htags ↦ by cases htags
  tags := rfl

/-- What holds of the frame of a group whose transforms are under tags. -/
structure IsUnderway (frame : Frame) : Prop extends frame.IsRestorable where
  tagged : frame.tags.isSome

theorem IsUnderway.with_tags (h : frame.IsUnderway) (tags : Tagged) :
    ({ frame with tags := some tags } : Frame).IsUnderway :=
  ⟨⟨h.group.with_tags _, h.ends, fun _ ↦ h.hidden h.tagged⟩, rfl⟩

theorem IsUnderway.tags_eq (h : frame.IsUnderway) : frame.tags = some frame.tagged := by
  obtain ⟨tags, htags⟩ := Option.isSome_iff_exists.mp h.tagged
  rw [Frame.tagged, htags]
  rfl

theorem IsUnderway.tagsMember_eq (h : frame.IsUnderway) :
    frame.tagsMember = [(tagsKey, (ShownTags.map (Key.ofTagged frame.tagged)).toData)] := by
  rw [tagsMember, h.tags_eq]

theorem IsUnderway.shownTags_exposed (h : frame.IsUnderway) :
    frame.exposed.shownTags = .map (Key.ofTagged frame.tagged) := by
  refine ShownTags.ofMembers_eq ?_
  rw [get?_shownTags (h.hidden h.tagged), h.tagsMember_eq]
  exact Entries.get?_put_self [] _ _

/-- Other tags are shown in the place of those that are there. -/
theorem IsUnderway.showing_exposed (h : frame.IsUnderway) (tags : Tagged) :
    frame.exposed.showing (.map (Key.ofTagged tags)) =
      ({ frame with tags := some tags } : Frame).exposed := by
  obtain ⟨hbefore, hafter⟩ := contains_members.mp (h.hidden h.tagged)
  have hput {members : Members} (hmembers : Entries.contains members tagsKey = false) (value : Data) :
      Entries.put (members ++ frame.tagsMember) tagsKey value = members ++ [(tagsKey, value)] := by
    rw [h.tagsMember_eq, ← Entries.put_of_contains_eq_false hmembers, Entries.put_put,
      Entries.put_of_contains_eq_false hmembers]
  have hcontains : Entries.contains (frame.before ++ frame.tagsMember) tagsKey = true := by
    rw [h.tagsMember_eq]
    simp [Entries.contains]
  rw [showing, put, exposed, exposed]
  cases frame.holding with
  | absent =>
    change (if Entries.contains (frame.before ++ frame.tagsMember) tagsKey then _ else _) = _
    rw [if_pos hcontains, hput hbefore]
    rfl
  | single | listed =>
    change (if Entries.contains frame.before tagsKey then _ else _) = _
    rw [if_neg (Bool.eq_false_iff.mp hbefore), hput hafter]
    rfl

/-- Untagging what is shown is untagging the group. -/
theorem IsUnderway.untagShown_exposed (h : frame.IsUnderway) :
    frame.exposed.untagShown = frame.untag := by
  obtain ⟨hbefore, hafter⟩ := contains_members.mp (h.hidden h.tagged)
  have hkeep {members : Members} (hmembers : Entries.contains members tagsKey = false) :
      members.filter (fun member ↦ !decide (member.1 = tagsKey)) = members := by
    rw [List.filter_eq_self]
    simpa [Entries.contains] using hmembers
  have htags : frame.tagsMember.filter (fun member ↦ !decide (member.1 = tagsKey)) = [] := by
    rw [h.tagsMember_eq]
    simp
  have hbare : frame.exposed.filter (fun member ↦ !decide (member.1 = tagsKey)) =
      { frame with tags := none } := by
    unfold exposed
    split <;> simp [filter, hkeep hbefore, hkeep hafter, htags]
  have hframe : ({ frame with tags := some (Key.tagged (Key.ofTagged frame.tagged)) } : Frame) =
      frame := by
    rw [Key.tagged_ofTagged, ← h.tags_eq]
  rw [untagShown, h.shownTags_exposed, hbare]
  exact congrArg untag hframe

end Frame

namespace Item

variable {frame : Frame} {items : List Item}

/-- A group that is shown is read back as a group without tags. -/
theorem ofData_shown (h : frame.IsRestorable) (hlist : frame.HasList items) :
    ofData (shown (.group frame items)) = .group frame.exposed (ofList (shownEach items)) := by
  rw [shown, ofData, if_pos (h.isGroup_shown _), h.frameOf_shown hlist, itemsOf_eq,
    h.heldItems_shown hlist]

/-- What is read shows what it has been read from. -/
theorem shownEach_ofList (items : List Data) : shownEach (ofList items) = items := by
  rw [shownEach_eq_toList _ (everyIn_ofList items fun _ _ _ ↦ rfl), toList_ofList]

theorem mayPushShown_ofList
    (h : EveryIn (fun frame items ↦ frame.IsUnderway ∧ frame.HasList items) items)
    (candidates : Tagged) :
    mayPushShown (ofList (shownEach items)) (Entries.keys (Key.ofTagged candidates)) =
      .ok (mayPush items candidates) := by
  have hspecial := Key.anyM_tags (fun candidate ↦ do return (← candidate.kind) = .special)
    (fun _ ↦ rfl) (Entries.keys candidates)
  rw [← Key.keys_ofTagged] at hspecial
  match items, h with
  | [], _ =>
    change ((List.anyM _ _) >>= _) = _
    rw [hspecial]
    cases (Entries.keys candidates).any fun tag ↦ decide (tag.kind = .special) <;> rfl
  | [.leaf value], ⟨hleaf, _⟩ =>
    have hleaf : ofData value = .leaf value := hleaf
    rw [shownEach, shown, ofList, hleaf]
    change ((List.anyM _ _) >>= _) = _
    rw [hspecial]
    cases (Entries.keys candidates).any fun tag ↦ decide (tag.kind = .special) <;> rfl
  | [.group frame items], ⟨⟨⟨hframe, hlist⟩, _⟩, _⟩ =>
    rw [shownEach, ofList, ofData_shown hframe.toIsRestorable hlist]
    change ((List.anyM _ _) >>= _) = _
    have hpush : mayPush [.group frame items] candidates =
        (!(Entries.keys candidates).any (fun tag ↦ decide (tag.kind = .special)) &&
          Motion.accepts candidates frame.tagged) := by
      rw [List.not_any_eq_all_not, Entries.keys, List.all_map]
      simp [mayPush, Function.comp_def]
    have haccepts := Key.accepts_ofTagged candidates frame.tagged
    rw [hspecial, hpush]
    cases (Entries.keys candidates).any fun tag ↦ decide (tag.kind = .special) with
    | true => rfl
    | false =>
      change (frame.exposed.shownTags.keys >>= Key.accepts _) = _
      rw [hframe.shownTags_exposed]
      exact haccepts
  | first :: second :: rest, _ =>
    have hlength : 1 < (ofList (shownEach (first :: second :: rest))).length := by
      simp [shownEach, ofList]
    change (if _ then _ else _) = _
    rw [if_pos hlength]
    cases first <;> rfl

mutual

/-- Pushing in what is shown of an item shows what pushing in the item leads to. -/
theorem pushShownBelow_shown (limit : ℤ) : ∀ (item : Item) (depth : ℤ) (push : Bool)
    (candidates : Tagged), Every (fun frame items ↦ frame.IsUnderway ∧ frame.HasList items) item →
    pushShownBelow limit depth push (Key.ofTagged candidates) (ofData item.shown) =
      (pushBelow limit depth push candidates item).map fun result ↦
        (ofData result.1.shown, Key.ofTagged result.2)
  | .leaf value, _, _, _, h => by
    have hleaf : ofData value = .leaf value := h
    rw [shown, hleaf, pushShownBelow, pushBelow, Progress.map]
    simp only [Progress.value_done, shown, hleaf]
    rfl
  | .group frame items, depth, push, candidates, ⟨⟨hframe, hlist⟩, hitems⟩ => by
    have hreceived : (if push then frame.exposed.shownTags.receive (Key.ofTagged candidates)
          else .done (frame.exposed.shownTags, Key.ofTagged candidates)) =
        (if push then pushInto frame.tagged candidates
          else .done (frame.tagged, candidates)).map fun result ↦
            (ShownTags.map (Key.ofTagged result.1), Key.ofTagged result.2) := by
      rw [hframe.shownTags_exposed, ShownTags.receive_ofTagged]
      cases push <;> rfl
    have hhere (tags : Tagged) {below : List Item} (hbelow : frame.HasList below) :
        ofData (shown (.group { frame with tags := some tags } below)) =
          .group (frame.exposed.showing (.map (Key.ofTagged tags))) (ofList (shownEach below)) := by
      rw [ofData_shown (hframe.with_tags tags).toIsRestorable hbelow, hframe.showing_exposed]
    rw [ofData_shown hframe.toIsRestorable hlist, pushShownBelow, pushBelow, hreceived]
    -- a push can stop while the group receives, at its depth, or below; each leaves a group to compare
    generalize (if push then pushInto frame.tagged candidates
      else .done (frame.tagged, candidates)) = received
    simp only [Progress.map, ShownTags.toPush_ofTagged, Frame.holding_exposed]
    cases received.fault? with
    | some fault => simp only [Progress.stopped, hhere received.value.1 hlist]
    | none =>
      rcases hlist with hholding | ⟨hholding, rfl⟩
      · have hbelow := pushShownEach_shown limit items (depth + 1)
          (mayPush items (inTagOrder received.value.1)) (inTagOrder received.value.1) hitems
        have hgroup (tags : Tagged) (below : List Item) :=
          hhere tags (Or.inl hholding : frame.HasList below)
        rw [hholding] at hgroup
        simp only [hholding, mayPushShown_ofList hitems, hbelow]
        cases checkDepth limit (depth + 1) with
        | some fault => simp only [Progress.guarded, hgroup]
        | none =>
          simp only [Progress.guarded, hgroup, Progress.map, ShownTags.without_ofTagged,
            apply_ite Key.ofTagged, apply_ite ShownTags.map]
      · have hgroup := hhere received.value.1 (Or.inr ⟨hholding, rfl⟩)
        rw [hholding] at hgroup
        simp only [hholding, Progress.done, hgroup]

theorem pushShownEach_shown (limit : ℤ) : ∀ (items : List Item) (depth : ℤ) (push : Bool)
    (candidates : Tagged), EveryIn (fun frame items ↦ frame.IsUnderway ∧ frame.HasList items) items →
    pushShownEach limit depth push (Key.ofTagged candidates) (ofList (shownEach items)) =
      (pushEach limit depth push candidates items).map fun result ↦
        (ofList (shownEach result.1), Key.ofTagged result.2)
  | [], _, _, _, _ => rfl
  | item :: rest, depth, push, candidates, h => by
    have hfirst := pushShownBelow_shown limit item depth push candidates h.1
    rw [shownEach, ofList, pushShownEach, pushEach, hfirst]
    simp only [Progress.map]
    cases (pushBelow limit depth push candidates item).fault? with
    | some fault => rfl
    | none =>
      simp only [pushShownEach_shown limit rest depth push _ h.2]
      rfl

end

theorem map_shown (frame : Frame) (p : Progress (List Item)) :
    (p.map (.group frame)).map shown = (p.map shownEach).map fun below ↦ .obj (frame.shown below) := by
  simp only [Progress.map, shown]

theorem map_shownEach (first : Progress Item) (unchanged : List Item) (rest : Progress (List Item)) :
    (Progress.cons first unchanged rest).map shownEach =
      .cons (first.map shown) (shownEach unchanged) (rest.map shownEach) := by
  unfold Progress.cons
  cases hfirst : first.fault? <;> simp [Progress.map, hfirst, shownEach]

mutual

/-- Untagging in what is shown of an item shows what untagging in the item leads to. Behind a stop
there are still items with tags, which are read back without, so that only what is shown agrees. -/
theorem untagShownBelow_shown (limit : ℤ) : ∀ (item : Item) (depth : ℤ),
    Every (fun frame items ↦ frame.IsUnderway ∧ frame.HasList items) item →
    (changeBelow (fun frame _ ↦ frame.untagShown) limit depth (ofData item.shown)).map shown =
      (changeBelow (fun frame _ ↦ frame.untag) limit depth item).map shown
  | .leaf value, _, h => by
    have hleaf : ofData value = .leaf value := h
    rw [shown, hleaf, changeBelow, changeBelow]
  | .group frame items, depth, ⟨⟨hframe, hlist⟩, hitems⟩ => by
    have hshown (other : Frame) :
        shown (.group other (ofList (shownEach items))) = shown (.group other items) := by
      rw [shown, shown, shownEach_ofList]
    have hholding : frame.untag.value.holding = frame.holding :=
      Frame.untag_induction (p := fun other ↦ other.holding = frame.holding) frame rfl
        fun other property value _ hother ↦ (Frame.holding_put other _ value).trans hother
    rw [ofData_shown hframe.toIsRestorable hlist, changeBelow, changeBelow,
      hframe.untagShown_exposed, Progress.map_guarded, Progress.map_guarded, hshown]
    rcases hlist with hlisted | ⟨habsent, rfl⟩
    · simp only [hholding, hlisted, Progress.map_guarded, hshown, map_shown,
        untagShownEach_shown limit items (depth + 1) hitems]
    · simp only [hholding, habsent]

theorem untagShownEach_shown (limit : ℤ) : ∀ (items : List Item) (depth : ℤ),
    EveryIn (fun frame items ↦ frame.IsUnderway ∧ frame.HasList items) items →
    (changeEach (fun frame _ ↦ frame.untagShown) limit depth (ofList (shownEach items))).map
        shownEach =
      (changeEach (fun frame _ ↦ frame.untag) limit depth items).map shownEach
  | [], _, _ => rfl
  | item :: rest, depth, h => by
    rw [shownEach, ofList, changeEach, changeEach, map_shownEach, map_shownEach, shownEach_ofList,
      untagShownBelow_shown limit item depth h.1, untagShownEach_shown limit rest depth h.2]

end

theorem pushShown_shown (limit : ℤ)
    (h : EveryIn (fun frame items ↦ frame.IsUnderway ∧ frame.HasList items) items)
    (candidates : Tagged) :
    pushShown limit (ofList (shownEach items)) (Key.ofTagged candidates) =
      (pushAll limit candidates items).map fun pushed ↦
        (ofList (shownEach pushed.value), Key.ofTagged pushed.candidates, pushed.pushed) := by
  rw [pushShown, pushAll, mayPushShown_ofList h, Progress.map_guarded]
  simp only [pushShownEach_shown limit items 0 _ _ h]
  rfl

theorem untagShown_shown (limit : ℤ)
    (h : EveryIn (fun frame items ↦ frame.IsUnderway ∧ frame.HasList items) items) :
    (changeAll (fun frame _ ↦ frame.untagShown) limit (ofList (shownEach items))).map shownEach =
      (untagAll limit items).map shownEach := by
  rw [untagAll, changeAll, changeAll, Progress.map_guarded, Progress.map_guarded,
    untagShownEach_shown limit items 0 h, shownEach_ofList]

/-! ### The way of a scene through a merge -/

mutual

/-- A scene without tags is what is read back from it. -/
theorem ofData_shown_of_bare : ∀ item : Item,
    Every (fun frame items ↦ frame.IsBare ∧ frame.HasList items) item → ofData item.shown = item
  | .leaf _, h => h
  | .group frame items, ⟨⟨hframe, hlist⟩, hitems⟩ => by
    rw [ofData_shown hframe.toIsRestorable hlist, Frame.exposed_of_bare hframe.tags,
      ofList_shownEach_of_bare items hitems]

theorem ofList_shownEach_of_bare : ∀ items : List Item,
    EveryIn (fun frame items ↦ frame.IsBare ∧ frame.HasList items) items →
      ofList (shownEach items) = items
  | [], _ => rfl
  | item :: rest, h => by
    rw [shownEach, ofList, ofData_shown_of_bare item h.1, ofList_shownEach_of_bare rest h.2]

end

variable {limit : ℤ}

/-- Making lists leaves a document without tags. -/
theorem listAll_bare {members : Members} (hfault : (listAll limit (itemsOf members)).fault? = none) :
    EveryIn (fun frame items ↦ frame.IsBare ∧ frame.HasList items)
      (listAll limit (itemsOf members)).value := by
  refine listAll_every (p := Frame.IsBare) (fun frame hframe ↦ ?_)
    (everyIn_frames fun _ _ hgroup ↦ Frame.isBare_frameOf hgroup) hfault
  exact ⟨⟨hframe.group.listed, fun habsent ↦ (by cases habsent), hframe.hidden⟩, hframe.tags⟩

theorem tagAll_underway
    (h : EveryIn (fun frame items ↦ frame.IsBare ∧ frame.HasList items) items)
    (hfault : (tagAll limit items).fault? = none) :
    EveryIn (fun frame items ↦ frame.IsUnderway ∧ frame.HasList items) (tagAll limit items).value := by
  obtain ⟨hcheck, hbelow⟩ := Progress.fault?_guarded_eq_none.mp hfault
  rw [tagAll, changeAll, hcheck]
  refine changeEach_every (p := Frame.IsBare) (q := Frame.IsUnderway)
    (fun frame items hframe hlist _ ↦ ⟨Frame.holding_tag hlist, ?_⟩) h hbelow
  have hshown := Frame.isShown_tag hframe.group hlist
  refine ⟨⟨hshown.group, fun habsent ↦ ?_, fun _ ↦ hshown.hidden⟩, rfl⟩
  have hafter := hframe.ends ((Frame.holding_tag hlist).symm.trans habsent)
  simp [Frame.tag, Frame.filter, hafter]

theorem pushAll_underway {candidates : Tagged}
    (h : EveryIn (fun frame items ↦ frame.IsUnderway ∧ frame.HasList items) items)
    (hfault : (pushAll limit candidates items).fault? = none) :
    EveryIn (fun frame items ↦ frame.IsUnderway ∧ frame.HasList items)
      (pushAll limit candidates items).value.value := by
  obtain ⟨hcheck, hbelow⟩ := Progress.fault?_guarded_eq_none.mp hfault
  rw [pushAll, hcheck]
  exact (pushEach_leaves (fun _ tags hframe ↦ hframe.with_tags tags)
    (fun _ _ ↦ rfl : ∀ (frame : Frame) tags, Frame.own { frame with tags } = frame.own)
    limit items 0 _ _ h hbelow).1

end Item

namespace Stage

variable {items : List Item}

theorem toExcept_run_push (limit : ℤ) (items : List Item) :
    (push.run limit items).toExcept = do
      return (← (Item.pushAll limit [] items).toExcept).value := by
  rw [run, Progress.toExcept, Progress.toExcept, Progress.fault?_map]
  cases (Item.pushAll limit [] items).fault? <;> rfl

theorem toExcept_run_splice (limit : ℤ) (items : List Item) :
    (splice.run limit items).toExcept = do
      return Item.spliceEach (← (Item.spliceAll limit items).toExcept) := by
  rw [run, Progress.toExcept, Progress.toExcept]
  cases hfault : (Item.spliceAll limit items).fault? <;> simp [hfault]

/-- The stages one after the other collapse the items of a root. -/
theorem foldlM_all (merge : Bool) (limit : ℤ) (items : List Item) :
    (all merge).foldlM (fun items stage ↦ (stage.run limit items).toExcept) items =
      Item.collapseItems merge limit items := by
  cases merge with
  | false =>
    simp only [all, Bool.false_eq_true, if_false, List.foldlM_cons, List.foldlM_nil,
      toExcept_run_splice, Item.collapseItems, bind_pure]
    rfl
  | true =>
    simp only [all, if_true, List.foldlM_cons, List.foldlM_nil, toExcept_run_push,
      toExcept_run_splice, Item.collapseItems, Item.mergeTransforms, bind_pure, bind_assoc,
      pure_bind]
    rfl

/-- On a list of items a stage is the walk over what is read from it. -/
theorem runShown_elements (limit : ℤ) {stage : Stage} (h : stage ≠ list) (items : List Data)
    (candidates : Entries Key Data) :
    runShown limit (.list items) candidates stage =
      .guarded (checkDepth limit 0) ⟨.list items, candidates, [], false⟩
        (runElements limit (.list items) (Item.ofList items) candidates stage) := by
  rw [runShown, if_neg h]
  rfl

/-- Tagging a scene that is shown without tags shows the tagged scene. -/
theorem runShown_tag (limit : ℤ)
    (h : Item.EveryIn (fun frame items ↦ frame.IsBare ∧ frame.HasList items) items)
    (candidates : Entries Key Data) :
    runShown limit (.list (Item.shownEach items)) candidates .tag =
      (Item.tagAll limit items).map fun tagged ↦
        ⟨.list (Item.shownEach tagged), candidates, [], false⟩ := by
  rw [runShown_elements limit (by decide), Item.ofList_shownEach_of_bare items h]
  cases hcheck : checkDepth limit 0 with
  | some fault => rw [Item.tagAll, Item.changeAll, hcheck]; rfl
  | none => rfl

/-- Pushing in a scene that is shown with its tags shows the scene after the push, with the same
candidates given to its items. -/
theorem runShown_push (limit : ℤ)
    (h : Item.EveryIn (fun frame items ↦ frame.IsUnderway ∧ frame.HasList items) items)
    (candidates : Tagged) :
    runShown limit (.list (Item.shownEach items)) (Key.ofTagged candidates) .push =
      (Item.pushAll limit candidates items).map fun pushed ↦
        ⟨.list (Item.shownEach pushed.value), Key.ofTagged pushed.candidates, [], pushed.pushed⟩ := by
  rw [runShown_elements limit (by decide), runElements, Item.pushShown_shown limit h]
  cases hcheck : checkDepth limit 0 with
  | some fault => rw [Item.pushAll, hcheck]; rfl
  | none =>
    simp only [Progress.guarded, Progress.map, Item.toList_ofList, runElements.left]

/-- Untagging a scene that is shown with its tags shows the untagged scene. -/
theorem runShown_untag (limit : ℤ)
    (h : Item.EveryIn (fun frame items ↦ frame.IsUnderway ∧ frame.HasList items) items)
    (candidates : Entries Key Data) :
    runShown limit (.list (Item.shownEach items)) candidates .untag =
      (Item.untagAll limit items).map fun untagged ↦
        ⟨.list (Item.shownEach untagged), candidates, [], false⟩ := by
  have huntag := congrArg
    (Progress.map fun shown ↦ (⟨.list shown, candidates, [], false⟩ : StageOutcome))
    (Item.untagShown_shown limit h)
  rw [runShown_elements limit (by decide)]
  cases hcheck : checkDepth limit 0 with
  | some fault => rw [Item.untagAll, Item.changeAll, hcheck]; rfl
  | none => exact huntag

/-- Runs stages on what is shown, each one on what the one before shows. -/
def runEach (limit : ℤ) (stages : List Stage) (shown : Data) : Except Fault Data :=
  stages.foldlM
    (fun shown stage ↦ ((runShown limit shown [] stage).map StageOutcome.items).toExcept) shown

theorem runEach_cons {limit : ℤ} {stage : Stage} {shown : Data} {outcome : StageOutcome}
    (h : runShown limit shown [] stage = .done outcome) (rest : List Stage) :
    runEach limit (stage :: rest) shown = runEach limit rest outcome.items := by
  rw [runEach, List.foldlM_cons, h]
  rfl

/-- Where the transforms of a document are merged, the stages lead from its items as they are shown
to the merged items. -/
theorem runEach_merges {limit : ℤ} {items : List Data} {listed merged : List Item}
    (hlisted : Item.listAll limit (Item.ofList items) = .done listed)
    (hmerged : Item.mergeTransforms limit listed = .ok merged) :
    runEach limit [list, tag, push, untag] (.list items) = .ok (.list (Item.toList merged)) := by
  have hroot : Item.itemsOf [(itemsKey, .list items)] = Item.ofList items := by
    rw [Item.itemsOf, if_pos rfl]
  have hbare : Item.EveryIn (fun frame items ↦ frame.IsBare ∧ frame.HasList items) listed := by
    have hfault : (Item.listAll limit (Item.itemsOf [(itemsKey, .list items)])).fault? = none := by
      rw [hroot, hlisted]
      rfl
    have hlist := Item.listAll_bare hfault
    rwa [hroot, hlisted] at hlist
  obtain ⟨hclean, -⟩ := Item.mergeTransforms_kept
    (hbare.mono fun _ _ hframe ↦ ⟨hframe.1.group, hframe.2⟩) hmerged
  obtain ⟨htag, hpush, huntag, rfl⟩ := Item.mergeTransforms_eq_ok hmerged
  have htagged := Item.tagAll_underway hbare htag
  have hpushed := Item.pushAll_underway htagged hpush
  have listing : runShown limit (.list items) [] list =
      .done ⟨.list (Item.shownEach listed), [], [], false⟩ := by
    rw [runShown, if_pos rfl, runList, hroot, hlisted,
      Item.shownEach_eq_toList _ (hbare.mono fun _ _ hframe ↦ hframe.1.tags)]
    rfl
  have tagging := runShown_tag limit hbare []
  have pushing := runShown_push limit htagged []
  have untagging := runShown_untag limit hpushed []
  rw [Progress.eq_done htag] at tagging
  rw [Progress.eq_done hpush] at pushing
  rw [Progress.eq_done huntag] at untagging
  calc runEach limit [list, tag, push, untag] (.list items)
      = runEach limit [tag, push, untag] (.list (Item.shownEach listed)) := runEach_cons listing _
    _ = runEach limit [push, untag] (.list (Item.shownEach (Item.tagAll limit listed).value)) :=
        runEach_cons tagging _
    _ = runEach limit [untag] (.list (Item.shownEach
          (Item.pushAll limit [] (Item.tagAll limit listed).value).value.value)) :=
        runEach_cons pushing _
    _ = .ok (.list (Item.shownEach (Item.untagAll limit
          (Item.pushAll limit [] (Item.tagAll limit listed).value).value.value).value)) :=
        runEach_cons untagging _
    _ = _ := by
        rw [Item.shownEach_eq_toList _ (hclean.mono fun _ _ hframe ↦ hframe.1.tags)]

end Stage

end Motion
