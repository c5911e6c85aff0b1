import Motion.Proofs.Scene.Frames
import Motion.Scene.Collapse
import Motion.Scene.Shown

/-!
What collapsing keeps of a scene. The leaves stay the same in the same order, and so does what the
groups above them hold of their own: all members but the type, the items and, where transforms are
merged, the transform properties, null values and private members. Groups that hold nothing of their
own may go.
-/

set_option autoImplicit false
set_option relaxedAutoImplicit false

namespace Motion

/-- Whether collapsing keeps a member of a group. -/
def isLasting (merge : Bool) (member : String × Data) : Bool :=
  !decide (member.1 = typeKey) && (!merge || (isPlain member && isPublic member))

/-- The members of a group that collapsing keeps. -/
def lasting (merge : Bool) (members : Members) : Members :=
  members.filter (isLasting merge)

def isFilled (members : Members) : Bool :=
  !members.isEmpty

/-- A leaf with the members of the groups above it that collapsing keeps, without groups that have
none. -/
def Leaf.content (merge : Bool) (leaf : Leaf Members) : Leaf Members :=
  (leaf.map (lasting merge)).filter isFilled

namespace Frame

/-- The members of a group that collapsing keeps. -/
def kept (merge : Bool) (frame : Frame) : Members :=
  lasting merge frame.own

theorem kept_eq (merge : Bool) (frame : Frame) :
    frame.kept merge = frame.members.filter fun member ↦
      isLasting merge member && !decide (member.1 = itemsKey) :=
  List.filter_filter

theorem kept_tag (frame : Frame) (items : List Item) :
    (frame.tag items).kept true = frame.kept true := by
  rw [kept_eq, kept_eq, members_tag, List.filter_filter]
  refine List.filter_congr fun member _ ↦ ?_
  cases h : isPlain member && isPublic member <;> simp [isLasting, h]

theorem kept_put (frame : Frame) (property : Property) (value : Data) :
    (frame.put property.name value).kept true = frame.kept true := by
  rw [kept_eq, kept_eq]
  refine filter_members_put (fun member h ↦ ?_) frame property value
  simp_all [isLasting]

theorem isPrivate_name (property : Property) : isPrivate property.name = false := by
  cases property <;> decide

/-- What holds of the frame of a group without private members. -/
structure IsShown (frame : Frame) : Prop where
  group : frame.IsGroup
  shown : ∀ member ∈ frame.members, isPrivate member.1 = false

theorem IsShown.with_tags {frame : Frame} (h : frame.IsShown) (tags : Option Tagged) :
    ({ frame with tags } : Frame).IsShown :=
  ⟨h.group.with_tags tags, h.shown⟩

theorem isShown_tag {frame : Frame} (h : frame.IsGroup) {items : List Item}
    (hlist : frame.HasList items) : (frame.tag items).IsShown where
  group := isGroup_tag h hlist
  shown := by
    intro member hmember
    rw [members_tag, List.mem_filter] at hmember
    simp_all [isPublic]

/-- What holds of the frame of a group whose transforms have been merged. -/
structure IsMerged (frame : Frame) : Prop extends frame.IsShown where
  tags : frame.tags = none

theorem kept_untag {frame : Frame} (h : frame.IsShown) :
    frame.untag.value.holding = frame.holding ∧ frame.untag.value.IsMerged ∧
      frame.untag.value.kept true = frame.kept true := by
  refine untag_induction
    (p := fun other ↦ other.holding = frame.holding ∧ other.IsMerged ∧
      other.kept true = frame.kept true) frame ⟨rfl, ⟨⟨?_, h.shown⟩, rfl⟩, rfl⟩ ?_
  · exact ⟨h.group.type, h.group.before, h.group.absent⟩
  · rintro other property value - ⟨hholding, hmerged, hkept⟩
    refine ⟨?_, ⟨⟨isGroup_put hmerged.group property value, ?_⟩, ?_⟩, ?_⟩
    · rw [holding_put, hholding]
    · intro member hmember
      rcases Frame.mem_members_put hmember with rfl | hmember
      · exact isPrivate_name property
      · exact hmerged.shown member hmember
    · rw [tags_put, hmerged.tags]
    · rw [kept_put, hkept]

end Frame

namespace Item

variable {limit : Int}

/-- What lists keep of one frame holds of all frames after making lists. -/
theorem listAll_every {p : Frame → Prop} {items : List Item}
    (hp : ∀ frame, p frame → p { frame with holding := .listed })
    (h : EveryIn (fun frame items ↦ p frame ∧ (frame.holding = .absent → items = [])) items)
    (hfault : (listAll limit items).fault? = none) :
    EveryIn (fun frame items ↦ p frame ∧ frame.HasList items) (listAll limit items).value := by
  obtain ⟨hcheck, hbelow⟩ := Progress.fault?_guarded_eq_none.mp hfault
  rw [listAll, hcheck]
  exact (listEach_leaves hp (fun _ ↦ rfl : ∀ frame : Frame,
    Frame.own { frame with holding := .listed } = frame.own) limit items 0 h hbelow).1

theorem listAll_kept (merge : Bool) {items : List Item}
    (h : EveryIn (fun frame items ↦ frame.IsGroup ∧ (frame.holding = .absent → items = [])) items)
    (hfault : (listAll limit items).fault? = none) :
    EveryIn (fun frame items ↦ frame.IsGroup ∧ frame.HasList items) (listAll limit items).value ∧
      leavesIn (Frame.kept merge) (listAll limit items).value =
        leavesIn (Frame.kept merge) items := by
  obtain ⟨hcheck, hbelow⟩ := Progress.fault?_guarded_eq_none.mp hfault
  rw [listAll, hcheck]
  exact listEach_leaves (fun _ hframe ↦ hframe.listed) (fun _ ↦ rfl) limit items 0 h hbelow

theorem tagAll_kept {items : List Item}
    (h : EveryIn (fun frame items ↦ frame.IsGroup ∧ frame.HasList items) items)
    (hfault : (tagAll limit items).fault? = none) :
    EveryIn (fun frame items ↦ frame.IsShown ∧ frame.HasList items) (tagAll limit items).value ∧
      leavesIn (Frame.kept true) (tagAll limit items).value =
        leavesIn (Frame.kept true) items := by
  obtain ⟨hcheck, hbelow⟩ := Progress.fault?_guarded_eq_none.mp hfault
  rw [tagAll, changeAll, hcheck]
  refine changeEach_leaves (fun frame items hframe hlist _ ↦ ?_) limit items 0 h hbelow
  exact ⟨Frame.holding_tag hlist, Frame.isShown_tag hframe hlist, Frame.kept_tag frame items⟩

theorem pushAll_kept {candidates : Tagged} {items : List Item}
    (h : EveryIn (fun frame items ↦ frame.IsShown ∧ frame.HasList items) items)
    (hfault : (pushAll limit candidates items).fault? = none) :
    EveryIn (fun frame items ↦ frame.IsShown ∧ frame.HasList items)
        (pushAll limit candidates items).value.value ∧
      leavesIn (Frame.kept true) (pushAll limit candidates items).value.value =
        leavesIn (Frame.kept true) items := by
  obtain ⟨hcheck, hbelow⟩ := Progress.fault?_guarded_eq_none.mp hfault
  rw [pushAll, hcheck]
  exact pushEach_leaves (fun _ tags hframe ↦ hframe.with_tags tags) (fun _ _ ↦ rfl) limit items 0 _ _ h
    hbelow

theorem untagAll_kept {items : List Item}
    (h : EveryIn (fun frame items ↦ frame.IsShown ∧ frame.HasList items) items)
    (hfault : (untagAll limit items).fault? = none) :
    EveryIn (fun frame items ↦ frame.IsMerged ∧ frame.HasList items) (untagAll limit items).value ∧
      leavesIn (Frame.kept true) (untagAll limit items).value =
        leavesIn (Frame.kept true) items := by
  obtain ⟨hcheck, hbelow⟩ := Progress.fault?_guarded_eq_none.mp hfault
  rw [untagAll, changeAll, hcheck]
  exact changeEach_leaves (fun frame items hframe _ _ ↦ Frame.kept_untag hframe) limit items 0 h
    hbelow

/-- A group that can give way to its items holds nothing but its type. -/
theorem members_of_isRedundant {frame : Frame} {items : List Item} (h : frame.IsGroup)
    (hredundant : isRedundant (.group frame items) = true) :
    ∃ value, frame.members = [(typeKey, value)] := by
  have hlength : frame.members.length = 1 := by
    simp only [isRedundant, Bool.and_eq_true, decide_eq_true_eq] at hredundant
    exact hredundant.1.1.2
  obtain ⟨⟨key, value⟩, hmember⟩ := List.length_eq_one_iff.mp hlength
  have htype := Frame.isGroup_iff.mp h.type
  rw [hmember, Entries.get?_cons] at htype
  split_ifs at htype with hkey
  · have hkey : key = typeKey := hkey
    exact ⟨value, by rw [hmember, hkey]⟩
  · cases htype

theorem kept_of_isRedundant {merge : Bool} {frame : Frame} {items : List Item}
    (h : frame.IsGroup) (hredundant : isRedundant (.group frame items) = true) :
    frame.kept merge = [] := by
  obtain ⟨value, hmembers⟩ := members_of_isRedundant h hredundant
  rw [Frame.kept_eq, hmembers]
  simp [isLasting]

theorem spliceAll_kept {p : Frame → Prop} (hp : ∀ frame, p frame → frame.IsGroup) (merge : Bool)
    {items : List Item} (h : EveryIn (fun frame items ↦ p frame ∧ frame.HasList items) items)
    (hfault : (spliceAll limit items).fault? = none) :
    EveryIn (fun frame items ↦ p frame ∧ frame.HasList items)
        (spliceEach (spliceAll limit items).value) ∧
      (leavesIn (Frame.kept merge) (spliceEach (spliceAll limit items).value)).map
          (Leaf.filter isFilled) =
        (leavesIn (Frame.kept merge) items).map (Leaf.filter isFilled) := by
  obtain ⟨hcheck, hbelow⟩ := Progress.fault?_guarded_eq_none.mp hfault
  rw [spliceAll, hcheck]
  have hidle (frame : Frame) (items : List Item) (hframe : p frame)
      (hredundant : isRedundant (.group frame items) = true) :
      isFilled (frame.kept merge) = false := by
    rw [kept_of_isRedundant (hp frame hframe) hredundant]
    rfl
  obtain ⟨hevery, hleaves⟩ :=
    spliceItems_leaves (Frame.kept merge) isFilled hidle limit items 0 h hbelow
  obtain ⟨hspliced, hsame⟩ := leavesIn_spliceEach (Frame.kept merge) isFilled hidle _ hevery
  exact ⟨hspliced, hsame.trans hleaves⟩

/-- The stages that lead to merged transforms. -/
theorem mergeTransforms_eq_ok {items merged : List Item}
    (h : mergeTransforms limit items = .ok merged) :
    (tagAll limit items).fault? = none ∧
      (pushAll limit [] (tagAll limit items).value).fault? = none ∧
      (untagAll limit (pushAll limit [] (tagAll limit items).value).value.value).fault? = none ∧
        merged = (untagAll limit (pushAll limit [] (tagAll limit items).value).value.value).value := by
  unfold mergeTransforms at h
  obtain ⟨_, htagged, h⟩ := Except.bind_eq_ok h
  obtain ⟨_, hpushed, huntagged⟩ := Except.bind_eq_ok h
  obtain ⟨htag, rfl⟩ := Progress.toExcept_eq_ok.mp htagged
  obtain ⟨hpush, rfl⟩ := Progress.toExcept_eq_ok.mp hpushed
  obtain ⟨huntag, rfl⟩ := Progress.toExcept_eq_ok.mp huntagged
  exact ⟨htag, hpush, huntag, rfl⟩

theorem mergeTransforms_kept {items merged : List Item}
    (h : EveryIn (fun frame items ↦ frame.IsGroup ∧ frame.HasList items) items)
    (hmerged : mergeTransforms limit items = .ok merged) :
    EveryIn (fun frame items ↦ frame.IsMerged ∧ frame.HasList items) merged ∧
      leavesIn (Frame.kept true) merged = leavesIn (Frame.kept true) items := by
  obtain ⟨htag, hpush, huntag, rfl⟩ := mergeTransforms_eq_ok hmerged
  obtain ⟨hevery, htagged⟩ := tagAll_kept h htag
  obtain ⟨hevery, hpushed⟩ := pushAll_kept hevery hpush
  obtain ⟨hevery, huntagged⟩ := untagAll_kept hevery huntag
  exact ⟨hevery, huntagged.trans (hpushed.trans htagged)⟩

/-- The stages that lead to collapsed items. -/
theorem collapseItems_eq_ok {merge : Bool} {items result : List Item}
    (h : collapseItems merge limit items = .ok result) :
    (listAll limit items).fault? = none ∧ ∃ merged,
      (if merge then mergeTransforms limit (listAll limit items).value
        else .ok (listAll limit items).value) = .ok merged ∧
      (spliceAll limit merged).fault? = none ∧
        result = spliceEach (spliceAll limit merged).value := by
  unfold collapseItems at h
  obtain ⟨listed, hlisted, h⟩ := Except.bind_eq_ok h
  obtain ⟨hlist, rfl⟩ := Progress.toExcept_eq_ok.mp hlisted
  refine ⟨hlist, ?_⟩
  have hmerged : ∃ merged, (if merge then mergeTransforms limit (listAll limit items).value
      else .ok (listAll limit items).value) = .ok merged ∧
      ((spliceAll limit merged).toExcept >>= fun below ↦ pure (spliceEach below)) = .ok result := by
    cases merge with
    | false => exact ⟨_, rfl, h⟩
    | true => exact Except.bind_eq_ok h
  obtain ⟨merged, hmerged, h⟩ := hmerged
  obtain ⟨below, hbelow, h⟩ := Except.bind_eq_ok h
  obtain ⟨hsplice, rfl⟩ := Progress.toExcept_eq_ok.mp hbelow
  cases h
  exact ⟨merged, hmerged, hsplice, rfl⟩

theorem collapseItems_kept {merge : Bool} {items result : List Item}
    (h : EveryIn (fun frame items ↦ frame.IsGroup ∧ (frame.holding = .absent → items = [])) items)
    (hresult : collapseItems merge limit items = .ok result) :
    EveryIn (fun frame items ↦
        (frame.IsGroup ∧ (merge = true → frame.IsMerged)) ∧ frame.HasList items) result ∧
      (leavesIn (Frame.kept merge) result).map (Leaf.filter isFilled) =
        (leavesIn (Frame.kept merge) items).map (Leaf.filter isFilled) := by
  obtain ⟨hlist, merged, hmerge, hsplice, rfl⟩ := collapseItems_eq_ok hresult
  obtain ⟨hevery, hlisted⟩ := listAll_kept merge h hlist
  cases merge with
  | false =>
    cases hmerge
    obtain ⟨hspliced, hleaves⟩ := spliceAll_kept (fun _ hframe ↦ hframe) false hevery hsplice
    exact ⟨hspliced.mono fun frame items hframe ↦ ⟨⟨hframe.1, by simp⟩, hframe.2⟩,
      hlisted ▸ hleaves⟩
  | true =>
    obtain ⟨hmerged, hkept⟩ := mergeTransforms_kept hevery hmerge
    obtain ⟨hspliced, hleaves⟩ := spliceAll_kept (fun _ hframe ↦ hframe.group) true hmerged hsplice
    exact ⟨hspliced.mono fun frame items hframe ↦
      ⟨⟨hframe.1.group, fun _ ↦ hframe.1⟩, hframe.2⟩, (hkept.trans hlisted) ▸ hleaves⟩

end Item

namespace Data

/-- A tree that is collapsed has no items at all, or it is an object and gets collapsed items. -/
theorem collapse_eq_ok {merge : Bool} {limit : Int} {tree result : Data}
    (h : tree.collapse merge limit = .ok result) :
    (result = tree ∧ tree.leaves = [] ∧ tree.groups = []) ∨
      ∃ members items, tree = .obj members ∧
        Item.collapseItems merge limit (Item.itemsOf members) = .ok items ∧
        result = .obj (Entries.put members itemsKey (.list (Item.toList items))) := by
  unfold collapse at h
  obtain ⟨_, -, h⟩ := Except.bind_eq_ok h
  obtain ⟨mentioned, hmentioned, h⟩ := Except.bind_eq_ok h
  cases tree with
  | obj members =>
    cases mentioned with
    | false =>
      cases h
      have hnone : Entries.get? members itemsKey = none := by
        rw [← Entries.contains_eq_false_iff]
        exact Except.ok.inj hmentioned
      left
      simp [leaves, groups, leavesAmong_eq, groupsAmong_eq, heldItems, hnone, leavesIn, groupsIn]
    | true =>
      obtain ⟨items, hitems, h⟩ := Except.bind_eq_ok h
      cases h
      exact Or.inr ⟨members, items, rfl, hitems, rfl⟩
  | null | bool _ | num _ | str _ | list _ =>
    cases mentioned <;> cases h
    exact Or.inl ⟨rfl, rfl, rfl⟩

theorem heldItems_put (members : Members) (items : List Data) :
    heldItems (Entries.put members itemsKey (.list items)) = items := by
  simp [heldItems]

end Data

namespace Item

theorem everyIn_read (members : Members) :
    EveryIn (fun frame items ↦ frame.IsGroup ∧ (frame.holding = .absent → items = []))
      (itemsOf members) :=
  everyIn_frames fun _ _ hgroup ↦ isGroup_frameOf hgroup

theorem map_content (merge : Bool) (items : List Item) :
    (leavesIn Frame.own items).map (Leaf.content merge) =
      (leavesIn (Frame.kept merge) items).map (Leaf.filter isFilled) := by
  have hcomp := leavesIn_comp (lasting merge) Frame.own items
  rw [show Frame.kept merge = lasting merge ∘ Frame.own from rfl, hcomp, List.map_map]
  rfl

mutual

/-- Where no group has tagged properties, nothing more is shown than is written. -/
theorem shown_eq_toData : ∀ item : Item, Every (fun frame _ ↦ frame.tags = none) item →
    item.shown = item.toData
  | .leaf _, _ => rfl
  | .group frame items, h => by
    rw [shown, Frame.shown, h.1, shownEach_eq_toList items h.2]
    rfl

theorem shownEach_eq_toList : ∀ items : List Item, EveryIn (fun frame _ ↦ frame.tags = none) items →
    shownEach items = toList items
  | [], _ => rfl
  | item :: rest, h => by
    rw [shownEach, toList, shown_eq_toData item h.1, shownEach_eq_toList rest h.2]

end

end Item

namespace Frame

theorem IsShown.hidden {frame : Frame} (h : frame.IsShown) :
    Entries.contains frame.members tagsKey = false := by
  rw [Entries.contains, List.any_eq_false]
  intro member hmember hkey
  rw [decide_eq_true_eq] at hkey
  have hprivate : isPrivate tagsKey = true := by decide
  have hshown := h.shown member hmember
  rw [hkey, hprivate] at hshown
  cases hshown

/-- The items of a group do not stand under the key of the tags. -/
theorem contains_written {frame : Frame} (h : Entries.contains frame.members tagsKey = false)
    (items : List Data) : Entries.contains (frame.written items) tagsKey = false := by
  have hkey : ¬ itemsKey = tagsKey := by decide
  have hitems : Entries.contains (Item.itemsMember frame.holding items) tagsKey = false := by
    cases frame.holding <;> simp [Item.itemsMember, Entries.contains, hkey]
  simp only [written, members, Entries.contains, List.any_append, Bool.or_eq_false_iff] at h hitems ⊢
  exact ⟨⟨h.1, hitems⟩, h.2⟩

end Frame

namespace Data

/-- Collapsing keeps the leaves of a scene in order, and above each of them what the groups hold of
their own. After transforms are merged no group has tagged properties any more, neither among its
members nor beside them. -/
theorem leaves_collapse_content {merge : Bool} {limit : Int} {tree result : Data}
    (h : tree.collapse merge limit = .ok result) :
    result.leaves.map (Leaf.content merge) = tree.leaves.map (Leaf.content merge) ∧
      (merge = true →
        (∀ members ∈ result.groups, Entries.contains members tagsKey = false) ∧
          ∀ members items, tree = .obj members →
            Item.collapseItems merge limit (Item.itemsOf members) = .ok items →
              Item.shownEach items = Item.toList items) := by
  constructor
  · rcases collapse_eq_ok h with ⟨rfl, -, -⟩ | ⟨members, items, rfl, hitems, rfl⟩
    · rfl
    · obtain ⟨hevery, hleaves⟩ := Item.collapseItems_kept (Item.everyIn_read members) hitems
      have hwritten := Item.leavesIn_toList items (hevery.mono fun _ _ hframe ↦
        ⟨hframe.1.1, hframe.2⟩)
      rw [leaves, leaves, leavesAmong_eq, heldItems_put, hwritten, ← Item.leavesIn_itemsOf,
        Item.map_content, Item.map_content, hleaves]
  · rintro rfl
    constructor
    · rcases collapse_eq_ok h with ⟨rfl, -, hgroups⟩ | ⟨members, items, rfl, hitems, rfl⟩
      · simp [hgroups]
      · obtain ⟨hevery, -⟩ := Item.collapseItems_kept (Item.everyIn_read members) hitems
        rw [groups, groupsAmong_eq, heldItems_put]
        exact Item.groupsIn_toList (fun frame below hframe ↦ ⟨hframe.1.1, hframe.2,
          Frame.contains_written (hframe.1.2 rfl).toIsShown.hidden _⟩) items hevery
    · rintro members items rfl hitems
      obtain ⟨hevery, -⟩ := Item.collapseItems_kept (Item.everyIn_read members) hitems
      exact Item.shownEach_eq_toList items (hevery.mono fun _ _ hframe ↦ (hframe.1.2 rfl).tags)

/-- A rotated group around a shifted one, with a null in place of items, a private member and
a mark of its own. -/
def markedScene : Data :=
  .obj [("items", .obj [("type", .str "group"), ("rotation", .num (.int 45)), ("id", .str "a"),
    ("items", .list [.obj [("type", .str "group"), ("translateX", .str (Scalar.binding "x")),
      ("_note", .bool true), ("items", .null)]])])]

theorem leaves_collapse_content_marked : ∃ result, markedScene.collapse true 256 = .ok result ∧
    result.leaves.map (Leaf.content true) = markedScene.leaves.map (Leaf.content true) ∧
      ∀ members ∈ result.groups, Entries.contains members tagsKey = false := by
  have hok : (markedScene.collapse true 256).isOk = true := by decide +kernel
  cases hresult : markedScene.collapse true 256 with
  | error fault =>
    rw [hresult] at hok
    cases hok
  | ok result =>
    obtain ⟨hleaves, hgroups⟩ := leaves_collapse_content hresult
    exact ⟨result, rfl, hleaves, (hgroups rfl).1⟩

end Data

end Motion
