import Motion.Proofs.Scene.Picture

/-!
Collapsing keeps the picture of a scene: the leaves in order, each with the affine map and the
opacity that the groups above it make together, whatever names, calls and special values stand for.
It returns a scene unless transforms are merged and the integers along some chain of groups are so
large that their product has more digits than can be written into a binding.
-/

set_option autoImplicit false
set_option relaxedAutoImplicit false

namespace Motion

open Pose

/-- The greatest size among the transform properties of a group. -/
def memberSize (members : Members) : ℕ :=
  (Property.all.map fun property ↦ sizeAt members property.name).foldr max 0

namespace Data

/-- The picture of a scene tree: its leaves from left to right, each with what the groups above it
do together. -/
def rendering (turning : Turning) (env : Assignment) (tree : Data) : List (Appearance × Data) :=
  tree.leaves.map fun leaf ↦
    (leaf.map fun members ↦ (ofMembers env members).appearance turning).shown

/-- Whether the transform properties of all groups stand for something. -/
def IsReadable (tree : Data) : Prop :=
  ∀ members ∈ tree.groups, Motion.IsReadable members

instance (tree : Data) : Decidable tree.IsReadable :=
  inferInstanceAs (Decidable (∀ members ∈ tree.groups, Motion.IsReadable members))

mutual

/-- The greatest product of sizes along a chain of nested groups. -/
def reachOf : Data → ℕ
  | .obj members => if isGroup members then memberSize members * reachAmong members else 1
  | _ => 1

/-- The reach under the first member `items`. -/
def reachAmong : List (String × Data) → ℕ
  | [] => 1
  | (key, .list items) :: rest => if key = itemsKey then reachIn items else reachAmong rest
  | (key, value) :: rest => if key = itemsKey then value.reachOf else reachAmong rest

def reachIn : List Data → ℕ
  | [] => 1
  | value :: rest => max value.reachOf (reachIn rest)

end

/-- The greatest product of sizes along a chain of nested groups of a scene tree, below its root. -/
def reach : Data → ℕ
  | .obj members => reachAmong members
  | _ => 1

end Data

/-- Whether a fault is that of a number with too many digits, which the bound of all numbers allows. -/
def IsOverflow (bound : ℕ) (fault : Fault) : Prop :=
  fault = .badValue ∧ 10 ^ Numeral.digitLimit < bound

namespace Frame

/-- What the members of a group do. -/
def memberView (turning : Turning) (env : Assignment) (frame : Frame) : Appearance :=
  (ofMembers env frame.own).appearance turning

theorem memberView_eq (turning : Turning) (env : Assignment) (frame : Frame) :
    frame.memberView turning env = (ofMembers env frame.members).appearance turning := by
  have hname (property : Property) : reading env frame.own property.name =
      reading env frame.members property.name :=
    reading_congr (Entries.get?_erase_of_ne (property.name_ne (by decide)).symm frame.members)
  rw [memberView, show ofMembers env frame.own = ofMembers env frame.members from funext hname]

/-- What holds of the frame of a group of a document whose properties stand for something. -/
structure IsLegible (frame : Frame) : Prop where
  group : frame.IsGroup
  readable : IsReadable frame.members
  itemless : Entries.get? frame.members itemsKey = none

end Frame

namespace Item

/-- The step of a measure by the sizes among the members. -/
def memberStep (frame : Frame) (n : ℕ) : ℕ :=
  memberSize frame.members * n

theorem sizeAt_le_memberSize (members : Members) (property : Property) :
    sizeAt members property.name ≤ memberSize members :=
  List.le_max_of_le (List.mem_map_of_mem property.mem_all) (le_refl _)

theorem one_le_memberSize (members : Members) : 1 ≤ memberSize members :=
  (one_le_sizeAt members _).trans (sizeAt_le_memberSize members .opacity)

theorem one_le_measure (item : Item) : 1 ≤ measure memberStep 1 item := by
  cases item with
  | leaf leaf => exact le_refl 1
  | group frame items =>
    rw [measure, memberStep]
    exact Nat.mul_pos (one_le_memberSize frame.members) (le_measureIn memberStep 1 items)

theorem memberSize_frameOf (members : Members) :
    memberSize (frameOf members).members = memberSize members := by
  have hsize (property : Property) :
      sizeAt (frameOf members).members property.name = sizeAt members property.name := by
    rw [sizeAt, sizeAt, get?_frameOf members (property.name_ne (by decide)).symm]
  rw [memberSize, memberSize, funext hsize]

mutual

theorem measure_ofData : ∀ value : Data, measure memberStep 1 (ofData value) = value.reachOf
  | .obj members => by
    by_cases h : Motion.isGroup members = true
    · rw [ofData, if_pos h, measure, memberStep, memberSize_frameOf, measureIn_itemsOf members,
        Data.reachOf, if_pos h]
    · rw [ofData, if_neg h, measure, Data.reachOf, if_neg h]
  | .null | .bool _ | .num _ | .str _ | .list _ => rfl

theorem measureIn_itemsOf : ∀ members : List (String × Data),
    measureIn memberStep 1 (itemsOf members) = Data.reachAmong members
  | [] => rfl
  | (key, .list items) :: rest => by
    by_cases h : key = itemsKey
    · rw [itemsOf, if_pos h, Data.reachAmong, if_pos h, measureIn_ofList items]
    · rw [itemsOf, if_neg h, Data.reachAmong, if_neg h, measureIn_itemsOf rest]
  | (key, .obj members) :: rest => by
    by_cases h : key = itemsKey
    · have hone := one_le_measure (ofData (.obj members))
      rw [measure_ofData (.obj members)] at hone
      simp [itemsOf, Data.reachAmong, h, measureIn, measure_ofData (.obj members), hone]
    · simp [itemsOf, Data.reachAmong, h, measureIn_itemsOf rest]
  | (key, .null) :: rest | (key, .bool _) :: rest | (key, .num _) :: rest
  | (key, .str _) :: rest => by
    by_cases h : key = itemsKey
    · simp [itemsOf, Data.reachAmong, h, measureIn, ofData, measure, Data.reachOf]
    · simp [itemsOf, Data.reachAmong, h, measureIn_itemsOf rest]

theorem measureIn_ofList : ∀ items : List Data,
    measureIn memberStep 1 (ofList items) = Data.reachIn items
  | [] => rfl
  | value :: rest => by
    rw [ofList, measureIn, Data.reachIn, measure_ofData value, measureIn_ofList rest]

end

end Item

namespace Frame

/-- What is left of the members of a group once null values, private members and properties that do
not show are dropped can be moved under tags. -/
theorem isTaggable_prune {members : Members} (h : IsReadable members) :
    IsTaggable (prune (members.filter isPublic)) where
  toIsReadable := (h.filter isPublic).filter _
  isNull := by
    intro property value hget
    have hmem := Entries.mem_of_get? hget
    have hpublic := (List.mem_filter.mp (List.mem_filter.mp hmem).1).2
    simpa [isPublic, isPrivate_name] using hpublic

theorem reading_filter_isPublic {members : Members} (h : IsReadable members) (env : Assignment)
    (property : Property) : reading env (members.filter isPublic) property.name =
      reading env members property.name := by
  refine reading_filter h fun value hvalue ↦ Or.inl ?_
  cases value with
  | null => rfl
  | _ => simp [isPublic, isPrivate_name, Data.isNull] at hvalue

theorem appearance_prune {members : Members} (h : IsReadable members) (turning : Turning)
    (env : Assignment) : (ofMembers env (prune (members.filter isPublic))).appearance turning =
      (ofMembers env members).appearance turning := by
  rw [appearance_ofMembers_prune (h.filter isPublic),
    show ofMembers env (members.filter isPublic) = ofMembers env members from
      funext (reading_filter_isPublic h env)]

/-- Tagging moves what a group does from its members under its tags. -/
theorem isTagged_tag {frame : Frame} (h : frame.IsLegible) {items : List Item}
    (hlist : frame.HasList items) : (frame.tag items).IsTagged ∧
      (∀ turning env, (frame.tag items).taggedView turning env = frame.memberView turning env) ∧
        (frame.tag items).taggedSize ≤ memberSize frame.members := by
  have htaggable := isTaggable_prune h.readable
  have hmembers := members_tag frame items
  refine ⟨⟨isShown_tag h.group hlist, ⟨?_, fun property ↦ ?_⟩, ?_, ?_⟩, fun turning env ↦ ?_, ?_⟩
  · rw [hmembers]
    exact Entries.nodup_keys_filter h.readable.nodup _
  · rw [hmembers, Entries.get?_filter h.readable.nodup]
    cases Entries.get? frame.members property.name with
    | none => rfl
    | some value => rw [Option.filter_some, isPlain_name]; rfl
  · rw [hmembers, Entries.get?_filter h.readable.nodup, h.itemless]
    rfl
  · rw [tagged_tag]
    exact isSound_tagMembers htaggable
  · rw [memberView_eq, taggedView, tagged_tag, ofTags_tagMembers htaggable,
      appearance_prune h.readable]
  · refine List.max_le_of_forall_le _ _ fun size hsize ↦ ?_
    obtain ⟨tag, -, rfl⟩ := List.mem_map.mp hsize
    rw [tagged_tag]
    calc
      sizeAt (tagMembers (prune (frame.members.filter isPublic))) tag
        ≤ sizeAt (prune (frame.members.filter isPublic)) tag.property.name :=
          sizeAt_tagMembers htaggable tag
      _ ≤ sizeAt (frame.members.filter isPublic) tag.property.name :=
          sizeAt_filter (h.readable.filter isPublic).nodup _ _
      _ ≤ sizeAt frame.members tag.property.name := sizeAt_filter h.readable.nodup _ _
      _ ≤ memberSize frame.members := Item.sizeAt_le_memberSize _ _

/-- Untagging moves what a group does back among its members. -/
theorem isLegible_untag {frame : Frame} (h : frame.IsTagged) (hfault : frame.untag.fault? = none) :
    frame.untag.value.IsLegible ∧
      ∀ turning env, frame.untag.value.memberView turning env = frame.taggedView turning env := by
  rcases untag_cases h.toIsPlain h.tags with ⟨-, hreadable, hitems, hview, -⟩ | ⟨hbad, -⟩
  · refine ⟨⟨(kept_untag h.toIsShown).2.1.group, hreadable, hitems.trans h.itemless⟩,
      fun turning env ↦ ?_⟩
    rw [memberView_eq, hview, taggedView]
  · rw [hbad] at hfault
    cases hfault

/-- Untagging fails only where a number under a tag is too long. -/
theorem untag_faultsIn {frame : Frame} {bound : ℕ} (h : frame.IsTagged)
    (hbound : frame.IsWithin bound) : frame.untag.FaultsIn (IsOverflow bound) := by
  intro fault hfault
  rcases untag_cases h.toIsPlain h.tags with ⟨hnone, -⟩ | ⟨hbad, tag, hlong⟩
  · rw [hnone] at hfault
    cases hfault
  · rw [hbad] at hfault
    exact ⟨(Option.some_inj.mp hfault).symm, lt_of_lt_of_le hlong (hbound tag)⟩

/-- A group that can give way to its items does nothing. -/
theorem memberView_of_isRedundant {frame : Frame} {items : List Item} (h : frame.IsGroup)
    (hredundant : Item.isRedundant (.group frame items) = true) (turning : Turning)
    (env : Assignment) : frame.memberView turning env = 1 := by
  obtain ⟨value, hmembers⟩ := Item.members_of_isRedundant h hredundant
  rw [memberView_eq]
  refine appearance_of_neutral fun property ↦ ?_
  have hne : property.name ≠ typeKey := property.name_ne (by decide)
  rw [ofMembers, reading_of_none, neutral_name]
  rw [hmembers, Entries.get?_cons, if_neg hne.symm]
  rfl

end Frame

namespace Item

variable {limit : ℤ} {items : List Item}

theorem listAll_picture
    (h : EveryIn (fun frame items ↦ frame.IsLegible ∧ (frame.holding = .absent → items = [])) items)
    (hheight : heightIn items ≤ limit) :
    ∃ listed, listAll limit items = .done listed ∧
      EveryIn (fun frame items ↦ frame.IsLegible ∧ frame.HasList items) listed ∧
      heightIn listed = heightIn items ∧
      measureIn memberStep 1 listed = measureIn memberStep 1 items ∧
      ∀ turning env, picture (Frame.memberView turning env) listed =
        picture (Frame.memberView turning env) items := by
  have hlimit : 0 ≤ limit := by omega
  have hfault := listEach_fault? limit items 0 (by omega)
  have hlist : listAll limit items = listEach limit 0 items := by
    rw [listAll, checkDepth_eq_none hlimit, Progress.guarded_none]
  have hlegible (frame : Frame) (hframe : frame.IsLegible) :
      ({ frame with holding := .listed } : Frame).IsLegible :=
    ⟨hframe.group.listed, hframe.readable, hframe.itemless⟩
  have hleaves (turning : Turning) (env : Assignment) := listEach_leaves hlegible
    (show ∀ frame : Frame, Frame.memberView turning env { frame with holding := .listed } =
      Frame.memberView turning env frame from fun _ ↦ rfl) limit items 0 h hfault
  rw [hlist]
  refine ⟨_, Progress.eq_done hfault, ?_, ?_, ?_, fun turning env ↦ ?_⟩
  · exact (listEach_leaves hlegible (show ∀ frame : Frame,
      Frame.own { frame with holding := .listed } = frame.own from fun _ ↦ rfl) limit items 0 h
      hfault).1
  · refine listEach_measure (fun frame n hframe ↦ ?_) limit items 0 hfault
    rw [heightStep_of_ne hframe, heightStep_of_ne (by simp)]
  · exact listEach_measure (fun _ _ _ ↦ rfl) limit items 0 hfault
  · rw [picture, picture, (hleaves turning env).2]

theorem tagAll_picture (h : EveryIn (fun frame items ↦ frame.IsLegible ∧ frame.HasList items) items)
    (hheight : heightIn items ≤ limit) :
    ∃ tagged, tagAll limit items = .done tagged ∧
      EveryIn (fun frame items ↦ frame.IsTagged ∧ frame.HasList items) tagged ∧
      heightIn tagged ≤ heightIn items ∧
      measureIn sizeStep 1 tagged ≤ measureIn memberStep 1 items ∧
      ∀ turning env, picture (Frame.taggedView turning env) tagged =
        picture (Frame.memberView turning env) items := by
  have hlimit : 0 ≤ limit := by omega
  have htag : tagAll limit items =
      changeEach (fun frame items ↦ .done (frame.tag items)) limit 0 items := by
    rw [tagAll, changeAll, checkDepth_eq_none hlimit, Progress.guarded_none]
  have hfault : (changeEach (fun frame items ↦ .done (frame.tag items)) limit 0 items).fault? =
      none := by
    have hfaults := changeEach_faultsIn (q := fun _ ↦ False) (fun frame items hframe hlist ↦
      ⟨Progress.faultsIn_done _ (frame.tag items), fun _ ↦ Frame.holding_tag hlist⟩) limit items 0 h
      (by omega)
    exact Option.eq_none_iff_forall_ne_some.mpr hfaults
  have hleaves (turning : Turning) (env : Assignment) :=
    changeEach_leaves (fun frame items (hframe : Frame.IsLegible frame) hlist _ ↦ by
      obtain ⟨htagged, hview, -⟩ := Frame.isTagged_tag hframe hlist
      exact ⟨Frame.holding_tag hlist, htagged, hview turning env⟩) limit items 0 h hfault
  rw [htag]
  refine ⟨_, Progress.eq_done hfault, ?_, ?_, ?_, fun turning env ↦ ?_⟩
  · exact (changeEach_leaves (fun frame items hframe hlist _ ↦ ⟨Frame.holding_tag hlist,
      (Frame.isTagged_tag hframe hlist).1, Frame.kept_tag frame items⟩) limit items 0 h hfault).1
  · refine changeEach_measure (fun frame items hframe hlist _ ↦ ?_) limit items 0 h hfault
    exact ⟨Frame.holding_tag hlist, fun n m hle ↦ heightStep_mono (Frame.holding_tag hlist) hle⟩
  · refine changeEach_measure (fun frame items hframe hlist _ ↦ ?_) limit items 0 h hfault
    exact ⟨Frame.holding_tag hlist, fun n m hle ↦
      Nat.mul_le_mul (Frame.isTagged_tag hframe hlist).2.2 hle⟩
  · rw [picture, picture, (hleaves turning env).2]

/-- Pushing keeps the picture and, where it is calm, the contours, and nothing under a tag outgrows
the reach of the scene. -/
theorem pushAll_picture (h : EveryIn (fun frame items ↦ frame.IsTagged ∧ frame.HasList items) items)
    (hheight : heightIn items ≤ limit) :
    ∃ pushed, pushAll limit [] items = .done pushed ∧
      EveryIn (fun frame below ↦ (frame.IsTagged ∧ frame.IsWithin (measureIn sizeStep 1 items)) ∧
        frame.HasList below) pushed.value ∧
      heightIn pushed.value = heightIn items ∧
      (∀ turning env, picture (Frame.taggedView turning env) pushed.value =
        picture (Frame.taggedView turning env) items) ∧
      ∀ turning env, (∀ leaf ∈ leavesIn (Frame.taggedContour turning env) items,
          Contour.IsCalm leaf.above) →
        totals (Frame.taggedContour turning env) pushed.value =
          totals (Frame.taggedContour turning env) items := by
  have hlimit : 0 ≤ limit := by omega
  have hmay : MayReceive 1 (mayPush items []) [] items :=
    ⟨id, fun _ ↦ Tagged.isSound_nil, fun _ _ ↦ le_refl 1⟩
  obtain ⟨hfault, hpushed⟩ := pushEach_isPushed items 0 1 (mayPush items []) [] h
    (show 0 + (heightIn items : ℤ) ≤ limit by omega) (le_refl 1) (Nat.one_mul _).le hmay
  refine ⟨⟨(pushEach limit 0 (mayPush items []) [] items).value.1,
    (pushEach limit 0 (mayPush items []) [] items).value.2, mayPush items []⟩, ?_, hpushed.every,
    hpushed.height, fun turning env ↦ ?_, fun turning env hcalm ↦ ?_⟩
  · rw [pushAll, checkDepth_eq_none hlimit, Progress.guarded_none, Progress.map, hfault]
    rfl
  · have hnothing : pushedView (mayPush items []) [] turning env = 1 := by
      unfold pushedView
      split_ifs
      · exact appearance_ofTags_nil turning env
      · rfl
    rw [hpushed.picture, hnothing, Appearance.act_one, List.map_id]
  · have hnothing : pushedContour (mayPush items []) [] turning env = 1 := by
      unfold pushedContour
      split_ifs
      · exact tagContour_nil
      · rfl
    have htotals := hpushed.contour turning env fun leaf hleaf ↦ by
      rw [hnothing]
      exact (hcalm leaf hleaf).one_cons
    rw [htotals, hnothing, actOn_one, List.map_id]

theorem untagAll_eq (h : 0 ≤ limit) (items : List Item) :
    untagAll limit items = changeEach (fun frame _ ↦ frame.untag) limit 0 items := by
  rw [untagAll, changeAll, checkDepth_eq_none h, Progress.guarded_none]

/-- Untagging fails only where some number is longer than the bound of all numbers allows. -/
theorem untagAll_faultsIn {bound : ℕ}
    (h : EveryIn (fun frame items ↦ (frame.IsTagged ∧ frame.IsWithin bound) ∧ frame.HasList items)
      items) (hheight : heightIn items ≤ limit) :
    (untagAll limit items).FaultsIn (IsOverflow bound) := by
  rw [untagAll_eq (by omega)]
  refine changeEach_faultsIn (fun frame _ hframe _ ↦ ?_) limit items 0 h (by omega)
  exact ⟨Frame.untag_faultsIn hframe.1 hframe.2,
    fun _ ↦ (Frame.kept_untag hframe.1.toIsShown).1⟩

/-- Untagging keeps the picture. -/
theorem untagAll_picture
    (h : EveryIn (fun frame items ↦ frame.IsTagged ∧ frame.HasList items) items)
    (hlimit : 0 ≤ limit) (hfault : (untagAll limit items).fault? = none) :
    EveryIn (fun frame items ↦ frame.IsLegible ∧ frame.HasList items) (untagAll limit items).value ∧
      heightIn (untagAll limit items).value ≤ heightIn items ∧
      ∀ turning env, picture (Frame.memberView turning env) (untagAll limit items).value =
        picture (Frame.taggedView turning env) items := by
  have hholding (frame : Frame) (hframe : frame.IsTagged) :
      frame.untag.value.holding = frame.holding := (Frame.kept_untag hframe.toIsShown).1
  rw [untagAll_eq hlimit] at hfault ⊢
  refine ⟨?_, ?_, fun turning env ↦ ?_⟩
  · exact (changeEach_leaves (fun frame _ hframe _ hnone ↦ ⟨hholding frame hframe,
      (Frame.isLegible_untag hframe hnone).1, (Frame.kept_untag hframe.toIsShown).2.2⟩)
      limit items 0 h hfault).1
  · refine changeEach_measure (fun frame items hframe _ _ ↦ ?_) limit items 0 h hfault
    exact ⟨hholding frame hframe, fun n m hle ↦ heightStep_mono (hholding frame hframe) hle⟩
  · have hstep (frame : Frame) (hframe : frame.IsTagged) (hnone : frame.untag.fault? = none) :
        frame.untag.value.holding = frame.holding ∧ frame.untag.value.IsLegible ∧
          frame.untag.value.memberView turning env = frame.taggedView turning env :=
      ⟨hholding frame hframe, (Frame.isLegible_untag hframe hnone).imp_right fun h ↦ h turning env⟩
    rw [picture, picture, (changeEach_leaves (fun frame _ hframe _ ↦ hstep frame hframe)
      limit items 0 h hfault).2]

open scoped Classical in
/-- Splicing keeps what is told of the leaves in total, if what gives way counts as one. -/
theorem spliceEach_totals {M : Type} [Monoid M] {view : Frame → M}
    (hidle : ∀ frame below, Frame.IsLegible frame → isRedundant (.group frame below) = true →
      view frame = 1) {depth : ℤ}
    (h : EveryIn (fun frame items ↦ frame.IsLegible ∧ frame.HasList items) items)
    (hfault : (spliceItems limit depth items).fault? = none) :
    totals view (spliceEach (spliceItems limit depth items).value) = totals view items := by
  let counts : M → Bool := fun m ↦ decide (m ≠ 1)
  have hcounts (m : M) (hnot : counts m = false) : m = 1 := by
    simpa [counts] using hnot
  have hgone (frame : Frame) (below : List Item) (hframe : frame.IsLegible)
      (hredundant : isRedundant (.group frame below) = true) : counts (view frame) = false := by
    rw [hidle frame below hframe hredundant]
    exact decide_eq_false (not_not.mpr rfl)
  obtain ⟨hbelow, hleaves⟩ := spliceItems_leaves view counts hgone limit items depth h hfault
  have hsame := (leavesIn_spliceEach view counts hgone _ hbelow).2
  have htotal : Leaf.total = Leaf.total ∘ Leaf.filter counts :=
    funext fun leaf ↦ (Leaf.total_filter hcounts leaf).symm
  rw [totals, totals, htotal, ← List.map_map, ← List.map_map, hsame, hleaves]

/-- Splicing keeps the picture, as what gives way does nothing. -/
theorem spliceAll_picture
    (h : EveryIn (fun frame items ↦ frame.IsLegible ∧ frame.HasList items) items)
    (hheight : heightIn items ≤ limit) :
    ∃ below, spliceAll limit items = .done below ∧
      EveryIn (fun frame items ↦ frame.IsLegible ∧ frame.HasList items) (spliceEach below) ∧
      ∀ turning env, picture (Frame.memberView turning env) (spliceEach below) =
        picture (Frame.memberView turning env) items := by
  have hlimit : 0 ≤ limit := by omega
  have hfault := spliceItems_fault? limit items 0 (EveryIn.mono (fun _ _ hframe ↦ hframe.2) h)
    (by omega)
  have hsplice : spliceAll limit items = spliceItems limit 0 items := by
    rw [spliceAll, checkDepth_eq_none hlimit, Progress.guarded_none]
  have hevery : EveryIn (fun frame items ↦ frame.IsLegible ∧ frame.HasList items)
      (spliceEach (spliceItems limit 0 items).value) :=
    (leavesIn_spliceEach Frame.own (fun _ ↦ false) (fun _ _ _ _ ↦ rfl) _
      (spliceItems_leaves Frame.own (fun _ ↦ false) (fun _ _ _ _ ↦ rfl) limit items 0 h hfault).1).1
  rw [hsplice]
  refine ⟨_, Progress.eq_done hfault, hevery, fun turning env ↦ ?_⟩
  exact spliceEach_totals (fun _ _ hframe hredundant ↦
    Frame.memberView_of_isRedundant hframe.group hredundant turning env) h hfault

/-- Merging transforms keeps the picture, unless a number is too long. -/
theorem mergeTransforms_picture
    (h : EveryIn (fun frame items ↦ frame.IsLegible ∧ frame.HasList items) items)
    (hheight : heightIn items ≤ limit) :
    (∃ merged, mergeTransforms limit items = .ok merged ∧
      EveryIn (fun frame items ↦ frame.IsLegible ∧ frame.HasList items) merged ∧
      heightIn merged ≤ heightIn items ∧
      ∀ turning env, picture (Frame.memberView turning env) merged =
        picture (Frame.memberView turning env) items) ∨
      mergeTransforms limit items = .error .badValue ∧
        10 ^ Numeral.digitLimit < measureIn memberStep 1 items := by
  obtain ⟨tagged, htag, htagged, htagheight, htagsize, htagpicture⟩ := tagAll_picture h hheight
  obtain ⟨pushed, hpush, hpushed, hpushheight, hpushpicture, -⟩ :=
    pushAll_picture htagged (show heightIn tagged ≤ limit by omega)
  have hmerge : mergeTransforms limit items = (untagAll limit pushed.value).toExcept := by
    rw [mergeTransforms, htag]
    show (pushAll limit [] tagged).toExcept >>= _ = _
    rw [hpush]
    rfl
  rw [hmerge]
  cases hfault : (untagAll limit pushed.value).fault? with
  | none =>
    obtain ⟨hmerged, hmergeheight, hmergepicture⟩ := untagAll_picture
      (EveryIn.mono (fun _ _ hframe ↦ ⟨hframe.1.1, hframe.2⟩) hpushed) (by omega) hfault
    refine Or.inl ⟨(untagAll limit pushed.value).value, ?_, hmerged, by omega,
      fun turning env ↦ ?_⟩
    · rw [Progress.toExcept, hfault]
    · rw [hmergepicture, hpushpicture, htagpicture]
  | some fault =>
    obtain ⟨rfl, hlong⟩ := untagAll_faultsIn hpushed (by omega) fault hfault
    refine Or.inr ⟨?_, lt_of_lt_of_le hlong htagsize⟩
    rw [Progress.toExcept, hfault]

/-- Collapsing items keeps the picture, unless transforms are merged and a number is too long. -/
theorem collapseItems_picture (merge : Bool)
    (h : EveryIn (fun frame items ↦ frame.IsLegible ∧ (frame.holding = .absent → items = [])) items)
    (hheight : heightIn items ≤ limit) :
    (∃ result, collapseItems merge limit items = .ok result ∧
      EveryIn (fun frame items ↦ frame.IsLegible ∧ frame.HasList items) result ∧
      ∀ turning env, picture (Frame.memberView turning env) result =
        picture (Frame.memberView turning env) items) ∨
      merge = true ∧ collapseItems merge limit items = .error .badValue ∧
        10 ^ Numeral.digitLimit < measureIn memberStep 1 items := by
  obtain ⟨listed, hlist, hlisted, hlistheight, hlistsize, hlistpicture⟩ := listAll_picture h hheight
  have hcollapse : collapseItems merge limit items =
      (if merge then mergeTransforms limit listed else .ok listed) >>= fun merged ↦
        (spliceAll limit merged).toExcept >>= fun below ↦ pure (spliceEach below) := by
    rw [collapseItems, hlist]
    cases merge <;> rfl
  have hmerge : (∃ merged, (if merge then mergeTransforms limit listed else .ok listed) = .ok merged ∧
      EveryIn (fun frame items ↦ frame.IsLegible ∧ frame.HasList items) merged ∧
      heightIn merged ≤ heightIn listed ∧
      ∀ turning env, picture (Frame.memberView turning env) merged =
        picture (Frame.memberView turning env) listed) ∨
      merge = true ∧ mergeTransforms limit listed = .error .badValue ∧
        10 ^ Numeral.digitLimit < measureIn memberStep 1 listed := by
    cases merge with
    | false => exact Or.inl ⟨listed, rfl, hlisted, le_refl _, fun _ _ ↦ rfl⟩
    | true => exact (mergeTransforms_picture hlisted (by omega)).imp_right fun hlong ↦ ⟨rfl, hlong⟩
  rcases hmerge with ⟨merged, hok, hmerged, hmergeheight, hmergepicture⟩ | ⟨rfl, herror, hlong⟩
  · obtain ⟨below, hsplice, hbelow, hbelowpicture⟩ :=
      spliceAll_picture hmerged (show heightIn merged ≤ limit by omega)
    refine Or.inl ⟨spliceEach below, ?_, hbelow, fun turning env ↦ ?_⟩
    · rw [hcollapse, hok]
      show (spliceAll limit merged).toExcept >>= _ = _
      rw [hsplice]
      rfl
    · rw [hbelowpicture, hmergepicture, hlistpicture]
  · refine Or.inr ⟨rfl, ?_, hlistsize ▸ hlong⟩
    rw [hcollapse, if_pos rfl, herror]
    rfl

end Item

namespace Data

/-- Without repeated keys, the frame of a group holds all members but its items. -/
theorem members_frameOf {members : Members} (h : (Entries.keys members).Nodup) :
    (frameOf members).members = Entries.erase members itemsKey := by
  induction members with
  | nil => rfl
  | cons member rest ih =>
    rw [Entries.keys, List.map_cons, List.nodup_cons] at h
    obtain ⟨hfirst, hrest⟩ := h
    by_cases hitems : member.1 = itemsKey
    · have herase : Entries.erase (member :: rest) itemsKey = rest := by
        have hnone (entry : String × Data) (hentry : entry ∈ rest) : entry.1 ≠ itemsKey := by
          intro hkey
          rw [hitems, ← hkey] at hfirst
          exact hfirst (List.mem_map_of_mem hentry)
        have hkeep : Entries.erase rest itemsKey = rest :=
          List.filter_eq_self.mpr fun entry hentry ↦ by simp [hnone entry hentry]
        rw [Entries.erase, List.filter_cons_of_neg (by simp [hitems])]
        exact hkeep
      rw [herase]
      simp [Frame.members, frameOf, hitems]
    · have hcons := ih hrest
      simpa [Frame.members, frameOf, Entries.erase, hitems] using hcons

theorem family?_ne {key : String} (h : (family? key).isSome = true) : itemsKey ≠ key := by
  rintro rfl
  have hnone : family? itemsKey = none := by decide
  rw [hnone] at h
  cases h

theorem isLegible_frameOf {members : Members} (hgroup : isGroup members = true)
    (h : Motion.IsReadable members) : (frameOf members).IsLegible where
  group := Item.isGroup_frameOf hgroup
  readable := by
    rw [members_frameOf h.nodup]
    refine ⟨Entries.nodup_keys_filter h.nodup _, fun key value hfamily hget ↦ ?_⟩
    rw [Entries.get?_erase_of_ne (family?_ne hfamily)] at hget
    exact h.readable key value hfamily hget
  itemless := by
    rw [members_frameOf h.nodup, Entries.erase, Entries.get?_filter h.nodup]
    cases Entries.get? members itemsKey with
    | none => rfl
    | some value => simp

/-- A group that is written is as readable as its frame. -/
theorem isReadable_written {frame : Frame} (h : frame.IsLegible) (items : List Data) :
    Motion.IsReadable (frame.written items) where
  nodup := by
    have hmembers := h.readable.nodup
    have hitems : itemsKey ∉ Entries.keys frame.members := by
      rw [← Entries.contains_iff_mem_keys, Entries.contains_eq_isSome, h.itemless]
      decide
    rw [Frame.keys_members] at hmembers hitems
    rw [Frame.written, Entries.keys, List.map_append, List.map_append]
    cases frame.holding with
    | absent =>
      rw [Item.itemsMember, List.map_nil, List.append_nil]
      exact hmembers
    | single | listed =>
      rw [Item.itemsMember, List.map_singleton, List.append_assoc, List.singleton_append]
      exact List.perm_middle.nodup_iff.mpr (List.nodup_cons.mpr ⟨hitems, hmembers⟩)
  readable := by
    intro key value hfamily hget
    have hkey := family?_ne hfamily
    rw [← Entries.get?_erase_of_ne hkey, Frame.erase_written, Frame.own,
      Entries.get?_erase_of_ne hkey] at hget
    exact h.readable.readable key value hfamily hget

theorem shown_leaves (turning : Turning) (env : Assignment) (items : List Item) :
    (Item.leavesIn Frame.own items).map
        (fun leaf ↦ (leaf.map fun members ↦ (ofMembers env members).appearance turning).shown) =
      Item.picture (Frame.memberView turning env) items := by
  have hcomp := Item.leavesIn_comp (fun members ↦ (ofMembers env members).appearance turning)
    Frame.own items
  rw [Item.picture, show Frame.memberView turning env =
    (fun members ↦ (ofMembers env members).appearance turning) ∘ Frame.own from rfl, hcomp,
    List.map_map]
  rfl

theorem rendering_obj (turning : Turning) (env : Assignment) (members : Members) :
    (Data.obj members).rendering turning env =
      Item.picture (Frame.memberView turning env) (Item.itemsOf members) := by
  rw [rendering, leaves, ← Item.leavesIn_itemsOf, shown_leaves]

theorem rendering_put (turning : Turning) (env : Assignment) (members : Members)
    {items : List Item}
    (h : Item.EveryIn (fun frame items ↦ frame.IsLegible ∧ frame.HasList items) items) :
    (Data.obj (Entries.put members itemsKey (.list (Item.toList items)))).rendering turning env =
      Item.picture (Frame.memberView turning env) items := by
  rw [rendering, leaves, leavesAmong_eq, heldItems_put,
    Item.leavesIn_toList items (h.mono fun _ _ hframe ↦ ⟨hframe.1.group, hframe.2⟩), shown_leaves]

theorem isReadable_put (members : Members) {items : List Item}
    (h : Item.EveryIn (fun frame items ↦ frame.IsLegible ∧ frame.HasList items) items) :
    (Data.obj (Entries.put members itemsKey (.list (Item.toList items)))).IsReadable := by
  intro group hgroup
  rw [groups, groupsAmong_eq, heldItems_put] at hgroup
  exact Item.groupsIn_toList (fun frame below hframe ↦ ⟨hframe.1.group, hframe.2,
    isReadable_written hframe.1 _⟩) items h group hgroup

/-- Collapsing keeps the picture of a scene: it returns a scene that is as readable and shows the
same, whatever the turning and the assignment, unless transforms are merged and the sizes along some
chain of groups multiply to more than can be written. -/
theorem rendering_collapse (merge : Bool) {limit : ℤ} (hlimit : 0 ≤ limit) {members : Members}
    (hdepth : (Data.obj members).exceeds limit 0 = false)
    (hreadable : (Data.obj members).IsReadable) :
    (∃ result, (Data.obj members).collapse merge limit = .ok result ∧ result.IsReadable ∧
      ∀ turning env, result.rendering turning env = (Data.obj members).rendering turning env) ∨
      merge = true ∧ (Data.obj members).collapse merge limit = .error .badValue ∧
        10 ^ Numeral.digitLimit < (Data.obj members).reach := by
  have hcheck : (Data.obj members).checkTreeDepth limit = .ok () := by
    rw [checkTreeDepth, hdepth]
    rfl
  cases hcontains : Entries.contains members itemsKey with
  | false =>
    refine Or.inl ⟨.obj members, ?_, hreadable, fun _ _ ↦ rfl⟩
    rw [collapse, hcheck, mentions, hcontains]
    rfl
  | true =>
    have hcollapse : (Data.obj members).collapse merge limit =
        (Item.collapseItems merge limit (Item.itemsOf members)).map fun items ↦
          .obj (Entries.put members itemsKey (.list (Item.toList items))) := by
      rw [collapse, hcheck, mentions, hcontains]
      rfl
    have hlegible : Item.EveryIn (fun frame items ↦ frame.IsLegible ∧
        (frame.holding = .absent → items = [])) (Item.itemsOf members) :=
      Item.everyIn_itemsOf members fun other hother hgroup ↦
        ⟨isLegible_frameOf hgroup (hreadable other hother), fun habsent ↦
          Item.itemsOf_of_not_contains (Item.contains_of_absent habsent)⟩
    have hheight := Item.heightIn_itemsOf members 0 hdepth hlimit
    rw [Int.zero_add] at hheight
    rw [hcollapse]
    rcases Item.collapseItems_picture merge hlegible hheight with
      ⟨items, hok, hitems, hpicture⟩ | ⟨hmerge, herror, hlong⟩
    · rw [hok]
      refine Or.inl ⟨_, rfl, isReadable_put members hitems, fun turning env ↦ ?_⟩
      rw [rendering_put turning env members hitems, hpicture, rendering_obj]
    · rw [herror]
      rw [Item.measureIn_itemsOf] at hlong
      exact Or.inr ⟨hmerge, rfl, hlong⟩

/-- A group that turns about a pivot around a group that shifts. -/
def turnedMembers : Members :=
  [("items", .list [.obj [("type", .str "group"), ("rotation", .str (Scalar.binding "r")),
    ("pivotX", .num (.int 4)), ("items", .list [.obj [("type", .str "group"),
      ("translateX", .num (.int 3)), ("translateY", .str (Scalar.binding "y - 1")),
      ("items", .list [.obj [("type", .str "path")], .obj [("type", .str "path")]])]])]])]

theorem rendering_collapse_turned : (0 : ℤ) ≤ 256 ∧ (Data.obj turnedMembers).exceeds 256 0 = false ∧
    (Data.obj turnedMembers).IsReadable ∧ (Data.obj turnedMembers).groups.length = 2 ∧
      ∃ result, (Data.obj turnedMembers).collapse true 256 = .ok result ∧ result.groups.length = 1 ∧
        ∀ turning env, result.rendering turning env =
          (Data.obj turnedMembers).rendering turning env := by
  have hdepth : (Data.obj turnedMembers).exceeds 256 0 = false := by decide +kernel
  have hreadable : (Data.obj turnedMembers).IsReadable := by decide +kernel
  have hgroups : ((Data.obj turnedMembers).collapse true 256).toOption.map
      (fun result ↦ result.groups.length) = some 1 := by decide +kernel
  refine ⟨by decide, hdepth, hreadable, by decide +kernel, ?_⟩
  rcases rendering_collapse true (by decide) hdepth hreadable with
    ⟨result, hok, -, hrendering⟩ | ⟨-, herror, -⟩
  · rw [hok] at hgroups
    exact ⟨result, hok, Option.some_inj.mp hgroups, hrendering⟩
  · rw [herror] at hgroups
    cases hgroups

/-- Opacities of more than two thousand digits around one that is a binding. -/
def overlongMembers : Members :=
  [("items", .list [.obj [("type", .str "group"), ("opacity", .num (.int (10 ^ 2200))),
    ("items", .list [.obj [("type", .str "group"), ("opacity", .num (.int (10 ^ 2200))),
      ("items", .list [.obj [("type", .str "group"), ("opacity", .str (Scalar.binding "x")),
        ("items", .list [.obj [("type", .str "path")], .obj [("type", .str "path")]])]])]])]])]

/-- A group whose opacity is null. -/
def nullMembers : Members :=
  [("items", .list [.obj [("type", .str "group"), ("opacity", .null),
    ("items", .list [.obj [("type", .str "path")]])]])]

/-- A product with too many digits cannot be written into a binding, and a null is dropped although
it is of the special kind. -/
theorem collapse_overlong_and_null :
    ((Data.obj overlongMembers).exceeds 256 0 = false ∧ (Data.obj overlongMembers).IsReadable ∧
      ¬ ∃ result, (Data.obj overlongMembers).collapse true 256 = .ok result) ∧
    Data.null.kind = .special ∧ (Data.obj nullMembers).exceeds 256 0 = false ∧
      (Data.obj nullMembers).IsReadable ∧
      ∃ result, (Data.obj nullMembers).collapse true 256 = .ok result ∧ result.groups = [] := by
  have hnone : ((Data.obj overlongMembers).collapse true 256).toOption.isNone = true := by
    decide +kernel
  have hgroups : ((Data.obj nullMembers).collapse true 256).toOption.map
      (fun result ↦ result.groups.length) = some 0 := by decide +kernel
  refine ⟨⟨by decide +kernel, by decide +kernel, ?_⟩, rfl, by decide +kernel, by decide +kernel, ?_⟩
  · rintro ⟨result, hok⟩
    rw [hok] at hnone
    cases hnone
  · cases hresult : (Data.obj nullMembers).collapse true 256 with
    | error fault =>
      rw [hresult] at hgroups
      cases hgroups
    | ok result =>
      rw [hresult] at hgroups
      exact ⟨result, rfl, List.length_eq_zero_iff.mp (Option.some_inj.mp hgroups)⟩

end Data

end Motion
