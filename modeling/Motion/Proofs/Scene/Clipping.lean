import Motion.Proofs.Scene.Faults
import Motion.Proofs.Scene.Rendering

/-!
Collapsing and clip paths. Tagging, untagging and splicing keep the contour of every leaf. A push
does not: nothing keeps the clip path of a group from being pushed into a child that turns, scales or
clips, so that it clips elsewhere afterwards (`Data.collapse_stretched_clip`). Where no group that
clips is above one that clips too or is more than a shift, every clip stays where it is
(`Data.clipping_collapse`).
-/

set_option autoImplicit false
set_option relaxedAutoImplicit false

namespace Motion

open Pose

/-- Whether a group has a clip path. -/
def clips (members : Members) : Bool :=
  (Entries.get? members (Property.name .clipPath)).any fun value ↦ !value.isNull

/-- The contour of a group by its members. -/
def memberContour (turning : Turning) (env : Assignment) (members : Members) : Contour :=
  (ofMembers env members).contour turning (clips members)

/-- Whether there is no clip path, rotation or scale among the members of a group. -/
def shifts (members : Members) : Bool :=
  [Property.clipPath, .rotation, .scaleX, .scaleY].all fun property ↦
    !Entries.contains members (Property.name property)

namespace Data

/-- What clips the leaves of a scene tree: of each leaf the clip paths above it from the outermost
inwards, each with the affine map that the groups down to it make together. -/
def clipping (turning : Turning) (env : Assignment) (tree : Data) :
    List (List (ℚ × (Plane →ᵃ[ℝ] Plane)) × Data) :=
  tree.leaves.map fun leaf ↦
    ((leaf.above.map (memberContour turning env)).prod.clips, leaf.value)

/-- Whether nowhere in a scene tree a group that clips is above one that clips too or is more than a
shift. -/
def IsCalm (turning : Turning) (env : Assignment) (tree : Data) : Prop :=
  ∀ leaf ∈ tree.leaves, Contour.IsCalm (leaf.above.map (memberContour turning env))

end Data

theorem memberContour_congr {turning : Turning} {env : Assignment} {members others : Members}
    (h : ∀ property : Property,
      Entries.get? members property.name = Entries.get? others property.name) :
    memberContour turning env members = memberContour turning env others := by
  have hpose : ofMembers env members = ofMembers env others :=
    funext fun property ↦ reading_congr (h property)
  rw [memberContour, memberContour, clips, clips, h, hpose]

theorem isShift_memberContour {turning : Turning} {env : Assignment} {members : Members}
    (h : shifts members = true) : (memberContour turning env members).IsShift := by
  have hnone (property : Property)
      (hproperty : property ∈ [Property.clipPath, .rotation, .scaleX, .scaleY]) :
      Entries.get? members property.name = none := by
    have hcontains := List.all_eq_true.mp h property hproperty
    rw [Bool.not_eq_true'] at hcontains
    exact (Entries.contains_eq_false_iff _ _).mp hcontains
  have hstill : (ofMembers env members).IsStill := by
    intro property hfamily
    rw [ofMembers, reading_of_none (hnone property ?_), neutral_name]
    rcases hfamily with hfamily | hfamily <;> cases property <;> simp_all [Property.family]
  constructor
  · rw [memberContour, Pose.clips_contour, clips, hnone .clipPath List.mem_cons_self,
      Option.any_none]
  · exact ⟨_, hstill.placement⟩

/-- Under tags there is a clip path if there is one among the members. -/
theorem clips_tagMembers (members : Members) :
    (tagMembers members).clips = Entries.contains members (Property.name .clipPath) := by
  rw [Bool.eq_iff_iff, ← not_iff_not, Bool.not_eq_true, Bool.not_eq_true,
    Tagged.clips_eq_false_iff, Entries.contains_eq_false_iff]
  constructor
  · intro h
    by_contra hsome
    obtain ⟨value, hget⟩ := Option.ne_none_iff_exists'.mp hsome
    have hkind := h value.kind
    rw [get?_tagMembers, taggedValue?, hget, Option.bind_some, if_pos rfl] at hkind
    cases hkind
  · intro h kind
    rw [get?_tagMembers, taggedValue?, h, Option.bind_none]

namespace Frame

/-- The contour of a group by its members. -/
def contour (turning : Turning) (env : Assignment) (frame : Frame) : Contour :=
  memberContour turning env frame.own

theorem contour_eq (turning : Turning) (env : Assignment) (frame : Frame) :
    frame.contour turning env = memberContour turning env frame.members :=
  memberContour_congr fun property ↦
    Entries.get?_erase_of_ne (property.name_ne (by decide)).symm frame.members

/-- Tagging keeps the contour of a group. -/
theorem taggedContour_tag {frame : Frame} (h : frame.IsLegible) (items : List Item)
    (turning : Turning) (env : Assignment) :
    (frame.tag items).taggedContour turning env = frame.contour turning env := by
  have hpublic := h.readable.filter isPublic
  have hget : Entries.get? (prune (frame.members.filter isPublic)) (Property.name .clipPath) =
      Entries.get? (frame.members.filter isPublic) (Property.name .clipPath) :=
    get?_prune_of_clipPath hpublic.nodup (family?_name .clipPath)
  have hclip : ofMembers env (prune (frame.members.filter isPublic)) .clipPath =
      ofMembers env frame.members .clipPath := by
    rw [ofMembers, reading_congr hget, reading_filter_isPublic h.readable]
    rfl
  have hclips : (tagMembers (prune (frame.members.filter isPublic))).clips =
      clips frame.members := by
    rw [clips_tagMembers, Entries.contains_eq_isSome, hget, Entries.get?_filter h.readable.nodup,
      Option.isSome_filter]
    exact congrArg (Option.any · _) (funext fun value ↦ by simp [isPublic, isPrivate_name])
  rw [contour_eq, taggedContour, tagged_tag, tagContour, memberContour,
    ofTags_tagMembers (isTaggable_prune h.readable), hclips]
  exact Pose.contour_congr (appearance_prune h.readable turning env) hclip _

/-- Untagging keeps the contour of a group. -/
theorem contour_untag {frame : Frame} (h : frame.IsTagged) (hfault : frame.untag.fault? = none)
    (turning : Turning) (env : Assignment) :
    frame.untag.value.contour turning env = frame.taggedContour turning env := by
  rcases untag_cases h.toIsPlain h.tags with ⟨-, -, -, hview, huntagged⟩ | ⟨hbad, -⟩
  · have hclip := huntagged .clipPath
    have hclips : clips frame.untag.value.members = frame.tagged.clips := by
      rw [Bool.eq_iff_iff, ← not_iff_not, Bool.not_eq_true, Bool.not_eq_true,
        Tagged.clips_eq_false_iff, ← hclip.absent, clips]
      constructor
      · intro hnone
        by_contra hsome
        obtain ⟨value, hget⟩ := Option.ne_none_iff_exists'.mp hsome
        rw [hget, Option.any_some, (hclip.present value hget).1] at hnone
        cases hnone
      · intro hnone
        rw [hnone, Option.any_none]
    rw [contour_eq, taggedContour, tagContour, memberContour, hview, hclips]
  · rw [hbad] at hfault
    cases hfault

/-- A group that can give way to its items neither clips nor moves them. -/
theorem contour_of_isRedundant {frame : Frame} {items : List Item} (h : frame.IsGroup)
    (hredundant : Item.isRedundant (.group frame items) = true) (turning : Turning)
    (env : Assignment) : frame.contour turning env = 1 := by
  have hview := memberView_of_isRedundant h hredundant turning env
  obtain ⟨value, hmembers⟩ := Item.members_of_isRedundant h hredundant
  rw [memberView_eq] at hview
  have hclips : clips frame.members = false := by
    have hne : typeKey ≠ Property.name .clipPath := by decide
    rw [clips, hmembers, Entries.get?_cons, if_neg hne]
    rfl
  rw [contour_eq, memberContour, Pose.contour, hclips]
  exact Contour.ext rfl (congrArg Prod.fst hview)

end Frame

namespace Item

variable {limit : ℤ} {items merged result : List Item} (turning : Turning) (env : Assignment)

theorem listAll_contours
    (h : EveryIn (fun frame items ↦ frame.IsLegible ∧ (frame.holding = .absent → items = [])) items)
    (hfault : (listAll limit items).fault? = none) :
    leavesIn (Frame.contour turning env) (listAll limit items).value =
      leavesIn (Frame.contour turning env) items := by
  obtain ⟨hcheck, hbelow⟩ := Progress.fault?_guarded_eq_none.mp hfault
  rw [listAll, hcheck]
  exact (listEach_leaves (fun _ _ ↦ trivial)
    (show ∀ frame : Frame, Frame.contour turning env { frame with holding := .listed } =
      frame.contour turning env from fun _ ↦ rfl) limit items 0
    (h.mono fun _ _ hframe ↦ ⟨trivial, hframe.2⟩) hbelow).2

theorem tagAll_contours (h : EveryIn (fun frame items ↦ frame.IsLegible ∧ frame.HasList items) items)
    (hfault : (tagAll limit items).fault? = none) :
    leavesIn (Frame.taggedContour turning env) (tagAll limit items).value =
      leavesIn (Frame.contour turning env) items := by
  obtain ⟨hcheck, hbelow⟩ := Progress.fault?_guarded_eq_none.mp hfault
  rw [tagAll, changeAll, hcheck]
  exact (changeEach_leaves (fun frame items hframe hlist _ ↦ ⟨Frame.holding_tag hlist,
    (Frame.isTagged_tag hframe hlist).1, Frame.taggedContour_tag hframe items turning env⟩)
    limit items 0 h hbelow).2

theorem untagAll_contours
    (h : EveryIn (fun frame items ↦ frame.IsTagged ∧ frame.HasList items) items)
    (hfault : (untagAll limit items).fault? = none) :
    leavesIn (Frame.contour turning env) (untagAll limit items).value =
      leavesIn (Frame.taggedContour turning env) items := by
  obtain ⟨hcheck, hbelow⟩ := Progress.fault?_guarded_eq_none.mp hfault
  rw [untagAll, changeAll, hcheck]
  exact (changeEach_leaves (fun frame _ hframe _ hnone ↦
    ⟨(Frame.kept_untag hframe.toIsShown).1, (Frame.isLegible_untag hframe hnone).1,
      Frame.contour_untag hframe hnone turning env⟩) limit items 0 h hbelow).2

theorem spliceAll_contours
    (h : EveryIn (fun frame items ↦ frame.IsLegible ∧ frame.HasList items) items)
    (hfault : (spliceAll limit items).fault? = none) :
    totals (Frame.contour turning env) (spliceEach (spliceAll limit items).value) =
      totals (Frame.contour turning env) items := by
  obtain ⟨hcheck, hbelow⟩ := Progress.fault?_guarded_eq_none.mp hfault
  rw [spliceAll, hcheck]
  exact spliceEach_totals (fun _ _ hframe hredundant ↦
    Frame.contour_of_isRedundant hframe.group hredundant turning env) h hbelow

/-- Merging transforms keeps all clips where they are, if no group that clips is above one that clips
too or is more than a shift. -/
theorem mergeTransforms_contours
    (h : EveryIn (fun frame items ↦ frame.IsLegible ∧ frame.HasList items) items)
    (hheight : heightIn items ≤ limit) (hresult : mergeTransforms limit items = .ok merged)
    (hcalm : ∀ leaf ∈ leavesIn (Frame.contour turning env) items, Contour.IsCalm leaf.above) :
    totals (Frame.contour turning env) merged = totals (Frame.contour turning env) items := by
  obtain ⟨htag, hpush, huntag, rfl⟩ := mergeTransforms_eq_ok hresult
  have htagcontours := tagAll_contours turning env h htag
  obtain ⟨tagged, htagdone, htagged, htagheight, -, -⟩ := tagAll_picture h hheight
  rw [htagdone, Progress.value_done] at htagcontours hpush huntag ⊢
  obtain ⟨pushed, hpushdone, hpushed, -, -, hpushcontours⟩ :=
    pushAll_picture htagged (show heightIn tagged ≤ limit by omega)
  rw [hpushdone, Progress.value_done] at huntag ⊢
  have huntagcontours := untagAll_contours turning env
    (hpushed.mono fun _ _ hframe ↦ ⟨hframe.1.1, hframe.2⟩) huntag
  calc
    totals (Frame.contour turning env) (untagAll limit pushed.value).value
      = totals (Frame.taggedContour turning env) pushed.value := by
        rw [totals, totals, huntagcontours]
    _ = totals (Frame.taggedContour turning env) tagged :=
        hpushcontours turning env (htagcontours ▸ hcalm)
    _ = totals (Frame.contour turning env) items := by rw [totals, totals, htagcontours]

/-- Collapsing items keeps all clips where they are, if transforms are not merged or no group that
clips is above one that clips too or is more than a shift. -/
theorem collapseItems_contours (merge : Bool)
    (h : EveryIn (fun frame items ↦ frame.IsLegible ∧ (frame.holding = .absent → items = [])) items)
    (hheight : heightIn items ≤ limit) (hresult : collapseItems merge limit items = .ok result)
    (hcalm : merge = true →
      ∀ leaf ∈ leavesIn (Frame.contour turning env) items, Contour.IsCalm leaf.above) :
    totals (Frame.contour turning env) result = totals (Frame.contour turning env) items := by
  obtain ⟨hlist, merged, hmerged, hsplice, rfl⟩ := collapseItems_eq_ok hresult
  have hlistcontours := listAll_contours turning env h hlist
  obtain ⟨listed, hlistdone, hlisted, hlistheight, -, -⟩ := listAll_picture h hheight
  rw [hlistdone, Progress.value_done] at hlistcontours hmerged
  have hlistsame : totals (Frame.contour turning env) listed =
      totals (Frame.contour turning env) items := by rw [totals, totals, hlistcontours]
  cases merge with
  | false =>
    cases hmerged
    rw [spliceAll_contours turning env hlisted hsplice, hlistsame]
  | true =>
    have hsame := mergeTransforms_contours turning env hlisted (by omega) hmerged
      (hlistcontours ▸ hcalm rfl)
    rcases mergeTransforms_picture hlisted (show heightIn listed ≤ limit by omega) with
      ⟨other, hother, hlegible, -, -⟩ | ⟨herror, -⟩
    · rw [if_pos rfl, hother] at hmerged
      cases hmerged
      rw [spliceAll_contours turning env hlegible hsplice, hsame, hlistsame]
    · rw [if_pos rfl, herror] at hmerged
      cases hmerged

end Item

namespace Data

variable {turning : Turning} {env : Assignment} {members : Members}

theorem leaves_contour (items : List Item) :
    Item.leavesIn (Frame.contour turning env) items =
      (Item.leavesIn Frame.own items).map (Leaf.map (memberContour turning env)) :=
  Item.leavesIn_comp (memberContour turning env) Frame.own items

/-- The clips of a tree by the contours of the items that it holds. -/
theorem clipping_of_leaves {tree : Data} {items : List Item}
    (h : tree.leaves = Item.leavesIn Frame.own items) : tree.clipping turning env =
      (Item.totals (Frame.contour turning env) items).map fun told ↦ (told.1.clips, told.2) := by
  rw [clipping, h, Item.totals, leaves_contour, List.map_map, List.map_map]
  rfl

theorem isCalm_obj : (Data.obj members).IsCalm turning env ↔
    ∀ leaf ∈ Item.leavesIn (Frame.contour turning env) (Item.itemsOf members),
      Contour.IsCalm leaf.above := by
  rw [IsCalm, leaves, ← Item.leavesIn_itemsOf, leaves_contour, List.forall_mem_map]
  rfl

/-- It is enough that below a group with a clip path there is no clip path, rotation or scale. -/
theorem isCalm_of_members {tree : Data} (h : ∀ leaf ∈ tree.leaves,
    leaf.above.Pairwise fun outer inner ↦ clips outer = false ∨ shifts inner = true)
    (turning : Turning) (env : Assignment) : tree.IsCalm turning env := by
  intro leaf hleaf
  refine List.pairwise_map.mpr ((h leaf hleaf).imp fun {outer inner} hor ↦ ?_)
  exact hor.imp Pose.clips_contour.mpr isShift_memberContour

/-- Collapsing keeps all clips where they are, if transforms are not merged or no group that clips is
above one that clips too or is more than a shift: of every leaf the clip paths above it come in the
same order, stand for the same and are placed by the same maps. -/
theorem clipping_collapse (merge : Bool) {limit : ℤ} (hlimit : 0 ≤ limit)
    (hdepth : (Data.obj members).exceeds limit 0 = false)
    (hreadable : (Data.obj members).IsReadable) :
    (∃ result, (Data.obj members).collapse merge limit = .ok result ∧
      ∀ turning env, (merge = true → (Data.obj members).IsCalm turning env) →
        result.clipping turning env = (Data.obj members).clipping turning env) ∨
      merge = true ∧ (Data.obj members).collapse merge limit = .error .badValue ∧
        10 ^ Numeral.digitLimit < (Data.obj members).reach := by
  have hlegible : Item.EveryIn (fun frame items ↦ frame.IsLegible ∧
      (frame.holding = .absent → items = [])) (Item.itemsOf members) :=
    Item.everyIn_itemsOf members fun other hother hgroup ↦
      ⟨isLegible_frameOf hgroup (hreadable other hother), fun habsent ↦
        Item.itemsOf_of_not_contains (Item.contains_of_absent habsent)⟩
  have hheight := Item.heightIn_itemsOf members 0 hdepth hlimit
  rw [Int.zero_add] at hheight
  rw [collapse_within merge hdepth]
  split_ifs with hitems
  · rcases Item.collapseItems_picture merge hlegible hheight with
      ⟨items, hok, hevery, -⟩ | ⟨hmerge, herror, hlong⟩
    · rw [hok]
      refine Or.inl ⟨_, rfl, fun turning env hcalm ↦ ?_⟩
      have hleaves : (Data.obj (Entries.put members itemsKey (.list (Item.toList items)))).leaves =
          Item.leavesIn Frame.own items := by
        rw [leaves, leavesAmong_eq, heldItems_put,
          Item.leavesIn_toList items (hevery.mono fun _ _ hframe ↦ ⟨hframe.1.group, hframe.2⟩)]
      have hread : (Data.obj members).leaves = Item.leavesIn Frame.own (Item.itemsOf members) :=
        (Item.leavesIn_itemsOf members).symm
      rw [clipping_of_leaves hleaves, clipping_of_leaves hread,
        Item.collapseItems_contours turning env merge hlegible hheight hok fun hmerge ↦
          isCalm_obj.mp (hcalm hmerge)]
    · rw [herror]
      rw [Item.measureIn_itemsOf] at hlong
      exact Or.inr ⟨hmerge, rfl, hlong⟩
  · exact Or.inl ⟨.obj members, rfl, fun _ _ _ ↦ rfl⟩

/-- A group that shifts around one that turns and clips, around one that is transparent. -/
def clippedMembers : Members :=
  [("items", .list [.obj [("type", .str "group"), ("translateX", .num (.int 5)),
    ("items", .list [.obj [("type", .str "group"), ("rotation", .str (Scalar.binding "r")),
      ("pivotX", .num (.int 4)), ("clipPath", .str (Scalar.binding "c")),
      ("items", .list [.obj [("type", .str "group"), ("opacity", .num (.int 3)),
        ("items", .list [.obj [("type", .str "path")], .obj [("type", .str "path")]])]])]])]])]

theorem clipping_collapse_clipped : (0 : ℤ) ≤ 256 ∧
    (Data.obj clippedMembers).exceeds 256 0 = false ∧ (Data.obj clippedMembers).IsReadable ∧
      (∀ turning env, (Data.obj clippedMembers).IsCalm turning env) ∧
        (Data.obj clippedMembers).groups.length = 3 ∧
          ∃ result, (Data.obj clippedMembers).collapse true 256 = .ok result ∧
            result.groups.length = 1 ∧ ∀ turning env,
              result.clipping turning env = (Data.obj clippedMembers).clipping turning env := by
  have hdepth : (Data.obj clippedMembers).exceeds 256 0 = false := by decide +kernel
  have hreadable : (Data.obj clippedMembers).IsReadable := by decide +kernel
  have hcalm := isCalm_of_members (show ∀ leaf ∈ (Data.obj clippedMembers).leaves,
    leaf.above.Pairwise fun outer inner ↦ clips outer = false ∨ shifts inner = true by decide +kernel)
  have hgroups : ((Data.obj clippedMembers).collapse true 256).toOption.map
      (fun result ↦ result.groups.length) = some 1 := by decide +kernel
  refine ⟨by decide, hdepth, hreadable, hcalm, by decide +kernel, ?_⟩
  rcases clipping_collapse true (by decide) hdepth hreadable with
    ⟨result, hok, hclipping⟩ | ⟨-, herror, -⟩
  · rw [hok] at hgroups
    exact ⟨result, hok, Option.some_inj.mp hgroups, fun turning env ↦
      hclipping turning env fun _ ↦ hcalm turning env⟩
  · rw [herror] at hgroups
    cases hgroups

/-- Two scales, where there is no rotation. -/
def stretching : Turning where
  map _ x y := (LinearMap.lsmul ℝ ℝ x).prodMap (LinearMap.lsmul ℝ ℝ y)
  map_neutral := by
    ext <;> simp

/-- Every name, call and special value stands for zero. -/
def zeros : Assignment :=
  ⟨fun _ ↦ 0, fun _ _ ↦ 0, fun _ ↦ 0⟩

/-- Whether members have a clip path and scale by a factor, but neither shift nor have a pivot. -/
def ClipsScaled (factor : ℚ) (members : Members) : Prop :=
  clips members = true ∧ ofMembers zeros members .scaleX = factor ∧
    ∀ property ∈ [Property.translateX, .translateY, .pivotX, .pivotY],
      ofMembers zeros members property = 0

instance (factor : ℚ) (members : Members) : Decidable (ClipsScaled factor members) :=
  inferInstanceAs (Decidable (_ ∧ _ ∧ _))

/-- Where the outermost group of a leaf clips, its scale takes the clip along. -/
theorem clip_of_clipsScaled {factor : ℚ} {outer : Members} (h : ClipsScaled factor outer)
    (rest : List Members) :
    (((outer :: rest).map (memberContour stretching zeros)).prod.clips.head?.map fun clip ↦
      clip.2 (1, 0)) = some ((factor : ℝ), 0) := by
  obtain ⟨hclips, hscale, hzero⟩ := h
  have htranslation : (ofMembers zeros outer).translation = 0 := by
    rw [translation, hzero .translateX (by decide), hzero .translateY (by decide), Rat.cast_zero]
    rfl
  have hpivot : (ofMembers zeros outer).pivot = 0 := by
    rw [pivot, hzero .pivotX (by decide), hzero .pivotY (by decide), Rat.cast_zero]
    rfl
  have hplacement : (ofMembers zeros outer).placement stretching (1, 0) = ((factor : ℝ), 0) := by
    rw [placement, htranslation, hpivot, neg_zero, shift_zero, one_mul, one_mul, mul_one]
    simp [turn, stretching, hscale]
  rw [List.map_cons, List.prod_cons, Contour.clips_mul, memberContour, Pose.contour, hclips]
  exact congrArg some hplacement

/-- The clips of a tree where the outermost group of every leaf clips and scales. -/
theorem clipping_of_clipsScaled {factor : ℚ} {tree : Data}
    (h : ∀ leaf ∈ tree.leaves, leaf.above.head?.any (ClipsScaled factor ·) = true) :
    ∀ clipped ∈ tree.clipping stretching zeros,
      (clipped.1.head?.map fun clip ↦ clip.2 (1, 0)) = some ((factor : ℝ), 0) := by
  intro clipped hclipped
  obtain ⟨⟨above, value⟩, hleaf, rfl⟩ := List.mem_map.mp hclipped
  have houter := h _ hleaf
  cases above with
  | nil => cases houter
  | cons outer rest => exact clip_of_clipsScaled (of_decide_eq_true houter) rest

/-- A group with a clip path around one that scales. -/
def stretchedMembers : Members :=
  [("items", .list [.obj [("type", .str "group"), ("clipPath", .str (Scalar.binding "c")),
    ("items", .list [.obj [("type", .str "group"), ("scaleX", .num (.int 2)),
      ("items", .list [.obj [("type", .str "path")], .obj [("type", .str "path")]])]])]])]

/-- The clip path gets into the group that scales, which scales the clip too from then on. -/
theorem collapse_stretched_clip : (Data.obj stretchedMembers).exceeds 256 0 = false ∧
    (Data.obj stretchedMembers).IsReadable ∧
      ∃ result, (Data.obj stretchedMembers).collapse true 256 = .ok result ∧
        ¬ ∀ turning env,
          result.clipping turning env = (Data.obj stretchedMembers).clipping turning env := by
  have hbefore : (Data.obj stretchedMembers).leaves ≠ [] ∧
      ∀ leaf ∈ (Data.obj stretchedMembers).leaves,
        leaf.above.head?.any (ClipsScaled 1 ·) = true := by decide +kernel
  have hafter : ((Data.obj stretchedMembers).collapse true 256).toOption.any (fun result ↦
      decide (∀ leaf ∈ result.leaves, leaf.above.head?.any (ClipsScaled 2 ·) = true)) = true := by
    decide +kernel
  refine ⟨by decide +kernel, by decide +kernel, ?_⟩
  cases hresult : (Data.obj stretchedMembers).collapse true 256 with
  | error fault =>
    rw [hresult] at hafter
    cases hafter
  | ok result =>
    rw [hresult] at hafter
    refine ⟨result, rfl, fun hsame ↦ ?_⟩
    obtain ⟨leaf, hleaf⟩ := List.exists_mem_of_ne_nil _ hbefore.1
    obtain ⟨clipped, hclipped⟩ : ∃ clipped,
        clipped ∈ (Data.obj stretchedMembers).clipping stretching zeros :=
      ⟨_, List.mem_map_of_mem hleaf⟩
    have hone := clipping_of_clipsScaled hbefore.2 clipped hclipped
    rw [← hsame] at hclipped
    have htwo := clipping_of_clipsScaled (of_decide_eq_true hafter) clipped hclipped
    rw [hone] at htwo
    simp at htwo

end Data

end Motion
