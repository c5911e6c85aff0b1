import Motion.Proofs.Scene.Content
import Motion.Proofs.Scene.Contour
import Motion.Proofs.Scene.Measure
import Motion.Proofs.Scene.Untagging
import Mathlib.Data.List.MinMax

/-!
The picture of a scene: its leaves, each with the appearance that the groups above give it. Pushing
transforms downwards meets no fault and keeps the picture. When something is pushed into an item the
item shows it in front of all it showed before, and the group from which it came shows nothing any
more (`Item.pushEach_isPushed`). The contours of the groups are kept as well, as long as no group
that clips is above one that clips too or is more than a shift.
-/

set_option autoImplicit false
set_option relaxedAutoImplicit false

namespace Motion

open Pose

section Totals

variable {M : Type} [Monoid M]

/-- What is told of a leaf, below one more group. -/
def actOn (m : M) (told : M × Data) : M × Data :=
  (m * told.1, told.2)

theorem actOn_one : actOn (1 : M) = id :=
  funext fun told ↦ Prod.ext (one_mul told.1) rfl

theorem actOn_mul (first second : M) : actOn (first * second) = actOn first ∘ actOn second :=
  funext fun told ↦ Prod.ext (mul_assoc first second told.1) rfl

/-- A leaf with the product of what is told of the groups above it. -/
def Leaf.total (leaf : Leaf M) : M × Data :=
  (leaf.above.prod, leaf.value)

theorem Leaf.total_under (m : M) (leaf : Leaf M) : (leaf.under m).total = actOn m leaf.total :=
  Prod.ext List.prod_cons rfl

/-- What is told of a leaf in total does not change where groups that count as one go. -/
theorem Leaf.total_filter {keep : M → Bool} (h : ∀ m, keep m = false → m = 1) (leaf : Leaf M) :
    (leaf.filter keep).total = leaf.total := by
  obtain ⟨above, value⟩ := leaf
  refine Prod.ext ?_ rfl
  show (above.filter keep).prod = above.prod
  induction above with
  | nil => rfl
  | cons m rest ih =>
    rw [List.filter_cons]
    split_ifs with hkeep
    · rw [List.prod_cons, List.prod_cons, ih]
    · rw [List.prod_cons, h m (Bool.eq_false_iff.mpr hkeep), one_mul, ih]

/-- The leaves of some items, each with the product of what a view tells of the groups above it. -/
def Item.totals (view : Frame → M) (items : List Item) : List (M × Data) :=
  (leavesIn view items).map Leaf.total

theorem Item.totals_cons (view : Frame → M) (item : Item) (rest : List Item) :
    totals view (item :: rest) = totals view [item] ++ totals view rest := by
  rw [totals, totals, totals, leavesIn, leavesIn, leavesIn, List.append_nil, List.map_append]

/-- A leaf of the items of a group is one of the group, below it. -/
theorem Item.mem_leavesIn_group {α : Type} {view : Frame → α} {frame : Frame} {items : List Item}
    {leaf : Leaf α} (h : leaf ∈ leavesIn view items) :
    leaf.under (view frame) ∈ leavesIn view [.group frame items] :=
  List.mem_append_left _ (List.mem_map_of_mem h)

theorem Item.totals_group (view : Frame → M) (frame : Frame) (items : List Item) :
    totals view [.group frame items] = (totals view items).map (actOn (view frame)) := by
  rw [totals, totals, leavesIn, leavesIn, List.append_nil, leaves, List.map_map, List.map_map]
  exact List.map_congr_left fun leaf _ ↦ Leaf.total_under _ leaf

/-- What a group keeps and what it gives away, if its tags are pushed at all, are together what it
did before. -/
theorem view_without {view : Tagged → M} (hnil : view [] = 1) {tags below : Tagged}
    (horder : view (inTagOrder tags) = view tags) {may : Bool}
    (hkept : may = true → without tags below = []) :
    view (if may then without tags below else tags) *
      (if may then view (inTagOrder tags) else 1) = view tags := by
  cases may with
  | false => exact mul_one _
  | true =>
    rw [if_pos rfl, if_pos rfl, hkept rfl, hnil, one_mul, horder]

end Totals

/-- What is shown of a leaf: its value with all that the groups above it do. -/
def Leaf.shown (leaf : Leaf Appearance) : Appearance × Data :=
  (leaf.above.prod, leaf.value)

/-- The same below one more group. -/
def Appearance.act (appearance : Appearance) (shown : Appearance × Data) : Appearance × Data :=
  (appearance * shown.1, shown.2)

theorem Appearance.act_one : act 1 = id :=
  actOn_one

theorem Appearance.act_mul (first second : Appearance) :
    act (first * second) = act first ∘ act second :=
  actOn_mul first second

namespace Item

/-- What is shown of some items, where a view tells what each group does. -/
def picture (view : Frame → Appearance) (items : List Item) : List (Appearance × Data) :=
  (leavesIn view items).map Leaf.shown

theorem picture_nil (view : Frame → Appearance) : picture view [] = [] :=
  rfl

theorem picture_cons (view : Frame → Appearance) (item : Item) (rest : List Item) :
    picture view (item :: rest) = picture view [item] ++ picture view rest :=
  totals_cons view item rest

theorem picture_group (view : Frame → Appearance) (frame : Frame) (items : List Item) :
    picture view [.group frame items] = (picture view items).map (view frame).act :=
  totals_group view frame items

end Item

namespace Frame

/-- What the tags of a group do. -/
def taggedView (turning : Turning) (env : Assignment) (frame : Frame) : Appearance :=
  (ofTags env frame.tagged).appearance turning

/-- The greatest size under the tags of a group. -/
def taggedSize (frame : Frame) : ℕ :=
  (Tag.all.map (sizeAt frame.tagged)).foldr max 0

/-- Whether no tag of a group holds more than a bound allows. -/
def IsWithin (bound : ℕ) (frame : Frame) : Prop :=
  ∀ tag, sizeAt frame.tagged tag ≤ bound

/-- What holds of the frame of a group whose properties are under tags. -/
structure IsTagged (frame : Frame) : Prop extends frame.IsShown, frame.IsPlain where
  itemless : Entries.get? frame.members itemsKey = none
  tags : frame.tagged.IsSound

theorem IsTagged.with_tags {frame : Frame} (h : frame.IsTagged) {tags : Tagged}
    (htags : tags.IsSound) : ({ frame with tags := some tags } : Frame).IsTagged :=
  ⟨h.toIsShown.with_tags _, ⟨h.nodup, h.plain⟩, h.itemless, htags⟩

end Frame

theorem Frame.isWithin_taggedSize (frame : Frame) : frame.IsWithin frame.taggedSize :=
  fun tag ↦ List.le_max_of_le (List.mem_map_of_mem tag.mem_all) (le_refl _)

/-- What is given to the items of a group when it may push. -/
theorem appearance_inTagOrder (turning : Turning) (env : Assignment) (tags : Tagged) :
    (ofTags env (inTagOrder tags)).appearance turning = (ofTags env tags).appearance turning := by
  rw [ofTags_inTagOrder]

theorem Tagged.IsSound.inTagOrder {tags : Tagged} (h : tags.IsSound) :
    (Motion.inTagOrder tags).IsSound where
  nodup := nodup_inTagOrder tags
  isOf := fun tag value hget ↦ h.isOf tag value (by rwa [get?_inTagOrder] at hget)
  alone := by
    intro property value hget kind hkind
    rw [get?_inTagOrder] at hget ⊢
    exact h.alone property value hget kind hkind

theorem Tagged.IsSound.isMergeable {tags : Tagged} (h : tags.IsSound)
    (hkind : ∀ entry ∈ tags, entry.1.kind ≠ .special) : tags.IsMergeable where
  nodup := h.nodup
  isOf := h.isOf
  kind := fun tag value hget ↦ hkind (tag, value) (Entries.mem_of_get? hget)

/-- What candidates do to a picture if they are pushed. -/
def pushedView (push : Bool) (candidates : Tagged) (turning : Turning) (env : Assignment) :
    Appearance :=
  if push then (ofTags env candidates).appearance turning else 1

theorem pushedView_false (candidates : Tagged) (turning : Turning) (env : Assignment) :
    pushedView false candidates turning env = 1 :=
  rfl

/-- The contour of candidates if they are pushed. -/
def pushedContour (push : Bool) (candidates : Tagged) (turning : Turning) (env : Assignment) :
    Contour :=
  if push then tagContour turning env candidates else 1

/-- Whether candidates that are pushed, if they are, may be pushed into items, are sound and no
larger than a bound allows. -/
structure MayReceive (bound : ℕ) (push : Bool) (candidates : Tagged) (items : List Item) : Prop where
  may : push = true → mayPush items candidates = true
  sound : push = true → candidates.IsSound
  size : push = true → ∀ tag, sizeAt candidates tag ≤ bound

/-- Candidates that are pushed into a group can be merged with its tags. -/
theorem MayReceive.mergeable {bound : ℕ} {candidates : Tagged} {frame : Frame} {items : List Item}
    (h : MayReceive bound true candidates [.group frame items]) (hframe : frame.IsTagged) :
    frame.tagged.IsMergeable ∧ candidates.IsMergeable ∧ accepts candidates frame.tagged = true := by
  obtain ⟨_, _, hitems, hkind, haccepts⟩ := mayPush_eq_true (h.may rfl)
  cases hitems
  refine ⟨hframe.tags.isMergeable fun entry hentry ↦ ?_, (h.sound rfl).isMergeable hkind, haccepts⟩
  have haccepted := List.all_eq_true.mp haccepts entry hentry
  rw [Bool.and_eq_true] at haccepted
  exact of_decide_eq_true haccepted.1

/-- What a group makes of candidates that may be pushed into it. -/
structure IsReceived (bound : ℕ) (push : Bool) (candidates : Tagged) (frame : Frame)
    (tags given : Tagged) : Prop where
  sound : tags.IsSound
  appearance : ∀ turning env, (ofTags env tags).appearance turning =
    pushedView push candidates turning env * frame.taggedView turning env
  contains : push = true → ∀ tag, Entries.contains candidates tag = true →
    Entries.contains given tag = true
  size : ∀ tag, sizeAt tags tag ≤ bound * frame.taggedSize
  contour : ∀ turning env, ((pushedContour push candidates turning env).clips = [] ∨
    (frame.taggedContour turning env).IsShift) → tagContour turning env tags =
      pushedContour push candidates turning env * frame.taggedContour turning env

theorem received_eq_done {bound : ℕ} (hbound : 1 ≤ bound) {push : Bool} {candidates : Tagged}
    {frame : Frame} {items : List Item} (h : MayReceive bound push candidates [.group frame items])
    (hframe : frame.IsTagged) :
    ∃ tags given, (if push then pushInto frame.tagged candidates
        else .done (frame.tagged, candidates)) = Progress.done (tags, given) ∧
      IsReceived bound push candidates frame tags given := by
  cases push with
  | false =>
    refine ⟨frame.tagged, candidates, rfl, hframe.tags, fun turning env ↦ (one_mul _).symm,
      fun hpush ↦ (by cases hpush), fun tag ↦ ?_, fun turning env _ ↦ (one_mul _).symm⟩
    exact (frame.isWithin_taggedSize tag).trans (Nat.le_mul_of_pos_left _ hbound)
  | true =>
    obtain ⟨htags, hcandidates, haccepts⟩ := h.mergeable hframe
    obtain ⟨tags, given, hpush, hpushed⟩ := pushInto_isPush htags hcandidates haccepts
    exact ⟨tags, given, hpush, hpushed.mergeable.isSound, hpushed.appearance,
      fun _ ↦ hpushed.contains, hpushed.size bound frame.taggedSize (h.size rfl)
        frame.isWithin_taggedSize, fun turning env ↦ hpushed.contour haccepts⟩

namespace Item

/-- The step of a measure by the sizes under tags. -/
def sizeStep (frame : Frame) (n : ℕ) : ℕ :=
  frame.taggedSize * n

/-- What pushing candidates into items, or none, and transforms downwards makes of the items. -/
structure IsPushed (bound : ℕ) (push : Bool) (candidates : Tagged) (items after : List Item)
    (given : Tagged) : Prop where
  every : EveryIn (fun frame items ↦ (frame.IsTagged ∧ frame.IsWithin bound) ∧ frame.HasList items)
    after
  height : heightIn after = heightIn items
  picture : ∀ turning env, picture (Frame.taggedView turning env) after =
    (picture (Frame.taggedView turning env) items).map (pushedView push candidates turning env).act
  contains : push = true → ∀ tag, Entries.contains candidates tag = true →
    Entries.contains given tag = true
  contour : ∀ turning env, (∀ leaf ∈ leavesIn (Frame.taggedContour turning env) items,
      Contour.IsCalm (pushedContour push candidates turning env :: leaf.above)) →
    totals (Frame.taggedContour turning env) after =
      (totals (Frame.taggedContour turning env) items).map
        (actOn (pushedContour push candidates turning env))

/-- The groups above the leaves below a group stay calm when the group takes the candidates in and,
if it may, hands all it has on. -/
theorem isCalm_below {bound : ℕ} {push : Bool} {candidates tags given : Tagged} {frame : Frame}
    (h : IsReceived bound push candidates frame tags given) (may : Bool) {turning : Turning} {env : Assignment}
    {above : List Contour} (hcalm : Contour.IsCalm
      (pushedContour push candidates turning env :: frame.taggedContour turning env :: above)) :
    tagContour turning env tags =
        pushedContour push candidates turning env * frame.taggedContour turning env ∧
      Contour.IsCalm (pushedContour may (inTagOrder tags) turning env :: above) := by
  have htags : tagContour turning env tags =
      pushedContour push candidates turning env * frame.taggedContour turning env :=
    h.contour turning env ((List.pairwise_cons.mp hcalm).1 _ List.mem_cons_self)
  refine ⟨htags, ?_⟩
  cases may with
  | false => exact (Contour.isCalm_of_cons (Contour.isCalm_of_cons hcalm)).one_cons
  | true =>
    rw [pushedContour, if_pos rfl, tagContour_inTagOrder, htags]
    exact hcalm.mul_cons

/-- A group after a push, once what may be pushed further has been. -/
theorem isPushed_group {bound total : ℕ} {push may : Bool} {candidates tags given below : Tagged}
    {frame : Frame} {items after : List Item} (hframe : frame.IsTagged)
    (hafter : frame.HasList after)
    (hreceived : IsReceived bound push candidates frame tags given)
    (hbound : bound * frame.taggedSize ≤ total)
    (hbelow : IsPushed total may (inTagOrder tags) items after below) :
    IsPushed total push candidates [.group frame items]
      [.group { frame with tags := some (if may then without tags below else tags) } after] given := by
  have hkept : may = true → without tags below = [] :=
    fun hmay ↦ without_inTagOrder_eq_nil (hbelow.contains hmay)
  refine ⟨⟨⟨⟨⟨hframe.with_tags ?_, fun tag ↦ ?_⟩, ?_⟩, hbelow.every⟩, trivial⟩, ?_, fun turning env ↦ ?_,
    hreceived.contains, fun turning env hcalm ↦ ?_⟩
  · cases may with
    | false => exact hreceived.sound
    | true => exact hkept rfl ▸ Tagged.isSound_nil
  · refine le_trans ?_ ((hreceived.size tag).trans hbound)
    cases may with
    | false => exact le_refl _
    | true =>
      show sizeAt (without tags below) tag ≤ _
      rw [hkept rfl]
      exact one_le_sizeAt tags tag
  · exact hafter
  · simp only [heightIn, measureIn, measure, heightStep]
    rw [show measureIn heightStep 0 after = measureIn heightStep 0 items from hbelow.height]
  · have hview : (Frame.taggedView turning env
        { frame with tags := some (if may then without tags below else tags) }) *
          pushedView may (inTagOrder tags) turning env =
        pushedView push candidates turning env * frame.taggedView turning env := by
      rw [← hreceived.appearance]
      exact @view_without _ _ (fun some ↦ (ofTags env some).appearance turning)
        (appearance_ofTags_nil turning env) tags below (appearance_inTagOrder turning env tags) may
        hkept
    rw [picture_group, picture_group, hbelow.picture, List.map_map, List.map_map,
      ← Appearance.act_mul, ← Appearance.act_mul, hview]
  · have habove (leaf : Leaf Contour)
        (hleaf : leaf ∈ leavesIn (Frame.taggedContour turning env) items) :=
      isCalm_below hreceived may (hcalm _ (mem_leavesIn_group hleaf))
    have hview : (Frame.taggedContour turning env
        { frame with tags := some (if may then without tags below else tags) }) *
          pushedContour may (inTagOrder tags) turning env = tagContour turning env tags :=
      @view_without _ _ (tagContour turning env) tagContour_nil tags below
        (tagContour_inTagOrder tags) may hkept
    rw [totals_group, totals_group, hbelow.contour turning env fun leaf hleaf ↦ (habove leaf hleaf).2,
      List.map_map, List.map_map, ← actOn_mul, ← actOn_mul, hview]
    refine List.map_congr_left fun told htold ↦ ?_
    obtain ⟨leaf, hleaf, -⟩ := List.mem_map.mp htold
    rw [(habove leaf hleaf).1]

theorem isPushed_nil (bound : ℕ) {push : Bool} {candidates given : Tagged}
    (hcontains : push = true → ∀ tag, Entries.contains candidates tag = true →
      Entries.contains given tag = true) : IsPushed bound push candidates [] [] given :=
  ⟨trivial, rfl, fun _ _ ↦ rfl, hcontains, fun _ _ _ ↦ rfl⟩

/-- Items are pushed into one after the other. Only a single item is ever pushed into. -/
theorem IsPushed.cons {bound : ℕ} {push : Bool} {candidates given last : Tagged}
    {item after : Item} {rest others : List Item}
    (hfirst : IsPushed bound push candidates [item] [after] given)
    (hrest : IsPushed bound push given rest others last)
    (hsame : rest = [] ∨ push = false) :
    IsPushed bound push candidates (item :: rest) (after :: others) last := by
  refine ⟨⟨hfirst.every.1, hrest.every⟩, ?_, fun turning env ↦ ?_, fun hpush tag htag ↦
    hrest.contains hpush tag (hfirst.contains hpush tag htag), fun turning env hcalm ↦ ?_⟩
  · have hitem := hfirst.height
    have hothers := hrest.height
    simp only [heightIn, measureIn] at hitem hothers ⊢
    omega
  · rw [picture_cons _ after, picture_cons _ item, List.map_append, hfirst.picture, hrest.picture]
    rcases hsame with rfl | rfl
    · rw [picture_nil, List.map_nil, List.map_nil]
    · rw [pushedView_false, pushedView_false]
  · have hitem := hfirst.contour turning env fun leaf hleaf ↦ hcalm leaf (by
      rw [leavesIn, leavesIn, List.append_nil] at hleaf
      exact List.mem_append_left _ hleaf)
    have hothers (hleaves : ∀ leaf ∈ leavesIn (Frame.taggedContour turning env) rest,
        Contour.IsCalm (pushedContour push candidates turning env :: leaf.above)) :
        totals (Frame.taggedContour turning env) others =
          (totals (Frame.taggedContour turning env) rest).map
            (actOn (pushedContour push candidates turning env)) := by
      rcases hsame with rfl | rfl
      · exact hrest.contour turning env fun leaf hleaf ↦ absurd hleaf List.not_mem_nil
      · exact hrest.contour turning env hleaves
    rw [totals_cons _ after, totals_cons _ item, List.map_append, hitem,
      hothers fun leaf hleaf ↦ hcalm leaf (List.mem_append_right _ hleaf)]

section Step

variable {limit depth : ℤ} {push : Bool} {candidates tags given : Tagged} {frame : Frame}
  {items : List Item}

theorem pushBelow_absent (hreceived : (if push then pushInto frame.tagged candidates
      else .done (frame.tagged, candidates)) = .done (tags, given)) (h : frame.holding = .absent) :
    pushBelow limit depth push candidates (.group frame items) =
      .done (.group { frame with tags := some tags } items, given) := by
  rw [pushBelow, hreceived, h]
  rfl

theorem pushBelow_listed (hreceived : (if push then pushInto frame.tagged candidates
      else .done (frame.tagged, candidates)) = .done (tags, given)) (h : frame.holding = .listed)
    (hdepth : depth + 1 ≤ limit)
    (hbelow : (pushEach limit (depth + 1) (mayPush items (inTagOrder tags)) (inTagOrder tags)
      items).fault? = none) :
    pushBelow limit depth push candidates (.group frame items) =
      .done (.group { frame with tags := some (if mayPush items (inTagOrder tags) then
          without tags (pushEach limit (depth + 1) (mayPush items (inTagOrder tags))
            (inTagOrder tags) items).value.2 else tags) }
        (pushEach limit (depth + 1) (mayPush items (inTagOrder tags)) (inTagOrder tags)
          items).value.1, given) := by
  rw [pushBelow, hreceived, h]
  dsimp only [Progress.done]
  rw [checkDepth_eq_none hdepth, Progress.guarded_none, hbelow, Option.isNone_none, Bool.and_true,
    Progress.map, hbelow]

end Step

variable {limit : ℤ} {total : ℕ}

mutual

theorem pushBelow_isPushed : ∀ (item : Item) (depth : ℤ) (bound : ℕ) (push : Bool)
    (candidates : Tagged), Every (fun frame items ↦ frame.IsTagged ∧ frame.HasList items) item →
    depth + height item ≤ limit → 1 ≤ bound → bound * measure sizeStep 1 item ≤ total →
    MayReceive bound push candidates [item] →
      (pushBelow limit depth push candidates item).fault? = none ∧
        IsPushed total push candidates [item]
          [(pushBelow limit depth push candidates item).value.1]
          (pushBelow limit depth push candidates item).value.2
  | .leaf value, depth, bound, push, candidates, h, _, _, _, hmay => by
    cases push with
    | false =>
      refine ⟨rfl, ⟨⟨h, trivial⟩, rfl, fun turning env ↦ ?_, fun _ _ hcontains ↦ hcontains,
        fun turning env _ ↦ ?_⟩⟩
      · rw [pushedView_false, Appearance.act_one, List.map_id]
        rfl
      · rw [pushedContour, if_neg Bool.false_ne_true, actOn_one, List.map_id]
        rfl
    | true =>
      obtain ⟨_, _, hitems, -⟩ := mayPush_eq_true (hmay.may rfl)
      cases hitems
  | .group frame items, depth, bound, push, candidates, h, hheight, hbound, htotal, hmay => by
    obtain ⟨⟨hframe, hlist⟩, hitems⟩ := h
    obtain ⟨tags, given, hdone, hreceived⟩ := received_eq_done hbound hmay hframe
    have hsize : 1 ≤ frame.taggedSize :=
      (one_le_sizeAt _ ⟨.opacity, .numeric⟩).trans (frame.isWithin_taggedSize _)
    rw [measure, sizeStep, ← Nat.mul_assoc] at htotal
    rcases hlist with hlisted | ⟨habsent, rfl⟩
    · have hlevel : frame.holding ≠ .absent := by simp [hlisted]
      rw [height, measure, heightStep_of_ne hlevel] at hheight
      have hone := le_measureIn sizeStep 1 items
      have hmaybelow : MayReceive (bound * frame.taggedSize) (mayPush items (inTagOrder tags))
          (inTagOrder tags) items := by
        refine ⟨fun hmay ↦ hmay, fun _ ↦ hreceived.sound.inTagOrder, fun _ tag ↦ ?_⟩
        rw [sizeAt, get?_inTagOrder]
        exact hreceived.size tag
      obtain ⟨hfault, hbelow⟩ := pushEach_isPushed items (depth + 1) (bound * frame.taggedSize) _ _
        hitems (by rw [heightIn]; omega) (Nat.mul_pos hbound hsize) htotal hmaybelow
      rw [pushBelow_listed hdone hlisted (by omega) hfault]
      exact ⟨rfl, isPushed_group hframe (Or.inl hlisted) hreceived
        ((Nat.le_mul_of_pos_right _ hone).trans htotal) hbelow⟩
    · rw [pushBelow_absent hdone habsent]
      rw [measureIn, Nat.mul_one] at htotal
      exact ⟨rfl, isPushed_group hframe (Or.inr ⟨habsent, rfl⟩) hreceived htotal
        (show IsPushed total false (inTagOrder tags) [] [] tags from
          isPushed_nil total fun hpush ↦ (by cases hpush))⟩

theorem pushEach_isPushed : ∀ (items : List Item) (depth : ℤ) (bound : ℕ) (push : Bool)
    (candidates : Tagged), EveryIn (fun frame items ↦ frame.IsTagged ∧ frame.HasList items) items →
    depth + heightIn items ≤ limit → 1 ≤ bound → bound * measureIn sizeStep 1 items ≤ total →
    MayReceive bound push candidates items →
      (pushEach limit depth push candidates items).fault? = none ∧
        IsPushed total push candidates items
          (pushEach limit depth push candidates items).value.1
          (pushEach limit depth push candidates items).value.2
  | [], _, _, _, _, _, _, _, _, _ => ⟨rfl, isPushed_nil total fun _ _ h ↦ h⟩
  | item :: rest, depth, bound, push, candidates, h, hheight, hbound, htotal, hmay => by
    rw [heightIn, measureIn] at hheight
    rw [measureIn] at htotal
    have hrest : rest = [] ∨ push = false := by
      cases push with
      | false => exact Or.inr rfl
      | true =>
        obtain ⟨_, _, hitems, -⟩ := mayPush_eq_true (hmay.may rfl)
        exact Or.inl (List.cons.inj hitems).2
    have hmayfirst : MayReceive bound push candidates [item] := by
      rcases hrest with rfl | rfl
      · exact hmay
      · exact ⟨fun h ↦ (by cases h), fun h ↦ (by cases h), fun h ↦ (by cases h)⟩
    obtain ⟨hfirstfault, hfirst⟩ := pushBelow_isPushed item depth bound push candidates h.1
      (by rw [height]; omega) hbound
      ((Nat.mul_le_mul_left bound (Nat.le_max_left _ _)).trans htotal) hmayfirst
    rw [pushEach, hfirstfault]
    have hothers : (pushEach limit depth push
          (pushBelow limit depth push candidates item).value.2 rest).fault? = none ∧
        IsPushed total push (pushBelow limit depth push candidates item).value.2 rest
          (pushEach limit depth push (pushBelow limit depth push candidates item).value.2
            rest).value.1
          (pushEach limit depth push (pushBelow limit depth push candidates item).value.2
            rest).value.2 := by
      rcases hrest with rfl | rfl
      · exact ⟨rfl, isPushed_nil total fun _ _ h ↦ h⟩
      · exact pushEach_isPushed rest depth bound false _ h.2 (by rw [heightIn]; omega) hbound
          ((Nat.mul_le_mul_left bound (Nat.le_max_right _ _)).trans htotal)
          ⟨fun h ↦ (by cases h), fun h ↦ (by cases h), fun h ↦ (by cases h)⟩
    exact ⟨hothers.1, hfirst.cons hothers.2 hrest⟩

end

end Item

end Motion
