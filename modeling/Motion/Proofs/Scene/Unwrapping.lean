import Motion.Proofs.Scene.Normal
import Motion.Proofs.Scene.Restored
import Motion.Proofs.Scene.Retention

/-!
Collapsing retains the items of a tree (`Data.collapse_retains`). Making lists and merging transforms
change the frames of groups only, each to one with the same lasting members, so that every item is
still there (`Item.retains_of_becameIn`); splicing unwraps the groups that hold nothing but their type
and at most one item (`Item.spliceAll_retains`).
-/

set_option autoImplicit false
set_option relaxedAutoImplicit false

namespace Motion

namespace Frame

variable {frame after : Frame} {items others : List Item} {merge : Bool}

/-- Whether a group holds its items in a list, or a single one that is no list in their place, or none
at all. -/
def Holds (frame : Frame) (items : List Item) : Prop :=
  frame.HasList items ∨
    frame.holding = .single ∧ ∃ item, items = [item] ∧ ∀ values, item.toData ≠ .list values

/-- Whether a frame still has its lasting members and has items if it had. -/
structure Lasts (merge : Bool) (frame after : Frame) : Prop where
  kept : after.kept merge = frame.kept merge
  absent : after.holding = .absent ↔ frame.holding = .absent

theorem Lasts.refl (merge : Bool) (frame : Frame) : frame.Lasts merge frame :=
  ⟨rfl, Iff.rfl⟩

theorem holds_frameOf (members : Members) : (frameOf members).Holds (Item.itemsOf members) := by
  have hitems := Item.itemsOf_eq members
  rw [Data.heldItems] at hitems
  rw [Holds, HasList, frameOf]
  cases hget : Entries.get? members itemsKey with
  | none =>
    rw [hget] at hitems
    exact Or.inl (Or.inr ⟨rfl, hitems⟩)
  | some found =>
    rw [hget] at hitems
    cases found with
    | list => exact Or.inl (Or.inl rfl)
    | _ =>
      refine Or.inr ⟨rfl, _, hitems, fun values hvalues ↦ ?_⟩
      rw [Item.toData_ofData] at hvalues
      cases hvalues

/-- The items of a written group are those that it holds. -/
theorem contents_written (h : frame.IsGroup) (hholds : frame.Holds items) :
    (Data.obj (frame.written (Item.toList items))).contents true = Item.toList items := by
  rw [Data.contents_true]
  rcases hholds with hlist | ⟨hsingle, item, rfl, hitem⟩
  · exact heldItems_written h hlist
  · have hbefore := (Entries.contains_eq_false_iff _ _).mp h.before
    have hget : Entries.get? (frame.written (Item.toList [item])) itemsKey = some item.toData := by
      simp [written, Item.itemsMember, hsingle, Entries.get?_append, hbefore, Entries.get?_cons,
        Item.toList]
    rw [Data.heldItems, hget]
    cases hvalue : item.toData with
    | list values => exact absurd hvalue (hitem values)
    | _ => simp [Item.toList, hvalue]

theorem opens_written (h : frame.IsGroup) (values : List Data) :
    (Entries.get? (frame.written values) itemsKey).isSome = true ↔ frame.holding ≠ .absent := by
  have hbefore := (Entries.contains_eq_false_iff _ _).mp h.before
  cases hholding : frame.holding with
  | absent =>
    have hafter := (Entries.contains_eq_false_iff _ _).mp (h.absent hholding)
    simp [written, Item.itemsMember, hholding, Entries.get?_append, hbefore, hafter]
  | _ =>
    simp [written, Item.itemsMember, hholding, Entries.get?_append, hbefore, Entries.get?_cons]

theorem traits_written (h : frame.IsGroup) (values : List Data) :
    (Data.obj (frame.written values)).traits merge = (frame.kept merge).map Data.trait := by
  rw [Data.traits, isGroup_written h, Bool.and_true, erase_written]
  rfl

theorem isAlike_written (h : frame.IsGroup) (hafter : after.IsGroup) (hlasts : frame.Lasts merge after)
    (values others : List Data) :
    Data.IsAlike merge (.obj (frame.written values)) (.obj (after.written others)) where
  type := (isGroup_iff.mp (isGroup_written hafter others)).trans
    (isGroup_iff.mp (isGroup_written h values)).symm
  traits := by rw [traits_written h, traits_written hafter, hlasts.kept]
  opens := by
    have hopens := (opens_written hafter others).trans
      ((not_congr hlasts.absent).trans (opens_written h values).symm)
    exact Bool.eq_iff_iff.mpr hopens

theorem isGroupObject_written (h : frame.IsGroup) (values : List Data) :
    (Data.obj (frame.written values)).isGroupObject = true :=
  isGroup_written h values

theorem itemsBelow_written (h : frame.IsGroup) (hholds : frame.Holds items) :
    (Data.obj (frame.written (Item.toList items))).itemsBelow true = Item.toList items := by
  rw [Data.itemsBelow, isGroupObject_written h]
  exact contents_written h hholds

end Frame

namespace Item

open Data (Retains)

variable {limit : ℤ} {merge : Bool}

section Became

variable {r : Frame → Frame → Prop}

mutual

theorem became_refl (hr : ∀ frame, r frame frame) : ∀ item : Item, Became r item item
  | .leaf _ => rfl
  | .group frame items => ⟨_, _, rfl, hr frame, becameIn_refl hr items⟩

theorem becameIn_refl (hr : ∀ frame, r frame frame) : ∀ items : List Item, BecameIn r items items
  | [] => rfl
  | item :: rest => ⟨_, _, rfl, became_refl hr item, becameIn_refl hr rest⟩

end

mutual

theorem listBelow_became (hr : ∀ frame, r frame frame)
    (hlisted : ∀ frame : Frame, frame.holding ≠ .absent → r frame { frame with holding := .listed }) :
    ∀ (item : Item) (depth : ℤ), (listBelow limit depth item).fault? = none →
      Became r item (listBelow limit depth item).value
  | .leaf _, _, _ => rfl
  | .group frame items, depth, hfault => by
    by_cases habsent : frame.holding = .absent
    · rw [listBelow, if_pos habsent]
      exact became_refl hr _
    · rw [listBelow, if_neg habsent] at hfault ⊢
      obtain ⟨hcheck, hbelow⟩ := Progress.fault?_guarded_eq_none.mp hfault
      rw [hcheck]
      exact ⟨_, _, rfl, hlisted frame habsent, listEach_became hr hlisted items (depth + 1) hbelow⟩

/-- Making lists changes how frames hold their items. -/
theorem listEach_became (hr : ∀ frame, r frame frame)
    (hlisted : ∀ frame : Frame, frame.holding ≠ .absent → r frame { frame with holding := .listed }) :
    ∀ (items : List Item) (depth : ℤ), (listEach limit depth items).fault? = none →
      BecameIn r items (listEach limit depth items).value
  | [], _, _ => rfl
  | item :: rest, depth, hfault => by
    obtain ⟨hfirst, hrest⟩ := Progress.fault?_cons_eq_none.mp hfault
    rw [listEach, Progress.value_cons hfirst]
    exact ⟨_, _, rfl, listBelow_became hr hlisted item depth hfirst,
      listEach_became hr hlisted rest depth hrest⟩

end

mutual

theorem pushBelow_became (hr : ∀ frame, r frame frame)
    (htags : ∀ (frame : Frame) tags, r frame { frame with tags }) :
    ∀ (item : Item) (depth : ℤ) (push : Bool) (candidates : Tagged),
      Became r item (pushBelow limit depth push candidates item).value.1
  | .leaf _, _, _, _ => rfl
  | .group frame items, depth, push, candidates => by
    obtain ⟨dropped, after, hvalue, hafter⟩ :=
      pushBelow_group limit depth push candidates frame items
    rw [hvalue]
    refine ⟨_, _, rfl, htags frame _, ?_⟩
    rcases hafter with hafter | hafter
    · rw [hafter]
      exact becameIn_refl hr items
    · rw [hafter]
      exact pushEach_became hr htags items (depth + 1) _ _

/-- Pushing changes the tags of frames, wherever it stops. -/
theorem pushEach_became (hr : ∀ frame, r frame frame)
    (htags : ∀ (frame : Frame) tags, r frame { frame with tags }) :
    ∀ (items : List Item) (depth : ℤ) (push : Bool) (candidates : Tagged),
      BecameIn r items (pushEach limit depth push candidates items).value.1
  | [], _, _, _ => rfl
  | item :: rest, depth, push, candidates => by
    have hfirst := pushBelow_became hr htags item depth push candidates
    rw [pushEach]
    cases (pushBelow limit depth push candidates item).fault? with
    | some fault => exact ⟨_, _, rfl, hfirst, becameIn_refl hr rest⟩
    | none => exact ⟨_, _, rfl, hfirst, pushEach_became hr htags rest depth push _⟩

end

end Became

section Writing

/-- A group is retained with its items, whatever its frame has become. -/
theorem retains_group {frame after : Frame} {items others : List Item} (h : frame.IsGroup)
    (hafter : after.IsGroup) (hholds : frame.Holds items) (hholdsAfter : after.Holds others)
    (hlasts : frame.Lasts merge after) (below : Retains true merge (toList items) (toList others)) :
    Retains true merge [(group frame items).toData] [(group after others).toData] := by
  refine .kept (Frame.isAlike_written h hafter hlasts _ _) ?_ .nil
  rw [← Frame.itemsBelow_written h hholds, ← Frame.itemsBelow_written hafter hholdsAfter] at below
  exact below

mutual

theorem retains_of_became : ∀ {item other : Item},
    Every (fun frame items ↦ frame.IsGroup ∧ frame.Holds items) item →
    Every (fun frame items ↦ frame.IsGroup ∧ frame.Holds items) other →
    Became (Frame.Lasts merge) item other → Retains true merge [item.toData] [other.toData]
  | .leaf _, _, _, _, hbecame => by
    rw [show _ = Item.leaf _ from hbecame]
    exact .refl _
  | .group _ _, _, h, hother, hbecame => by
    obtain ⟨after, others, rfl, hlasts, hitems⟩ := hbecame
    exact retains_group h.1.1 hother.1.1 h.1.2 hother.1.2 hlasts
      (retains_of_becameIn h.2 hother.2 hitems)

/-- Items whose frames have lasted are retained. -/
theorem retains_of_becameIn : ∀ {items others : List Item},
    EveryIn (fun frame items ↦ frame.IsGroup ∧ frame.Holds items) items →
    EveryIn (fun frame items ↦ frame.IsGroup ∧ frame.Holds items) others →
    BecameIn (Frame.Lasts merge) items others → Retains true merge (toList items) (toList others)
  | [], _, _, _, hbecame => by
    rw [show _ = [] from hbecame]
    exact .nil
  | _ :: _, _, h, hothers, hbecame => by
    obtain ⟨first, last, rfl, hfirst, hlast⟩ := hbecame
    exact (retains_of_became h.1 hothers.1 hfirst).append
      (retains_of_becameIn h.2 hothers.2 hlast)

end

theorem holds_of_hasList {p : Frame → Prop} (hp : ∀ frame, p frame → frame.IsGroup)
    {items : List Item} (h : EveryIn (fun frame items ↦ p frame ∧ frame.HasList items) items) :
    EveryIn (fun frame items ↦ frame.IsGroup ∧ frame.Holds items) items :=
  h.mono fun _ _ hframe ↦ ⟨hp _ hframe.1, Or.inl hframe.2⟩

end Writing

section Passes

variable {items : List Item}

theorem listAll_retains
    (h : EveryIn (fun frame items ↦ frame.IsGroup ∧ frame.Holds items) items)
    (hlisted : EveryIn (fun frame items ↦ frame.IsGroup ∧ frame.HasList items)
      (listAll limit items).value) (hfault : (listAll limit items).fault? = none) :
    Retains true merge (toList items) (toList (listAll limit items).value) := by
  refine retains_of_becameIn h (holds_of_hasList (fun _ hframe ↦ hframe) hlisted) ?_
  obtain ⟨hcheck, hbelow⟩ := Progress.fault?_guarded_eq_none.mp hfault
  rw [listAll, hcheck]
  refine listEach_became (Frame.Lasts.refl merge) (fun frame habsent ↦ ⟨rfl, ?_⟩) items 0 hbelow
  simp [habsent]

/-- Changing frames to ones that last retains all items. -/
theorem changeAll_retains {change : Frame → List Item → Progress Frame} {p q : Frame → Prop}
    (hp : ∀ frame, p frame → frame.IsGroup) (hq : ∀ frame, q frame → frame.IsGroup)
    (hchange : ∀ frame items, p frame → frame.HasList items → (change frame items).fault? = none →
      (change frame items).value.holding = frame.holding ∧
        (change frame items).value.kept merge = frame.kept merge)
    (h : EveryIn (fun frame items ↦ p frame ∧ frame.HasList items) items)
    (hafter : EveryIn (fun frame items ↦ q frame ∧ frame.HasList items)
      (changeAll change limit items).value)
    (hfault : (changeAll change limit items).fault? = none) :
    Retains true merge (toList items) (toList (changeAll change limit items).value) := by
  refine retains_of_becameIn (holds_of_hasList hp h) (holds_of_hasList hq hafter) ?_
  obtain ⟨hcheck, hbelow⟩ := Progress.fault?_guarded_eq_none.mp hfault
  rw [changeAll, hcheck]
  refine changeEach_became (fun frame items hframe hlist hnone ↦ ?_) limit items 0 h hbelow
  obtain ⟨hholding, hkept⟩ := hchange frame items hframe hlist hnone
  exact ⟨hholding, hkept, by rw [hholding]⟩

/-- Merging transforms retains all items. -/
theorem mergeTransforms_retains {merged : List Item}
    (h : EveryIn (fun frame items ↦ frame.IsGroup ∧ frame.HasList items) items)
    (hmerged : mergeTransforms limit items = .ok merged) :
    Retains true true (toList items) (toList merged) := by
  obtain ⟨htag, hpush, huntag, rfl⟩ := mergeTransforms_eq_ok hmerged
  have htagged := (tagAll_kept h htag).1
  have hpushed := (pushAll_kept htagged hpush).1
  have huntagged := (untagAll_kept hpushed huntag).1
  have hfirst : Retains true true (toList items) (toList (tagAll limit items).value) :=
    changeAll_retains (fun _ hframe ↦ hframe) (fun _ hframe ↦ hframe.group)
      (fun frame items _ hlist _ ↦ ⟨Frame.holding_tag hlist, Frame.kept_tag frame items⟩) h htagged
      htag
  have hsecond : Retains true true (toList (tagAll limit items).value)
      (toList (pushAll limit [] (tagAll limit items).value).value.value) := by
    refine retains_of_becameIn (holds_of_hasList (fun _ hframe ↦ hframe.group) htagged)
      (holds_of_hasList (fun _ hframe ↦ hframe.group) hpushed) ?_
    have hcheck := (Progress.fault?_guarded_eq_none.mp hpush).1
    rw [pushAll, hcheck]
    exact pushEach_became (Frame.Lasts.refl true) (fun _ _ ↦ ⟨rfl, Iff.rfl⟩) _ 0 _ _
  have hthird := changeAll_retains (fun _ hframe ↦ hframe.group) (fun _ hframe ↦ hframe.group)
    (fun frame _ hframe _ _ ↦ ⟨(Frame.kept_untag hframe).1, (Frame.kept_untag hframe).2.2⟩) hpushed
    huntagged huntag
  exact (hfirst.trans hsecond).trans hthird

theorem toList_append (first second : List Item) :
    toList (first ++ second) = toList first ++ toList second := by
  induction first with
  | nil => rfl
  | cons item rest ih => rw [List.cons_append, toList, toList, ih, List.cons_append]

/-- A group gives way to at most one item, and only if it holds nothing but its type. -/
theorem spliced_retains {item : Item}
    (h : Every (fun frame items ↦ frame.IsGroup ∧ frame.HasList items) item) :
    Retains true merge [item.toData] (toList (spliced item)) := by
  cases item with
  | leaf value => exact .refl _
  | group frame items =>
    obtain ⟨⟨hgroup, hlist⟩, -⟩ := h
    rw [spliced]
    split_ifs with hredundant
    · have hidle : (Data.obj (frame.written (toList items))).traits merge = [] := by
        rw [Frame.traits_written hgroup, kept_of_isRedundant hgroup hredundant]
        rfl
      simp only [isRedundant, Bool.and_eq_true, decide_eq_true_eq] at hredundant
      have hopens : frame.holding ≠ .absent := by simp [hredundant.1.1.1]
      have hlength : (toList items).length ≤ 1 := by
        rw [length_toList]
        exact hredundant.2
      have hbelow : Retains true merge
          ((Data.obj (frame.written (toList items))).itemsBelow true) (toList items) := by
        rw [Frame.itemsBelow_written hgroup (Or.inl hlist)]
        exact .refl _
      rw [← List.append_nil (toList items)]
      exact .unwrapped rfl (Frame.isGroupObject_written hgroup _) hidle
        ((Frame.opens_written hgroup _).mpr hopens) hbelow hlength .nil
    · exact .refl _

theorem spliceEach_retains
    (h : EveryIn (fun frame items ↦ frame.IsGroup ∧ frame.HasList items) items) :
    Retains true merge (toList items) (toList (spliceEach items)) := by
  induction items with
  | nil => exact .nil
  | cons item rest ih =>
    rw [spliceEach, List.flatMap_cons, toList_append]
    exact (spliced_retains h.1).append (ih h.2)

/-- Splicing keeps what holds of all frames. -/
theorem spliceItems_every {p : Frame → Prop} {depth : ℤ}
    (h : EveryIn (fun frame items ↦ p frame ∧ frame.HasList items) items)
    (hfault : (spliceItems limit depth items).fault? = none) :
    EveryIn (fun frame items ↦ p frame ∧ frame.HasList items)
      (spliceItems limit depth items).value :=
  (spliceItems_leaves (fun _ ↦ ()) (fun _ ↦ false) (fun _ _ _ _ ↦ rfl) limit items depth h hfault).1

mutual

theorem spliceBelow_retains : ∀ (item : Item) (depth : ℤ),
    Every (fun frame items ↦ frame.IsGroup ∧ frame.HasList items) item →
    (spliceBelow limit depth item).fault? = none →
      Retains true merge [item.toData] [(spliceBelow limit depth item).value.toData]
  | .leaf _, _, _, _ => .refl _
  | .group ⟨before, after, holding, tags⟩ items, depth, h, hfault => by
    obtain ⟨⟨hframe, hlist⟩, hitems⟩ := h
    rcases hlist with rfl | ⟨rfl, rfl⟩
    · rw [spliceBelow] at hfault ⊢
      obtain ⟨hcheck, hfault⟩ := Progress.fault?_guarded_eq_none.mp hfault
      have hbelow : (spliceItems limit (depth + 1) items).fault? = none := by
        cases hnone : (spliceItems limit (depth + 1) items).fault? with
        | none => rfl
        | some fault => simp [hnone] at hfault
      simp only [hcheck, hbelow, Progress.guarded_none, Option.isNone_none, if_true,
        Progress.value_map]
      exact retains_group hframe hframe (Or.inl (Or.inl rfl)) (Or.inl (Or.inl rfl)) (.refl merge _)
        ((spliceItems_retains items (depth + 1) hitems hbelow).trans
          (spliceEach_retains (spliceItems_every hitems hbelow)))
    · exact .refl _

/-- Splicing below items unwraps groups among what they hold. -/
theorem spliceItems_retains : ∀ (items : List Item) (depth : ℤ),
    EveryIn (fun frame items ↦ frame.IsGroup ∧ frame.HasList items) items →
    (spliceItems limit depth items).fault? = none →
      Retains true merge (toList items) (toList (spliceItems limit depth items).value)
  | [], _, _, _ => .nil
  | item :: rest, depth, h, hfault => by
    obtain ⟨hfirst, hrest⟩ := Progress.fault?_cons_eq_none.mp hfault
    rw [spliceItems, Progress.value_cons hfirst]
    exact (spliceBelow_retains item depth h.1 hfirst).append
      (spliceItems_retains rest depth h.2 hrest)

end

/-- Splicing below a root unwraps groups and drops nothing else. -/
theorem spliceAll_retains
    (h : EveryIn (fun frame items ↦ frame.IsGroup ∧ frame.HasList items) items)
    (hfault : (spliceAll limit items).fault? = none) :
    Retains true merge (toList items) (toList (spliceEach (spliceAll limit items).value)) := by
  obtain ⟨hcheck, hbelow⟩ := Progress.fault?_guarded_eq_none.mp hfault
  rw [spliceAll, hcheck]
  exact (spliceItems_retains items 0 h hbelow).trans
    (spliceEach_retains (spliceItems_every h hbelow))

end Passes

/-- Collapsing the items of a root retains them. -/
theorem collapseItems_retains {members : Members} {result : List Item}
    (h : collapseItems merge limit (itemsOf members) = .ok result) :
    Retains true merge (toList (itemsOf members)) (toList result) := by
  have hread : EveryIn (fun frame items ↦ frame.IsGroup ∧ frame.Holds items) (itemsOf members) :=
    everyIn_itemsOf members fun other _ hgroup ↦
      ⟨isGroup_frameOf hgroup, Frame.holds_frameOf other⟩
  obtain ⟨hlist, merged, hmerge, hsplice, rfl⟩ := collapseItems_eq_ok h
  have hevery := (listAll_kept merge (everyIn_read members) hlist).1
  have hlisted : Retains true merge (toList (itemsOf members))
      (toList (listAll limit (itemsOf members)).value) := listAll_retains hread hevery hlist
  cases merge with
  | false =>
    cases hmerge
    exact hlisted.trans (spliceAll_retains hevery hsplice)
  | true =>
    have hmerged := (mergeTransforms_kept hevery hmerge).1
    have hgroups : EveryIn (fun frame items ↦ frame.IsGroup ∧ frame.HasList items) merged :=
      hmerged.mono fun _ _ hframe ↦ ⟨hframe.1.group, hframe.2⟩
    exact (hlisted.trans (mergeTransforms_retains hevery hmerge)).trans
      (spliceAll_retains hgroups hsplice)

end Item

namespace Data

/-- Collapsing retains the items of a tree. -/
theorem collapse_retains {merge : Bool} {limit : ℤ} {tree result : Data}
    (h : tree.collapse merge limit = .ok result) :
    Retains true merge (tree.contents true) (result.contents true) := by
  rcases collapse_eq_ok h with ⟨rfl, -, -⟩ | ⟨members, items, rfl, hitems, rfl⟩
  · exact .refl _
  · have hretains := Item.collapseItems_retains hitems
    rw [Item.itemsOf_eq, Item.toList_ofList] at hretains
    rw [contents_true, contents_true, heldItems_put]
    exact hretains

end Data

end Motion
