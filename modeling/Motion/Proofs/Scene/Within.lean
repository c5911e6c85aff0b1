import Motion.Proofs.Scene.Faults

/-!
Collapsing never leads deeper. The items of a scene stay within the limit if no walk through their
groups goes beyond it and none of their leaves does, which may be trees that hold items themselves
(`Item.StaysWithin`). This holds of the items that are read from a tree within the limit
(`Item.staysWithin_itemsOf`), and where it holds of items the tree that is written from them is within
the limit (`Item.StaysWithin.goesBeyond_toList`). Splicing brings leaves and groups nearer to the root
(`Item.Shrinks`), and the other stages leave every leaf at its level, so the collapsed items stay
within the limit as well (`Item.collapseItems_staysWithin`).
-/

set_option autoImplicit false
set_option relaxedAutoImplicit false

namespace Motion

namespace Data

section Depth

variable {limit : ℤ}

mutual

/-- What goes beyond the limit still does so further down. -/
theorem exceeds_mono : ∀ (tree : Data) {depth deeper : ℤ}, depth ≤ deeper →
    tree.exceeds limit depth = true → tree.exceeds limit deeper = true
  | .obj members, _, _, hle, h => exceedsItems_mono members hle h
  | .null, _, _, _, h | .bool _, _, _, _, h | .num _, _, _, _, h | .str _, _, _, _, h
  | .list _, _, _, _, h => by cases h

theorem exceedsItems_mono : ∀ (members : List (String × Data)) {depth deeper : ℤ},
    depth ≤ deeper → exceedsItems limit depth members = true →
      exceedsItems limit deeper members = true
  | [], _, _, _, h => by
    rw [exceedsItems] at h
    cases h
  | (key, .list items) :: rest, depth, deeper, hle, h => by
    rw [exceedsItems] at h ⊢
    split_ifs at h ⊢
    · exact exceedsList_mono items hle h
    · exact exceedsItems_mono rest hle h
  | (key, .obj members) :: rest, depth, deeper, hle, h => by
    rw [exceedsItems] at h ⊢
    split_ifs at h ⊢
    · rw [Bool.and_eq_true, Bool.or_eq_true, decide_eq_true_eq] at h ⊢
      exact ⟨h.1, h.2.imp (fun hlimit ↦ by omega) (exceedsItems_mono members (by omega))⟩
    · exact exceedsItems_mono rest hle h
  | (key, .null) :: rest, depth, deeper, hle, h | (key, .bool _) :: rest, depth, deeper, hle, h
  | (key, .num _) :: rest, depth, deeper, hle, h
  | (key, .str _) :: rest, depth, deeper, hle, h => by
    by_cases hkey : key = itemsKey
    · simp [exceedsItems, hkey] at h
    · simp only [exceedsItems, if_neg hkey] at h ⊢
      exact exceedsItems_mono rest hle h

theorem exceedsList_mono : ∀ (items : List Data) {depth deeper : ℤ}, depth ≤ deeper →
    exceedsList limit depth items = true → exceedsList limit deeper items = true
  | [], _, _, _, h => by
    rw [exceedsList] at h
    cases h
  | .obj members :: rest, depth, deeper, hle, h => by
    rw [exceedsList, Bool.or_eq_true, Bool.and_eq_true, Bool.or_eq_true, decide_eq_true_eq] at h ⊢
    refine h.imp (fun hfirst ↦ ⟨hfirst.1, ?_⟩) (exceedsList_mono rest hle)
    exact hfirst.2.imp (fun hlimit ↦ by omega) (exceedsItems_mono members (by omega))
  | .null :: rest, depth, deeper, hle, h | .bool _ :: rest, depth, deeper, hle, h
  | .num _ :: rest, depth, deeper, hle, h | .str _ :: rest, depth, deeper, hle, h
  | .list _ :: rest, depth, deeper, hle, h => by
    simp only [exceedsList] at h ⊢
    exact exceedsList_mono rest hle h

end

theorem goesBeyond_mono {value : Data} {depth deeper : ℤ} (hle : depth ≤ deeper)
    (h : value.goesBeyond limit deeper = false) : value.goesBeyond limit depth = false := by
  rw [Bool.eq_false_iff] at h ⊢
  intro hbeyond
  apply h
  rw [goesBeyond, Bool.and_eq_true, Bool.or_eq_true, decide_eq_true_eq] at hbeyond ⊢
  exact ⟨hbeyond.1, hbeyond.2.imp (fun hlimit ↦ by omega) (exceeds_mono value (by omega))⟩

/-- A leaf does not go beyond the limit where it stands. -/
def LeafWithin {α : Type} (limit depth : ℤ) (leaf : Leaf α) : Prop :=
  leaf.value.goesBeyond limit (depth + leaf.above.length) = false

theorem leafWithin_under {α : Type} {depth : ℤ} {a : α} {leaf : Leaf α} :
    LeafWithin limit depth (leaf.under a) ↔ LeafWithin limit (depth + 1) leaf := by
  have hdepth : depth + (leaf.under a).above.length = depth + 1 + leaf.above.length := by
    rw [Leaf.under, List.length_cons]
    push_cast
    ring
  rw [LeafWithin, LeafWithin, hdepth]
  rfl

theorem leafWithin_top {depth : ℤ} {value : Data} (h : value.goesBeyond limit depth = false) :
    ∀ leaf ∈ [(⟨[], value⟩ : Leaf Members)], LeafWithin limit depth leaf := by
  intro leaf hleaf
  obtain rfl := List.mem_singleton.mp hleaf
  rwa [LeafWithin, List.length_nil, Nat.cast_zero, add_zero]

mutual

/-- The leaves of a value that does not go beyond the limit do not do so either. -/
theorem leavesOf_within : ∀ (value : Data) {depth : ℤ}, value.goesBeyond limit depth = false →
    ∀ leaf ∈ value.leavesOf, LeafWithin limit depth leaf
  | .obj members, depth, h => by
    rw [leavesOf]
    split_ifs
    · intro leaf hleaf
      obtain ⟨other, hother, rfl⟩ := List.mem_map.mp hleaf
      rw [leafWithin_under]
      refine leavesAmong_within members ?_ other hother
      rw [goesBeyond, Bool.and_eq_false_iff, Bool.or_eq_false_iff] at h
      rcases h with hopens | ⟨-, hbelow⟩
      · rw [← exceeds, exceeds_eq, children, (Entries.contains_eq_false_iff _ _).mp hopens]
        rfl
      · exact hbelow
    · exact leafWithin_top h
  | .null, _, h | .bool _, _, h | .num _, _, h | .str _, _, h | .list _, _, h => leafWithin_top h

theorem leavesAmong_within : ∀ (members : List (String × Data)) {depth : ℤ},
    exceedsItems limit depth members = false → ∀ leaf ∈ leavesAmong members,
      LeafWithin limit depth leaf
  | [], _, _ => List.forall_mem_nil _
  | (key, .list items) :: rest, depth, h => by
    rw [exceedsItems] at h
    rw [leavesAmong]
    split_ifs at h ⊢
    · exact leavesIn_within items h
    · exact leavesAmong_within rest h
  | (key, .obj members) :: rest, depth, h => by
    rw [exceedsItems] at h
    by_cases hkey : key = itemsKey
    · simp only [leavesAmong, if_pos hkey]
      rw [if_pos hkey] at h
      exact leavesOf_within (.obj members) h
    · simp only [leavesAmong, if_neg hkey]
      rw [if_neg hkey] at h
      exact leavesAmong_within rest h
  | (key, .null) :: rest, depth, h | (key, .bool _) :: rest, depth, h
  | (key, .num _) :: rest, depth, h | (key, .str _) :: rest, depth, h => by
    by_cases hkey : key = itemsKey
    · simp only [leavesAmong, if_pos hkey, leavesOf]
      exact leafWithin_top rfl
    · simp only [exceedsItems, if_neg hkey] at h
      simp only [leavesAmong, if_neg hkey]
      exact leavesAmong_within rest h

theorem leavesIn_within : ∀ (items : List Data) {depth : ℤ},
    exceedsList limit depth items = false → ∀ leaf ∈ leavesIn items, LeafWithin limit depth leaf
  | [], _, _ => List.forall_mem_nil _
  | value :: rest, depth, h => by
    rw [exceedsList_eq, List.any_cons, Bool.or_eq_false_iff, ← exceedsList_eq] at h
    rw [leavesIn]
    exact List.forall_mem_append.mpr
      ⟨leavesOf_within value h.1, leavesIn_within rest h.2⟩

end

end Depth

end Data

namespace Item

open Data (LeafWithin leafWithin_under)

/-- The leaves of items, of which nothing but the level is told. -/
abbrev placesIn (items : List Item) : List (Leaf Unit) :=
  leavesIn (fun _ ↦ ()) items

/-- The walks through items at a depth stay within the limit, and so do the leaves. -/
structure StaysWithin (limit depth : ℤ) (items : List Item) : Prop where
  height : depth + heightIn items ≤ limit
  leaves : ∀ leaf ∈ placesIn items, LeafWithin limit depth leaf

variable {limit depth : ℤ}

/-- Which members are told of the groups above leaves does not matter for their levels. -/
theorem leafWithin_placesIn {α : Type} (view : Frame → α) {items : List Item} :
    (∀ leaf ∈ placesIn items, LeafWithin limit depth leaf) ↔
      ∀ leaf ∈ leavesIn view items, LeafWithin limit depth leaf := by
  have hplaces : placesIn items = (leavesIn view items).map (Leaf.map fun _ ↦ ()) :=
    leavesIn_comp (fun _ ↦ ()) view items
  rw [hplaces, List.forall_mem_map]
  refine forall₂_congr fun leaf _ ↦ ?_
  rw [LeafWithin, LeafWithin, Leaf.map, List.length_map]

/-- Leaves that are the same up to what is told of the groups above them stay within the limit. -/
theorem leafWithin_congr {α : Type} {view : Frame → α} {items others : List Item}
    (h : leavesIn view others = leavesIn view items)
    (hleaves : ∀ leaf ∈ placesIn items, LeafWithin limit depth leaf) :
    ∀ leaf ∈ placesIn others, LeafWithin limit depth leaf := by
  rw [leafWithin_placesIn view] at hleaves ⊢
  rwa [h]

/-- The items of a tree within the limit. -/
theorem staysWithin_itemsOf {members : Members} (h : (Data.obj members).exceeds limit 0 = false)
    (hlimit : 0 ≤ limit) : StaysWithin limit 0 (itemsOf members) where
  height := heightIn_itemsOf members 0 h hlimit
  leaves := by
    rw [leafWithin_placesIn Frame.own, leavesIn_itemsOf]
    exact Data.leavesAmong_within members h

/-- Where the items of a written group stand. -/
theorem get?_written {frame : Frame} (h : frame.IsGroup) {items : List Item}
    (hlist : frame.HasList items) : Entries.get? (frame.written (toList items)) itemsKey =
      if frame.holding = .absent then none else some (.list (toList items)) := by
  have hbefore := (Entries.contains_eq_false_iff _ _).mp h.before
  rcases hlist with hlisted | ⟨habsent, rfl⟩
  · simp [Frame.written, itemsMember, hlisted, Entries.get?_append, hbefore, Entries.get?_cons]
  · have hafter := (Entries.contains_eq_false_iff _ _).mp (h.absent habsent)
    simp [Frame.written, itemsMember, habsent, Entries.get?_append, hbefore, hafter]

mutual

theorem goesBeyond_toData : ∀ (item : Item) {depth : ℤ},
    Every (fun frame items ↦ frame.IsGroup ∧ frame.HasList items) item →
    depth + height item ≤ limit → (∀ leaf ∈ leaves (fun _ ↦ ()) item, LeafWithin limit depth leaf) →
      item.toData.goesBeyond limit depth = false
  | .leaf value, depth, _, _, hleaves => by
    have hleaf := hleaves ⟨[], value⟩ (List.mem_singleton_self _)
    rwa [LeafWithin, List.length_nil, Nat.cast_zero, add_zero] at hleaf
  | .group frame items, depth, h, hheight, hleaves => by
    obtain ⟨⟨hgroup, hlist⟩, hitems⟩ := h
    have hbelow : ∀ leaf ∈ placesIn items, LeafWithin limit (depth + 1) leaf := by
      intro leaf hleaf
      exact leafWithin_under.mp (hleaves (leaf.under ()) (List.mem_map_of_mem hleaf))
    rw [show toData (.group frame items) = .obj (frame.written (toList items)) from rfl]
    have hget := get?_written hgroup hlist
    by_cases habsent : frame.holding = .absent
    · rw [if_pos habsent] at hget
      rw [Data.goesBeyond, Data.opensLevel, hasItems,
        (Entries.contains_eq_false_iff _ _).mpr hget, Bool.false_and]
    · rw [if_neg habsent] at hget
      rw [height, measure, heightStep_of_ne habsent] at hheight
      have hvalues := goesBeyond_toList items hitems (by rw [heightIn]; omega) hbelow
      rw [Data.goesBeyond, Data.exceeds_eq, Data.children, hget,
        List.any_eq_false.mpr fun value hvalue ↦ by simpa using hvalues value hvalue,
        decide_eq_false (by omega), Bool.or_false, Bool.and_false]

/-- What is written from items that stay within the limit does not go beyond it. -/
theorem goesBeyond_toList : ∀ (items : List Item) {depth : ℤ},
    EveryIn (fun frame items ↦ frame.IsGroup ∧ frame.HasList items) items →
    depth + heightIn items ≤ limit → (∀ leaf ∈ placesIn items, LeafWithin limit depth leaf) →
      ∀ value ∈ toList items, value.goesBeyond limit depth = false
  | [], _, _, _, _ => List.forall_mem_nil _
  | item :: rest, depth, h, hheight, hleaves => by
    rw [heightIn, measureIn] at hheight
    obtain ⟨hfirst, hrest⟩ := List.forall_mem_append.mp hleaves
    exact List.forall_mem_cons.mpr
      ⟨goesBeyond_toData item h.1 (by rw [height]; omega) hfirst,
        goesBeyond_toList rest h.2 (by rw [heightIn]; omega) hrest⟩

end

/-- A tree that is written from items that stay within the limit is within the limit. -/
theorem StaysWithin.exceeds_put {items : List Item} (hwithin : StaysWithin limit 0 items)
    (h : EveryIn (fun frame items ↦ frame.IsGroup ∧ frame.HasList items) items) (members : Members) :
    (Data.obj (Entries.put members itemsKey (.list (toList items)))).exceeds limit 0 = false := by
  have hvalues := goesBeyond_toList items h hwithin.height hwithin.leaves
  rw [Data.exceeds_eq, Data.children, Entries.get?_put_self]
  exact List.any_eq_false.mpr fun value hvalue ↦ by simpa using hvalues value hvalue

section Shrinking

/-- Items whose walks lead no deeper than those of other items, and whose leaves are leaves of these,
none of them further down. -/
structure Shrinks (items shrunk : List Item) : Prop where
  height : heightIn shrunk ≤ heightIn items
  leaves : ∀ leaf ∈ placesIn shrunk, ∃ other ∈ placesIn items,
    leaf.value = other.value ∧ leaf.above.length ≤ other.above.length

variable {items shrunk final others : List Item} {frame : Frame}

theorem Shrinks.refl (items : List Item) : Shrinks items items :=
  ⟨le_rfl, fun leaf hleaf ↦ ⟨leaf, hleaf, rfl, le_rfl⟩⟩

theorem Shrinks.trans (hfirst : Shrinks items shrunk) (hsecond : Shrinks shrunk final) :
    Shrinks items final := by
  refine ⟨hsecond.height.trans hfirst.height, fun leaf hleaf ↦ ?_⟩
  obtain ⟨middle, hmiddle, hvalue, hlength⟩ := hsecond.leaves leaf hleaf
  obtain ⟨other, hother, hvalue', hlength'⟩ := hfirst.leaves middle hmiddle
  exact ⟨other, hother, hvalue.trans hvalue', hlength.trans hlength'⟩

theorem heightIn_append (first second : List Item) :
    heightIn (first ++ second) = max (heightIn first) (heightIn second) := by
  induction first with
  | nil => exact (Nat.zero_max _).symm
  | cons item rest ih =>
    rw [List.cons_append, heightIn, measureIn, ← heightIn, ih, heightIn, measureIn, Nat.max_assoc]

theorem Shrinks.append {otherShrunk : List Item} (hfirst : Shrinks items shrunk)
    (hsecond : Shrinks others otherShrunk) : Shrinks (items ++ others) (shrunk ++ otherShrunk) := by
  constructor
  · rw [heightIn_append, heightIn_append]
    exact max_le_max hfirst.height hsecond.height
  · rw [placesIn, placesIn, leavesIn_append, leavesIn_append]
    intro leaf hleaf
    rcases List.mem_append.mp hleaf with hleaf | hleaf
    · obtain ⟨other, hother, hspec⟩ := hfirst.leaves leaf hleaf
      exact ⟨other, List.mem_append_left _ hother, hspec⟩
    · obtain ⟨other, hother, hspec⟩ := hsecond.leaves leaf hleaf
      exact ⟨other, List.mem_append_right _ hother, hspec⟩

/-- A group shrinks with its items. -/
theorem Shrinks.group (h : Shrinks items shrunk) :
    Shrinks [.group frame items] [.group frame shrunk] := by
  constructor
  · simp only [heightIn, measureIn, measure]
    exact max_le_max (heightStep_mono rfl h.height) le_rfl
  · intro leaf hleaf
    rw [placesIn, leavesIn, leavesIn, List.append_nil, Item.leaves] at hleaf ⊢
    obtain ⟨below, hbelow, rfl⟩ := List.mem_map.mp hleaf
    obtain ⟨other, hother, hvalue, hlength⟩ := h.leaves below hbelow
    exact ⟨other.under (), List.mem_map_of_mem hother, hvalue, Nat.succ_le_succ hlength⟩

/-- A group shrinks to its items. -/
theorem shrinks_items (h : frame.holding ≠ .absent) (items : List Item) :
    Shrinks [.group frame items] items := by
  constructor
  · simp only [heightIn, measureIn, measure, heightStep_of_ne h]
    omega
  · intro leaf hleaf
    rw [placesIn, leavesIn, leavesIn, List.append_nil, leaves]
    exact ⟨leaf.under (), List.mem_map_of_mem hleaf, rfl, Nat.le_succ _⟩

theorem spliced_shrinks (item : Item) : Shrinks [item] (spliced item) := by
  cases item with
  | leaf value => exact Shrinks.refl _
  | group frame items =>
    rw [spliced]
    split_ifs with hredundant
    · have hlisted : frame.holding = .listed := by
        simp only [isRedundant, Bool.and_eq_true, decide_eq_true_eq] at hredundant
        exact hredundant.1.1.1
      exact shrinks_items (by simp [hlisted]) items
    · exact Shrinks.refl _

theorem spliceEach_shrinks (items : List Item) : Shrinks items (spliceEach items) := by
  induction items with
  | nil => exact Shrinks.refl _
  | cons item rest ih => exact (spliced_shrinks item).append ih

mutual

theorem spliceBelow_shrinks (limit : ℤ) : ∀ (item : Item) (depth : ℤ), Every Frame.HasList item →
    (spliceBelow limit depth item).fault? = none →
      Shrinks [item] [(spliceBelow limit depth item).value]
  | .leaf value, _, _, _ => Shrinks.refl _
  | .group ⟨before, after, holding, tags⟩ items, depth, h, hfault => by
    obtain ⟨hlist, hitems⟩ := h
    rcases hlist with rfl | ⟨rfl, rfl⟩
    · rw [spliceBelow] at hfault ⊢
      obtain ⟨hcheck, hfault⟩ := Progress.fault?_guarded_eq_none.mp hfault
      have hbelow : (spliceItems limit (depth + 1) items).fault? = none := by
        cases hnone : (spliceItems limit (depth + 1) items).fault? with
        | none => rfl
        | some fault => simp [hnone] at hfault
      simp only [hcheck, hbelow, Progress.guarded_none, Option.isNone_none, if_true,
        Progress.value_map]
      exact ((spliceItems_shrinks limit items (depth + 1) hitems hbelow).trans
        (spliceEach_shrinks _)).group
    · exact Shrinks.refl _

/-- Splicing brings leaves and groups nearer to the root. -/
theorem spliceItems_shrinks (limit : ℤ) : ∀ (items : List Item) (depth : ℤ),
    EveryIn Frame.HasList items → (spliceItems limit depth items).fault? = none →
      Shrinks items (spliceItems limit depth items).value
  | [], _, _, _ => Shrinks.refl _
  | item :: rest, depth, h, hfault => by
    obtain ⟨hfirst, hrest⟩ := Progress.fault?_cons_eq_none.mp hfault
    rw [spliceItems, Progress.value_cons hfirst]
    exact (spliceBelow_shrinks limit item depth h.1 hfirst).append
      (spliceItems_shrinks limit rest depth h.2 hrest)

end

theorem StaysWithin.shrink (h : StaysWithin limit depth items) (hshrinks : Shrinks items shrunk) :
    StaysWithin limit depth shrunk := by
  refine ⟨?_, fun leaf hleaf ↦ ?_⟩
  · have hheight := h.height
    have hless := hshrinks.height
    omega
  · obtain ⟨other, hother, hvalue, hlength⟩ := hshrinks.leaves leaf hleaf
    rw [LeafWithin, hvalue]
    exact Data.goesBeyond_mono (by omega) (h.leaves other hother)

end Shrinking

section Collapsing

variable {items : List Item}

theorem listAll_staysWithin
    (h : EveryIn (fun frame items ↦ frame.IsGroup ∧ (frame.holding = .absent → items = [])) items)
    (hwithin : StaysWithin limit 0 items) : ∃ listed, listAll limit items = .done listed ∧
      EveryIn (fun frame items ↦ frame.IsGroup ∧ frame.HasList items) listed ∧
        IsWithin limit listed ∧ StaysWithin limit 0 listed := by
  have hheight : heightIn items ≤ limit := by
    have hheight := hwithin.height
    omega
  obtain ⟨listed, hlist, hlisted⟩ :=
    listAll_isWithin (h.mono fun _ _ hframe ↦ ⟨trivial, hframe.2⟩) hheight
  have hfault : (listAll limit items).fault? = none := by rw [hlist]; rfl
  obtain ⟨hevery, hkept⟩ := listAll_kept true h hfault
  rw [hlist] at hevery hkept
  refine ⟨listed, hlist, hevery, hlisted, ?_, leafWithin_congr hkept hwithin.leaves⟩
  rw [Int.zero_add]
  exact hlisted.height

/-- Collapsing leaves items within the limit. -/
theorem collapseItems_staysWithin {merge : Bool} {result : List Item}
    (h : EveryIn (fun frame items ↦ frame.IsGroup ∧ (frame.holding = .absent → items = [])) items)
    (hwithin : StaysWithin limit 0 items) (hresult : collapseItems merge limit items = .ok result) :
    StaysWithin limit 0 result := by
  obtain ⟨listed, hlist, hevery, hlisted, hbelow⟩ := listAll_staysWithin h hwithin
  obtain ⟨-, merged, hmerge, hsplice, rfl⟩ := collapseItems_eq_ok hresult
  rw [hlist] at hmerge
  have hmerged : IsWithin limit merged ∧ StaysWithin limit 0 merged := by
    cases merge with
    | false =>
      cases hmerge
      exact ⟨hlisted, hbelow⟩
    | true =>
      have hwithin := hlisted.mergeTransforms.2 merged hmerge
      refine ⟨hwithin, ?_, leafWithin_congr (mergeTransforms_kept hevery hmerge).2 hbelow.leaves⟩
      rw [Int.zero_add]
      exact hwithin.height
  obtain ⟨hcheck, hfault⟩ := Progress.fault?_guarded_eq_none.mp hsplice
  rw [spliceAll, hcheck]
  exact hmerged.2.shrink
    ((spliceItems_shrinks limit merged 0 hmerged.1.hasList hfault).trans (spliceEach_shrinks _))

end Collapsing

end Item

end Motion
