import Motion.Proofs.Scene.Within

/-!
Collapsing reaches a normal form. In a collapsed scene no group can give way to its items any more,
and every group that has items holds them in a list (`Data.IsNormal`). One pass is enough because a
group is looked at only after its items have been spliced (`Item.spliceItems_busy`). Where all groups
of a tree within the limit are of that kind, making lists and splicing find nothing to do
(`Data.collapse_of_isNormal`); so what has been collapsed, with or without merging, is not changed by
collapsing it again without merging (`Data.collapse_normalizes`).
-/

set_option autoImplicit false
set_option relaxedAutoImplicit false

namespace Motion

namespace Item

variable {limit : ℤ}

section Busy

/-- A group that does not give way to its items. -/
def IsBusy (frame : Frame) (items : List Item) : Prop :=
  isRedundant (.group frame items) = false

/-- All groups below an item are busy. -/
def BusyBelow : Item → Prop
  | .leaf value => ofData value = .leaf value
  | .group _ items => EveryIn IsBusy items

/-- What stands in the place of an item is busy where everything below it is. -/
theorem spliced_busy : ∀ {item : Item}, item.BusyBelow → EveryIn IsBusy (spliced item)
  | .leaf _, h => ⟨h, trivial⟩
  | .group frame items, h => by
    rw [spliced]
    split_ifs with hredundant
    · exact h
    · exact ⟨⟨Bool.eq_false_iff.mpr hredundant, h⟩, trivial⟩

theorem spliceEach_busy {items : List Item} (h : ∀ item ∈ items, item.BusyBelow) :
    EveryIn IsBusy (spliceEach items) := by
  induction items with
  | nil => exact trivial
  | cons item rest ih =>
    obtain ⟨hfirst, hrest⟩ := List.forall_mem_cons.mp h
    exact everyIn_append.mpr ⟨spliced_busy hfirst, ih hrest⟩

mutual

theorem spliceBelow_busy (limit : ℤ) : ∀ (item : Item) (depth : ℤ), Every Frame.HasList item →
    (spliceBelow limit depth item).fault? = none → (spliceBelow limit depth item).value.BusyBelow
  | .leaf _, _, h, _ => h
  | .group ⟨before, after, holding, tags⟩ items, depth, h, hfault => by
    obtain ⟨hlist, hitems⟩ := h
    rcases hlist with rfl | ⟨rfl, rfl⟩
    · rw [spliceBelow] at hfault ⊢
      obtain ⟨hcheck, hfault⟩ := Progress.fault?_guarded_eq_none.mp hfault
      have hbelow : (spliceItems limit (depth + 1) items).fault? = none := by
        cases hnone : (spliceItems limit (depth + 1) items).fault? with
        | none => rfl
        | some fault => simp [hnone] at hfault
      simp only [hcheck, hbelow, Progress.guarded_none, Option.isNone_none, if_true,
        Progress.value_map]
      exact spliceEach_busy (spliceItems_busy limit items (depth + 1) hitems hbelow)
    · exact trivial

/-- After the items have been spliced, everything below each of them is busy. -/
theorem spliceItems_busy (limit : ℤ) : ∀ (items : List Item) (depth : ℤ),
    EveryIn Frame.HasList items → (spliceItems limit depth items).fault? = none →
      ∀ item ∈ (spliceItems limit depth items).value, item.BusyBelow
  | [], _, _, _ => List.forall_mem_nil _
  | item :: rest, depth, h, hfault => by
    obtain ⟨hfirst, hrest⟩ := Progress.fault?_cons_eq_none.mp hfault
    rw [spliceItems, Progress.value_cons hfirst]
    exact List.forall_mem_cons.mpr ⟨spliceBelow_busy limit item depth h.1 hfirst,
      spliceItems_busy limit rest depth h.2 hrest⟩

end

end Busy

end Item

/-- A group that has been collapsed: it is one in a document, holds its items in a list or not at
all, has no tags and is busy. -/
structure Frame.IsSettled (frame : Frame) (items : List Item) : Prop where
  group : frame.IsGroup
  tags : frame.tags = none
  hasList : frame.HasList items
  busy : Item.IsBusy frame items

namespace Item

variable {limit : ℤ}

theorem limit_nonneg_of_listAll {items : List Item} (h : (listAll limit items).fault? = none) :
    0 ≤ limit := by
  have hcheck := (Progress.fault?_guarded_eq_none.mp h).1
  rw [checkDepth] at hcheck
  split_ifs at hcheck with hlimit
  exact not_lt.mp hlimit

/-- After collapsing every group is settled. -/
theorem collapseItems_settled {merge : Bool} {items result : List Item}
    (h : EveryIn (fun frame items ↦
      (frame.IsGroup ∧ frame.tags = none) ∧ (frame.holding = .absent → items = [])) items)
    (hresult : collapseItems merge limit items = .ok result) : EveryIn Frame.IsSettled result := by
  obtain ⟨hlist, merged, hmerge, hsplice, rfl⟩ := collapseItems_eq_ok hresult
  have hlisted : EveryIn (fun frame items ↦ (frame.IsGroup ∧ frame.tags = none) ∧
      frame.HasList items) (listAll limit items).value :=
    listAll_every (fun _ hframe ↦ ⟨hframe.1.listed, hframe.2⟩) h hlist
  have hmerged : EveryIn (fun frame items ↦ (frame.IsGroup ∧ frame.tags = none) ∧
      frame.HasList items) merged := by
    cases merge with
    | false =>
      cases hmerge
      exact hlisted
    | true =>
      have hgroups : EveryIn (fun frame items ↦ frame.IsGroup ∧ frame.HasList items)
          (listAll limit items).value :=
        hlisted.mono fun _ _ hframe ↦ ⟨hframe.1.1, hframe.2⟩
      exact (mergeTransforms_kept hgroups hmerge).1.mono fun _ _ hframe ↦
        ⟨⟨hframe.1.group, hframe.1.tags⟩, hframe.2⟩
  obtain ⟨hspliced, -⟩ := spliceAll_kept (fun _ hframe ↦ hframe.1) merge hmerged hsplice
  obtain ⟨hcheck, hfault⟩ := Progress.fault?_guarded_eq_none.mp hsplice
  have hbusy : EveryIn IsBusy (spliceEach (spliceAll limit merged).value) := by
    rw [spliceAll, hcheck]
    exact spliceEach_busy (spliceItems_busy limit merged 0
      (hmerged.mono fun _ _ hframe ↦ hframe.2) hfault)
  exact (hspliced.and hbusy).mono fun _ _ hframe ↦
    ⟨hframe.1.1.1, hframe.1.1.2, hframe.1.2, hframe.2⟩

section Settling

theorem spliceEach_of_busy : ∀ {items : List Item}, EveryIn IsBusy items → spliceEach items = items
  | [], _ => rfl
  | .leaf value :: rest, h => by
    have hrest := spliceEach_of_busy h.2
    rw [spliceEach, List.flatMap_cons, ← spliceEach, hrest]
    rfl
  | .group frame items :: rest, h => by
    have hrest := spliceEach_of_busy h.2
    have hbusy : isRedundant (.group frame items) = false := h.1.1
    rw [spliceEach, List.flatMap_cons, ← spliceEach, hrest, spliced, if_neg (by simp [hbusy])]
    rfl

mutual

theorem listBelow_settled (limit : ℤ) : ∀ (item : Item) (depth : ℤ), Every Frame.HasList item →
    (listBelow limit depth item).fault? = none → (listBelow limit depth item).value = item
  | .leaf _, _, _, _ => rfl
  | .group ⟨before, after, holding, tags⟩ items, depth, h, hfault => by
    obtain ⟨hlist, hitems⟩ := h
    rcases hlist with rfl | ⟨rfl, rfl⟩
    · obtain ⟨hcheck, hbelow⟩ := Progress.fault?_guarded_eq_none.mp hfault
      rw [listBelow, if_neg (by simp), hcheck, Progress.guarded_none, Progress.value_map,
        listEach_settled limit items (depth + 1) hitems hbelow]
    · rfl

/-- Lists are made of nothing that is held in lists already. -/
theorem listEach_settled (limit : ℤ) : ∀ (items : List Item) (depth : ℤ),
    EveryIn Frame.HasList items → (listEach limit depth items).fault? = none →
      (listEach limit depth items).value = items
  | [], _, _, _ => rfl
  | item :: rest, depth, h, hfault => by
    obtain ⟨hfirst, hrest⟩ := Progress.fault?_cons_eq_none.mp hfault
    rw [listEach, Progress.value_cons hfirst, listBelow_settled limit item depth h.1 hfirst,
      listEach_settled limit rest depth h.2 hrest]

end

mutual

theorem spliceBelow_settled (limit : ℤ) : ∀ (item : Item) (depth : ℤ),
    Every Frame.IsSettled item → (spliceBelow limit depth item).fault? = none →
      (spliceBelow limit depth item).value = item
  | .leaf _, _, _, _ => rfl
  | .group ⟨before, after, holding, tags⟩ items, depth, h, hfault => by
    obtain ⟨hsettled, hitems⟩ := h
    rcases hsettled.hasList with hlisted | ⟨habsent, rfl⟩
    · obtain rfl : holding = .listed := hlisted
      rw [spliceBelow] at hfault ⊢
      obtain ⟨hcheck, hfault⟩ := Progress.fault?_guarded_eq_none.mp hfault
      have hbelow : (spliceItems limit (depth + 1) items).fault? = none := by
        cases hnone : (spliceItems limit (depth + 1) items).fault? with
        | none => rfl
        | some fault => simp [hnone] at hfault
      simp only [hcheck, hbelow, Progress.guarded_none, Option.isNone_none, if_true,
        Progress.value_map]
      rw [spliceItems_settled limit items (depth + 1) hitems hbelow,
        spliceEach_of_busy (hitems.mono fun _ _ hframe ↦ hframe.busy)]
    · obtain rfl : holding = .absent := habsent
      rfl

/-- Splicing finds nothing to do among settled groups. -/
theorem spliceItems_settled (limit : ℤ) : ∀ (items : List Item) (depth : ℤ),
    EveryIn Frame.IsSettled items → (spliceItems limit depth items).fault? = none →
      (spliceItems limit depth items).value = items
  | [], _, _, _ => rfl
  | item :: rest, depth, h, hfault => by
    obtain ⟨hfirst, hrest⟩ := Progress.fault?_cons_eq_none.mp hfault
    rw [spliceItems, Progress.value_cons hfirst, spliceBelow_settled limit item depth h.1 hfirst,
      spliceItems_settled limit rest depth h.2 hrest]

end

/-- Settled items within the limit stay as they are when they are collapsed without merging. -/
theorem collapseItems_of_settled {items : List Item} (h : EveryIn Frame.IsSettled items)
    (hheight : heightIn items ≤ limit) : collapseItems false limit items = .ok items := by
  have hlists : EveryIn Frame.HasList items := h.mono fun _ _ hframe ↦ hframe.hasList
  have hcheck : checkDepth limit 0 = none := checkDepth_eq_none (by omega)
  have hlist : listAll limit items = .done items := by
    have hfault := listEach_fault? limit items 0 (by omega)
    rw [listAll, hcheck, Progress.guarded_none, Progress.eq_done hfault,
      listEach_settled limit items 0 hlists hfault]
  have hsplice : spliceAll limit items = .done items := by
    have hfault := spliceItems_fault? limit items 0 hlists (by omega)
    rw [spliceAll, hcheck, Progress.guarded_none, Progress.eq_done hfault,
      spliceItems_settled limit items 0 h hfault]
  have hbusy := spliceEach_of_busy (h.mono fun _ _ hframe ↦ hframe.busy)
  rw [collapseItems_listed false hlist]
  show ((spliceAll limit items).toExcept >>= fun below ↦ pure (spliceEach below)) = .ok items
  rw [hsplice]
  exact congrArg Except.ok hbusy

end Settling

section Written

mutual

/-- A value that is read as an item and written again is the same. -/
theorem toData_ofData : ∀ value : Data, (ofData value).toData = value
  | .obj members => by
    rw [ofData]
    split_ifs
    · exact congrArg Data.obj (written_frameOf members)
    · rfl
  | .null | .bool _ | .num _ | .str _ | .list _ => rfl

theorem written_frameOf : ∀ members : List (String × Data),
    (frameOf members).written (toList (itemsOf members)) = members
  | [] => rfl
  | (key, .list items) :: rest => by
    by_cases hkey : key = itemsKey
    · have hitems := toList_ofList items
      simp [frameOf, Frame.written, itemsOf, itemsMember, Entries.get?_cons, hkey, hitems]
    · have hrest := written_frameOf rest
      simpa [frameOf, Frame.written, itemsOf, Entries.get?_cons, hkey] using hrest
  | (key, .obj members) :: rest => by
    by_cases hkey : key = itemsKey
    · have hvalue := toData_ofData (.obj members)
      simp [frameOf, Frame.written, itemsOf, itemsMember, Entries.get?_cons, hkey, toList, hvalue]
    · have hrest := written_frameOf rest
      simpa [frameOf, Frame.written, itemsOf, Entries.get?_cons, hkey] using hrest
  | (key, .null) :: rest | (key, .bool _) :: rest | (key, .num _) :: rest
  | (key, .str _) :: rest => by
    by_cases hkey : key = itemsKey
    · simp [frameOf, Frame.written, itemsOf, itemsMember, Entries.get?_cons, hkey, toList, ofData,
        toData]
    · have hrest := written_frameOf rest
      simpa [frameOf, Frame.written, itemsOf, Entries.get?_cons, hkey] using hrest

theorem toList_ofList : ∀ items : List Data, toList (ofList items) = items
  | [] => rfl
  | value :: rest => by rw [ofList, toList, toData_ofData value, toList_ofList rest]

end

theorem length_toList (items : List Item) : (toList items).length = items.length := by
  induction items with
  | nil => rfl
  | cons item rest ih => rw [toList, List.length_cons, List.length_cons, ih]

end Written

end Item

namespace Data

/-- A group that can give way to its items: its members are its type and a list of one item at
most. -/
def IsIdleGroup (members : Members) : Prop :=
  (Entries.keys members).Perm [typeKey, itemsKey] ∧
    ∃ items, Entries.get? members itemsKey = some (.list items) ∧ items.length ≤ 1

/-- A group in normal form: its items, if it has any, are a list, and it does not give way to them. -/
structure IsNormal (members : Members) : Prop where
  listed : ∀ value, Entries.get? members itemsKey = some value → ∃ items, value = .list items
  busy : ¬ IsIdleGroup members

end Data

section Reading

variable {frame : Frame} {members : Members}

/-- A settled group is written in normal form. -/
theorem Frame.IsSettled.isNormal {items : List Item} (h : frame.IsSettled items) :
    Data.IsNormal (frame.written (Item.toList items)) := by
  have hget := Item.get?_written h.group h.hasList
  constructor
  · intro value hvalue
    rw [hget] at hvalue
    split_ifs at hvalue
    exact ⟨_, (Option.some.inj hvalue).symm⟩
  · rintro ⟨hkeys, values, hvalues, hlength⟩
    rw [hget] at hvalues
    split_ifs at hvalues with habsent
    obtain rfl : Item.toList items = values := by simpa using hvalues
    rw [Item.length_toList] at hlength
    rcases h.hasList with hlisted | ⟨habsent', -⟩
    · have hcount := hkeys.length_eq
      have hbusy := h.busy
      simp only [Entries.keys, written, Item.itemsMember, hlisted, List.length_map,
        List.length_append, List.length_cons, List.length_nil] at hcount
      have hmembers : frame.members.length = 1 := by
        rw [members, List.length_append]
        omega
      simp [Item.IsBusy, Item.isRedundant, hlisted, h.tags, hmembers, hlength] at hbusy
    · exact habsent habsent'

/-- A group in normal form is read as a settled one. -/
theorem Data.IsNormal.isSettled (h : Data.IsNormal members) (hgroup : isGroup members = true) :
    (frameOf members).IsSettled (Item.itemsOf members) := by
  have hframe := Item.isGroup_frameOf hgroup
  have hlist : (frameOf members).HasList (Item.itemsOf members) := by
    cases hget : Entries.get? members itemsKey with
    | none =>
      have hcontains := (Entries.contains_eq_false_iff _ _).mpr hget
      exact Or.inr ⟨by rw [frameOf, hget], Item.itemsOf_of_not_contains hcontains⟩
    | some value =>
      obtain ⟨items, rfl⟩ := h.listed value hget
      exact Or.inl (by rw [frameOf, hget])
  refine ⟨hframe, rfl, hlist, ?_⟩
  rw [Item.IsBusy, Bool.eq_false_iff]
  intro hredundant
  apply h.busy
  obtain ⟨value, hmembers⟩ := Item.members_of_isRedundant hframe hredundant
  simp only [Item.isRedundant, Bool.and_eq_true, decide_eq_true_eq] at hredundant
  obtain ⟨⟨⟨hlisted, -⟩, -⟩, hlength⟩ := hredundant
  have hwritten := Item.written_frameOf members
  have hkeys : Entries.keys (frameOf members).members = [typeKey] := by rw [hmembers]; rfl
  constructor
  · rw [Entries.keys, Frame.members, List.map_append] at hkeys
    rw [← hwritten]
    simp only [Entries.keys, Frame.written, Item.itemsMember, hlisted, List.map_append,
      List.append_assoc, List.map_cons, List.singleton_append]
    refine List.perm_middle.trans ?_
    rw [hkeys]
    exact List.Perm.swap _ _ _
  · have hget := Item.get?_written hframe hlist
    rw [hwritten, hlisted, if_neg (by simp)] at hget
    exact ⟨_, hget, by rwa [Item.length_toList]⟩

end Reading

namespace Data

variable {limit : ℤ} {members : Members}

/-- A tree within the limit whose groups are in normal form stays as it is when it is collapsed
without merging. -/
theorem collapse_of_isNormal (hlimit : 0 ≤ limit) (hdepth : (Data.obj members).exceeds limit 0 = false)
    {items : List Data} (hitems : Entries.get? members itemsKey = some (.list items))
    (hnormal : ∀ group ∈ (Data.obj members).groups, IsNormal group) :
    (Data.obj members).collapse false limit = .ok (.obj members) := by
  have hsettled : Item.EveryIn Frame.IsSettled (Item.itemsOf members) :=
    Item.everyIn_itemsOf members fun group hgroup htype ↦ (hnormal group hgroup).isSettled htype
  have hheight := Item.heightIn_itemsOf members 0 hdepth hlimit
  rw [Int.zero_add] at hheight
  have hcontains : Entries.contains members itemsKey = true := by
    rw [Entries.contains_eq_isSome, hitems]
    rfl
  have hwritten : Item.toList (Item.itemsOf members) = items := by
    rw [Item.itemsOf_eq, heldItems, hitems, Item.toList_ofList]
  rw [collapse_within false hdepth, if_pos hcontains, Item.collapseItems_of_settled hsettled hheight]
  show Except.ok (Data.obj (Entries.put members itemsKey (.list (Item.toList _)))) = _
  rw [hwritten, Entries.put_of_get? hitems]

/-- Collapsing reaches a normal form: in the result no group can give way to its items, all groups
that have items hold them in a list, and collapsing without merging changes nothing any more. -/
theorem collapse_normalizes {merge : Bool} {result : Data}
    (h : (Data.obj members).collapse merge limit = .ok result) :
    (∀ group ∈ result.groups, IsNormal group) ∧ result.collapse false limit = .ok result := by
  have hdepth : (Data.obj members).exceeds limit 0 = false := by
    by_contra hbeyond
    rw [collapse_beyond merge (by simpa using hbeyond)] at h
    cases h
  have hrun := h
  rw [collapse_within merge hdepth] at hrun
  cases hcontains : Entries.contains members itemsKey with
  | false =>
    rw [hcontains] at hrun
    cases hrun
    have hnone := (Entries.contains_eq_false_iff _ _).mp hcontains
    refine ⟨?_, ?_⟩
    · rw [groups, groupsAmong_eq, heldItems, hnone]
      exact List.forall_mem_nil _
    · rw [collapse_within false hdepth, hcontains]
      rfl
  | true =>
    rw [hcontains, if_pos rfl] at hrun
    cases hok : Item.collapseItems merge limit (Item.itemsOf members) with
    | error fault =>
      rw [hok] at hrun
      cases hrun
    | ok items =>
      rw [hok] at hrun
      cases hrun
      have hlimit : 0 ≤ limit := Item.limit_nonneg_of_listAll (Item.collapseItems_eq_ok hok).1
      have hsettled := Item.collapseItems_settled (Item.everyIn_frames fun _ _ hgroup ↦
        ⟨Item.isGroup_frameOf hgroup, rfl⟩) hok
      have hwithin := Item.collapseItems_staysWithin (Item.everyIn_read members)
        (Item.staysWithin_itemsOf hdepth hlimit) hok
      have hnormal : ∀ group ∈ (Data.obj (Entries.put members itemsKey
          (.list (Item.toList items)))).groups, IsNormal group := by
        rw [groups, groupsAmong_eq, heldItems_put]
        exact Item.groupsIn_toList
          (fun _ _ hframe ↦ ⟨hframe.group, hframe.hasList, hframe.isNormal⟩) items hsettled
      refine ⟨hnormal, collapse_of_isNormal hlimit ?_ (Entries.get?_put_self ..) hnormal⟩
      exact hwithin.exceeds_put (hsettled.mono fun _ _ hframe ↦ ⟨hframe.group, hframe.hasList⟩) members

/-- A tree in which groups become idle while it is collapsed: a shift that cancels that of the group
around it, a group with a null for its items, and a leaf that is a tree itself. -/
def idleRoot : Members :=
  [("items", .list [
    .obj [("type", .str "group"), ("translateX", .num (.int 3)), ("items",
      .obj [("type", .str "group"), ("translateX", .num (.int (-3))), ("items",
        .list [.obj [("items", .list []), ("type", .str "group")],
          .obj [("type", .str "group"), ("items", .null)],
          .obj [("type", .str "mask"), ("items", .obj [("items", .null)])]])])],
    .list []])]

theorem collapse_normalizes_idle : ∃ result, (Data.obj idleRoot).collapse true 4 = .ok result ∧
    (∀ group ∈ result.groups, IsNormal group) ∧ result.collapse false 4 = .ok result := by
  have hok : ((Data.obj idleRoot).collapse true 4).toOption.any (fun _ ↦ true) = true := by
    decide +kernel
  obtain ⟨result, hresult, -⟩ := Except.exists_of_any hok
  exact ⟨result, hresult, collapse_normalizes hresult⟩

end Data

end Motion
