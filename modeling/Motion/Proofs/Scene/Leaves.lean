import Motion.Proofs.Data.Entries
import Motion.Scene.Item
import Mathlib.Data.List.TakeWhile

/-!
The leaves of a scene, each with the groups above it. They are found in a document by following
`items` through groups, where a value that is no list counts as a list of one; the same walk over
items tells of each group what a view of its frame shows. Reading items from a document keeps the
leaves (`Item.leavesIn_itemsOf`), and so does writing them back, as long as every group is one in
the document and holds its items in a list or not at all (`Data.leavesIn_toList`).
-/

set_option autoImplicit false
set_option relaxedAutoImplicit false

namespace Motion

/-- A leaf of a scene with what is known of the groups above it, the outermost first. -/
structure Leaf (α : Type) where
  above : List α
  value : Data

namespace Leaf

variable {α β : Type}

/-- The leaf below one more group. -/
def under (a : α) (leaf : Leaf α) : Leaf α :=
  { leaf with above := a :: leaf.above }

/-- The leaf with something else told of the groups above it. -/
def map (f : α → β) (leaf : Leaf α) : Leaf β :=
  ⟨leaf.above.map f, leaf.value⟩

/-- The leaf without the groups above it that a test rejects. -/
def filter (keep : α → Bool) (leaf : Leaf α) : Leaf α :=
  { leaf with above := leaf.above.filter keep }

theorem filter_under (keep : α → Bool) (a : α) (leaf : Leaf α) :
    (leaf.under a).filter keep =
      if keep a then (leaf.filter keep).under a else leaf.filter keep := by
  cases h : keep a <;> simp [filter, under, h]

/-- Leaves that agree up to rejected groups still do below one more group. -/
theorem map_filter_under {keep : α → Bool} (a : α) {first second : List (Leaf α)}
    (h : first.map (filter keep) = second.map (filter keep)) :
    (first.map (under a)).map (filter keep) = (second.map (under a)).map (filter keep) := by
  have hcomp : filter keep ∘ under a =
      (fun leaf ↦ if keep a then leaf.under a else leaf) ∘ filter keep :=
    funext (filter_under keep a)
  rw [List.map_map, List.map_map, hcomp, ← List.map_map, ← List.map_map, h]

end Leaf

namespace Data

mutual

/-- The leaves of an item, which is a leaf itself unless it is a group. Of a group the members
other than its items are told. -/
def leavesOf : Data → List (Leaf Members)
  | .obj members =>
    if isGroup members then
      (leavesAmong members).map (Leaf.under (Entries.erase members itemsKey))
    else [⟨[], .obj members⟩]
  | value => [⟨[], value⟩]

/-- The leaves under the first member `items`. -/
def leavesAmong : List (String × Data) → List (Leaf Members)
  | [] => []
  | (key, .list items) :: rest => if key = itemsKey then leavesIn items else leavesAmong rest
  | (key, value) :: rest => if key = itemsKey then leavesOf value else leavesAmong rest

def leavesIn : List Data → List (Leaf Members)
  | [] => []
  | value :: rest => leavesOf value ++ leavesIn rest

end

/-- The leaves of a scene tree, below its root. -/
def leaves : Data → List (Leaf Members)
  | .obj members => leavesAmong members
  | _ => []

mutual

/-- The members of the groups from an item on downwards. -/
def groupsOf : Data → List Members
  | .obj members => if isGroup members then members :: groupsAmong members else []
  | _ => []

/-- The groups under the first member `items`. -/
def groupsAmong : List (String × Data) → List Members
  | [] => []
  | (key, .list items) :: rest => if key = itemsKey then groupsIn items else groupsAmong rest
  | (key, value) :: rest => if key = itemsKey then groupsOf value else groupsAmong rest

def groupsIn : List Data → List Members
  | [] => []
  | value :: rest => groupsOf value ++ groupsIn rest

end

/-- The groups of a scene tree, below its root. -/
def groups : Data → List Members
  | .obj members => groupsAmong members
  | _ => []

end Data

namespace Item

variable {α β : Type}

mutual

/-- The leaves of an item, with a view of the frame of each group above. -/
def leaves (view : Frame → α) : Item → List (Leaf α)
  | .leaf value => [⟨[], value⟩]
  | .group frame items => (leavesIn view items).map (Leaf.under (view frame))

def leavesIn (view : Frame → α) : List Item → List (Leaf α)
  | [] => []
  | item :: rest => leaves view item ++ leavesIn view rest

end

mutual

theorem leaves_comp (f : α → β) (view : Frame → α) : ∀ item : Item,
    leaves (f ∘ view) item = (leaves view item).map (Leaf.map f)
  | .leaf _ => rfl
  | .group frame items => by
    rw [leaves, leaves, leavesIn_comp f view items, List.map_map, List.map_map]
    rfl

theorem leavesIn_comp (f : α → β) (view : Frame → α) : ∀ items : List Item,
    leavesIn (f ∘ view) items = (leavesIn view items).map (Leaf.map f)
  | [] => rfl
  | item :: rest => by
    rw [leavesIn, leavesIn, leaves_comp f view item, leavesIn_comp f view rest, List.map_append]

end

mutual

/-- Whether from an item on downwards all leaves are leaves of a document, and all groups satisfy
a condition on their frame and items. -/
def Every (p : Frame → List Item → Prop) : Item → Prop
  | .leaf value => ofData value = .leaf value
  | .group frame items => p frame items ∧ EveryIn p items

def EveryIn (p : Frame → List Item → Prop) : List Item → Prop
  | [] => True
  | item :: rest => Every p item ∧ EveryIn p rest

end

end Item

namespace Frame

/-- The members of a group other than its items. -/
def own (frame : Frame) : Members :=
  Entries.erase frame.members itemsKey

/-- What holds of the frame of a group of a document: it has the type of groups, and its items stand
where the frame says. -/
structure IsGroup (frame : Frame) : Prop where
  type : isGroup frame.members = true
  before : Entries.contains frame.before itemsKey = false
  absent : frame.holding = .absent → Entries.contains frame.after itemsKey = false

theorem IsGroup.listed {frame : Frame} (h : frame.IsGroup) :
    ({ frame with holding := .listed } : Frame).IsGroup :=
  ⟨h.type, h.before, fun habsent ↦ (by cases habsent)⟩

theorem IsGroup.with_tags {frame : Frame} (h : frame.IsGroup) (tags : Option Tagged) :
    ({ frame with tags } : Frame).IsGroup :=
  ⟨h.type, h.before, h.absent⟩

/-- Whether a group holds its items in a list, or holds none at all. -/
def HasList (frame : Frame) (items : List Item) : Prop :=
  frame.holding = .listed ∨ frame.holding = .absent ∧ items = []

end Frame

theorem own_frameOf (members : Members) :
    (frameOf members).own = Entries.erase members itemsKey := by
  induction members with
  | nil => rfl
  | cons member rest ih =>
    by_cases h : member.1 = itemsKey
    · simp [Frame.own, Frame.members, frameOf, Entries.erase, h]
    · simpa [Frame.own, Frame.members, frameOf, Entries.erase, h] using ih

namespace Item

mutual

theorem leaves_ofData : ∀ value : Data, leaves Frame.own (ofData value) = value.leavesOf
  | .obj members => by
    by_cases h : Motion.isGroup members = true
    · rw [ofData, if_pos h, leaves, Data.leavesOf, if_pos h, leavesIn_itemsOf members,
        own_frameOf]
    · rw [ofData, if_neg h, leaves, Data.leavesOf, if_neg h]
  | .null | .bool _ | .num _ | .str _ | .list _ => rfl

theorem leavesIn_itemsOf : ∀ members : List (String × Data),
    leavesIn Frame.own (itemsOf members) = Data.leavesAmong members
  | [] => rfl
  | (key, .list items) :: rest => by
    by_cases h : key = itemsKey
    · rw [itemsOf, if_pos h, Data.leavesAmong, if_pos h, leavesIn_ofList items]
    · rw [itemsOf, if_neg h, Data.leavesAmong, if_neg h, leavesIn_itemsOf rest]
  | (key, .obj members) :: rest => by
    by_cases h : key = itemsKey
    · simp [itemsOf, Data.leavesAmong, h, leavesIn, leaves_ofData (.obj members)]
    · simp [itemsOf, Data.leavesAmong, h, leavesIn_itemsOf rest]
  | (key, .null) :: rest | (key, .bool _) :: rest | (key, .num _) :: rest
  | (key, .str _) :: rest => by
    by_cases h : key = itemsKey
    · simp [itemsOf, Data.leavesAmong, h, leavesIn, ofData, leaves, Data.leavesOf]
    · simp [itemsOf, Data.leavesAmong, h, leavesIn_itemsOf rest]

theorem leavesIn_ofList : ∀ items : List Data,
    leavesIn Frame.own (ofList items) = Data.leavesIn items
  | [] => rfl
  | value :: rest => by
    rw [ofList, leavesIn, Data.leavesIn, leaves_ofData value, leavesIn_ofList rest]

end

end Item

namespace Data

/-- The items that members hold, where a value that is no list counts as a list of one. -/
def heldItems (members : Members) : List Data :=
  match Entries.get? members itemsKey with
  | none => []
  | some (.list items) => items
  | some value => [value]

theorem leavesAmong_eq (members : Members) : leavesAmong members = leavesIn (heldItems members) := by
  induction members with
  | nil => rfl
  | cons member rest ih =>
    obtain ⟨key, value⟩ := member
    by_cases h : key = itemsKey
    · cases value <;> simp [leavesAmong, heldItems, Entries.get?_cons, h, leavesIn]
    · cases value <;> simpa [leavesAmong, heldItems, Entries.get?_cons, h] using ih

theorem groupsAmong_eq (members : Members) : groupsAmong members = groupsIn (heldItems members) := by
  induction members with
  | nil => rfl
  | cons member rest ih =>
    obtain ⟨key, value⟩ := member
    by_cases h : key = itemsKey
    · cases value <;> simp [groupsAmong, heldItems, Entries.get?_cons, h, groupsIn]
    · cases value <;> simpa [groupsAmong, heldItems, Entries.get?_cons, h] using ih

end Data

namespace Frame

/-- The members of a group that is written with the given items. -/
def written (frame : Frame) (items : List Data) : Members :=
  frame.before ++ Item.itemsMember frame.holding items ++ frame.after

theorem isGroup_written {frame : Frame} (h : frame.IsGroup) (items : List Data) :
    isGroup (frame.written items) = true := by
  have hget : Entries.get? (Item.itemsMember frame.holding items) typeKey = none := by
    have hkey : ¬ itemsKey = typeKey := by decide
    cases frame.holding <;> simp [Item.itemsMember, Entries.get?_cons, hkey]
  have hall := h.type
  simpa only [isGroup, written, members, Entries.get?_append, hget, Option.or_none] using hall

theorem erase_written (frame : Frame) (items : List Data) :
    Entries.erase (frame.written items) itemsKey = frame.own := by
  have herase : Entries.erase (Item.itemsMember frame.holding items) itemsKey = [] := by
    cases frame.holding <;> simp [Item.itemsMember, Entries.erase]
  have happend (first second : Members) : Entries.erase (first ++ second) itemsKey =
      Entries.erase first itemsKey ++ Entries.erase second itemsKey := List.filter_append ..
  rw [written, happend, happend, herase, List.append_nil, own, members, happend]

theorem heldItems_written {frame : Frame} (h : frame.IsGroup) {items : List Item}
    (hlist : frame.HasList items) :
    Data.heldItems (frame.written (Item.toList items)) = Item.toList items := by
  have hbefore := (Entries.contains_eq_false_iff _ _).mp h.before
  rcases hlist with hholding | ⟨hholding, rfl⟩
  · simp [Data.heldItems, written, Item.itemsMember, hholding, Entries.get?_append, hbefore,
      Entries.get?_cons]
  · have hafter := (Entries.contains_eq_false_iff _ _).mp (h.absent hholding)
    simp [Data.heldItems, written, Item.itemsMember, hholding, Entries.get?_append, hbefore,
      hafter, Item.toList]

end Frame

namespace Item

mutual

theorem leavesOf_toData : ∀ item : Item,
    Every (fun frame items ↦ frame.IsGroup ∧ frame.HasList items) item →
      item.toData.leavesOf = leaves Frame.own item
  | .leaf value, h => by
    rw [toData, ← leaves_ofData value, show ofData value = .leaf value from h]
  | .group frame items, h => by
    obtain ⟨⟨hgroup, hlist⟩, hitems⟩ := h
    have hleaves := leavesIn_toList items hitems
    rw [← Frame.heldItems_written hgroup hlist, ← Data.leavesAmong_eq] at hleaves
    rw [show toData (.group frame items) = .obj (frame.written (toList items)) from rfl,
      Data.leavesOf, if_pos (Frame.isGroup_written hgroup _), Frame.erase_written, hleaves, leaves]

theorem leavesIn_toList : ∀ items : List Item,
    EveryIn (fun frame items ↦ frame.IsGroup ∧ frame.HasList items) items →
      Data.leavesIn (toList items) = leavesIn Frame.own items
  | [], _ => rfl
  | item :: rest, h => by
    rw [toList, Data.leavesIn, leavesOf_toData item h.1, leavesIn_toList rest h.2, leavesIn]

end

theorem contains_of_absent {members : Members} (h : (frameOf members).holding = .absent) :
    Entries.contains members itemsKey = false := by
  rw [Entries.contains_eq_false_iff]
  cases hget : Entries.get? members itemsKey with
  | none => rfl
  | some value =>
    rw [frameOf, hget] at h
    cases value <;> simp at h

/-- The frame of a group holds every member other than its items. -/
theorem get?_frameOf (members : Members) {key : String} (h : itemsKey ≠ key) :
    Entries.get? (frameOf members).members key = Entries.get? members key := by
  induction members with
  | nil => rfl
  | cons member rest ih =>
    by_cases hitems : member.1 = itemsKey
    · simp [Frame.members, frameOf, Entries.get?_cons, hitems, h]
    · simpa [Frame.members, frameOf, Entries.get?_cons, hitems] using if_congr Iff.rfl rfl ih

theorem isGroup_frameOf {members : Members} (h : Motion.isGroup members = true) :
    (frameOf members).IsGroup where
  type := by
    rw [Motion.isGroup, get?_frameOf members (by decide)]
    exact h
  before := by
    rw [Bool.eq_false_iff, Ne, Entries.contains, List.any_eq_true]
    rintro ⟨member, hmember, hkey⟩
    have hne := List.mem_takeWhile_imp hmember
    simp_all
  absent := by
    intro habsent
    have hsub : (frameOf members).after.Sublist members :=
      (List.drop_sublist _ _).trans (List.dropWhile_sublist _)
    rw [Bool.eq_false_iff, Ne, Entries.contains_iff_mem_keys]
    intro hmem
    have hmembers := (Entries.contains_iff_mem_keys members itemsKey).mpr
      ((hsub.map Prod.fst).subset hmem)
    rw [contains_of_absent habsent] at hmembers
    exact Bool.false_ne_true hmembers

theorem itemsOf_eq (members : Members) : itemsOf members = ofList (Data.heldItems members) := by
  induction members with
  | nil => rfl
  | cons member rest ih =>
    obtain ⟨key, value⟩ := member
    by_cases h : key = itemsKey
    · cases value <;> simp [itemsOf, Data.heldItems, Entries.get?_cons, h, ofList]
    · cases value <;> simpa [itemsOf, Data.heldItems, Entries.get?_cons, h] using ih

theorem itemsOf_of_not_contains {members : Members}
    (h : Entries.contains members itemsKey = false) : itemsOf members = [] := by
  rw [itemsOf_eq, Data.heldItems, (Entries.contains_eq_false_iff members itemsKey).mp h]
  rfl

variable {p : Frame → List Item → Prop}

mutual

/-- What holds of the frames of all groups of a document holds of every group that is read. -/
theorem every_ofData : ∀ value : Data,
    (∀ members ∈ value.groupsOf, Motion.isGroup members = true →
      p (frameOf members) (itemsOf members)) → Every p (ofData value)
  | .obj members, hp => by
    by_cases h : Motion.isGroup members = true
    · rw [Data.groupsOf, if_pos h] at hp
      rw [ofData, if_pos h]
      exact ⟨hp members List.mem_cons_self h,
        everyIn_itemsOf members fun other hother ↦ hp other (List.mem_cons_of_mem _ hother)⟩
    · rw [ofData, if_neg h, Every, ofData, if_neg h]
  | .null, _ | .bool _, _ | .num _, _ | .str _, _ | .list _, _ => rfl

theorem everyIn_itemsOf : ∀ members : List (String × Data),
    (∀ other ∈ Data.groupsAmong members, Motion.isGroup other = true →
      p (frameOf other) (itemsOf other)) →
      EveryIn p (itemsOf members)
  | [], _ => trivial
  | (key, .list items) :: rest, hp => by
    by_cases h : key = itemsKey
    · rw [Data.groupsAmong, if_pos h] at hp
      rw [itemsOf, if_pos h]
      exact everyIn_ofList items hp
    · rw [Data.groupsAmong, if_neg h] at hp
      rw [itemsOf, if_neg h]
      exact everyIn_itemsOf rest hp
  | (key, .obj members) :: rest, hp => by
    by_cases h : key = itemsKey
    · simp only [Data.groupsAmong, h, if_true] at hp
      simp only [itemsOf, h, if_true]
      exact ⟨every_ofData (.obj members) hp, trivial⟩
    · simp only [Data.groupsAmong, h, if_false] at hp
      simp only [itemsOf, h, if_false]
      exact everyIn_itemsOf rest hp
  | (key, .null) :: rest, hp | (key, .bool _) :: rest, hp | (key, .num _) :: rest, hp
  | (key, .str _) :: rest, hp => by
    by_cases h : key = itemsKey
    · simp only [itemsOf, h, if_true]
      exact ⟨rfl, trivial⟩
    · simp only [Data.groupsAmong, h, if_false] at hp
      simp only [itemsOf, h, if_false]
      exact everyIn_itemsOf rest hp

theorem everyIn_ofList : ∀ items : List Data,
    (∀ members ∈ Data.groupsIn items, Motion.isGroup members = true →
      p (frameOf members) (itemsOf members)) →
      EveryIn p (ofList items)
  | [], _ => trivial
  | value :: rest, hp => by
    rw [Data.groupsIn] at hp
    exact ⟨every_ofData value fun members h ↦ hp members (List.mem_append_left _ h),
      everyIn_ofList rest fun members h ↦ hp members (List.mem_append_right _ h)⟩

end

/-- What holds of the frames of all groups of a document holds of the groups below a root that is read,
none of which has items without holding any. -/
theorem everyIn_frames {q : Frame → Prop} {members : Members}
    (h : ∀ other ∈ (Data.obj members).groups, Motion.isGroup other = true → q (frameOf other)) :
    EveryIn (fun frame items ↦ q frame ∧ (frame.holding = .absent → items = []))
      (itemsOf members) :=
  everyIn_itemsOf members fun other hother hgroup ↦ ⟨h other hother hgroup, fun habsent ↦
    itemsOf_of_not_contains (contains_of_absent habsent)⟩

mutual

/-- What holds of every written group holds of all groups of the document. -/
theorem groupsOf_toData {q : Members → Prop}
    (hp : ∀ frame items, p frame items → frame.IsGroup ∧ frame.HasList items ∧
      q (frame.written (toList items))) :
    ∀ item : Item, Every p item → ∀ members ∈ item.toData.groupsOf, q members
  | .leaf (.obj members), h, other, hother => by
    rw [toData, Data.groupsOf] at hother
    by_cases hgroup : Motion.isGroup members = true
    · rw [Every, ofData, if_pos hgroup] at h
      cases h
    · simp [hgroup] at hother
  | .leaf .null, _, _, hother | .leaf (.bool _), _, _, hother | .leaf (.num _), _, _, hother
  | .leaf (.str _), _, _, hother | .leaf (.list _), _, _, hother => by cases hother
  | .group frame items, h, other, hother => by
    obtain ⟨hgroup, hlist, hq⟩ := hp frame items h.1
    rw [show toData (.group frame items) = .obj (frame.written (toList items)) from rfl,
      Data.groupsOf, if_pos (Frame.isGroup_written hgroup _), Data.groupsAmong_eq,
      Frame.heldItems_written hgroup hlist] at hother
    rcases List.mem_cons.mp hother with rfl | hother
    · exact hq
    · exact groupsIn_toList hp items h.2 other hother

theorem groupsIn_toList {q : Members → Prop}
    (hp : ∀ frame items, p frame items → frame.IsGroup ∧ frame.HasList items ∧
      q (frame.written (toList items))) :
    ∀ items : List Item, EveryIn p items → ∀ members ∈ Data.groupsIn (toList items), q members
  | [], _, _, hother => by cases hother
  | item :: rest, h, other, hother => by
    rw [toList, Data.groupsIn, List.mem_append] at hother
    rcases hother with hother | hother
    · exact groupsOf_toData hp item h.1 other hother
    · exact groupsIn_toList hp rest h.2 other hother

end

end Item

end Motion
