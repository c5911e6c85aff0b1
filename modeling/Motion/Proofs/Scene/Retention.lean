import Motion.Document.Hoisting
import Motion.Proofs.Document.Walks
import Motion.Proofs.Scene.Content
import Mathlib.Logic.Relation

/-!
What becomes of the items of a scene. One list of items retains another one (`Data.Retains`) if typed
items have stayed, in their order and with their own items retained in turn, but for groups that have
given way to the one item that they held; items without a type may have gone. The relation is
transitive (`Data.Retains.trans`), so the passes over a document can be told of one by one; and
where all items are typed, down to the last one, they still are in what is retained
(`Data.Retains.isFullyTyped`).
-/

set_option autoImplicit false
set_option relaxedAutoImplicit false

namespace Motion

namespace Data

section Items

/-- The items that a value under `items` stands for: a list holds them, an object is one. Any other
value counts as an item where it is going to be wrapped in a list. -/
def asItems (wraps : Bool) : Data → List Data
  | .list items => items
  | .obj members => [.obj members]
  | value => if wraps then [value] else []

/-- The items right below a value. -/
def contents (wraps : Bool) (value : Data) : List Data :=
  ((value.get? itemsKey).map (asItems wraps)).getD []

/-- Whether a value is an object with the type of groups. -/
def isGroupObject (value : Data) : Bool :=
  match value.get? typeKey with
  | some (.str kind) => kind == groupType
  | _ => false

/-- The items right below an item. Collapsing wraps those of groups only. -/
def itemsBelow (collapse : Bool) (item : Data) : List Data :=
  item.contents (collapse && item.isGroupObject)

theorem contents_of_get? {value found : Data} (h : value.get? itemsKey = some found) (wraps : Bool) :
    value.contents wraps = found.asItems wraps := by
  rw [contents, h]
  rfl

theorem contents_of_none {value : Data} (h : value.get? itemsKey = none) (wraps : Bool) :
    value.contents wraps = [] := by
  rw [contents, h]
  rfl

theorem contents_true (members : Members) : (Data.obj members).contents true = heldItems members := by
  have hall (value : Data) : value.asItems true = value.held := by cases value <;> rfl
  rw [heldItems_eq, contents, get?]
  cases Entries.get? members itemsKey with
  | none => rfl
  | some found => exact hall found

theorem mem_held_of_mem_asItems {wraps : Bool} {value item : Data} (h : item ∈ value.asItems wraps) :
    item ∈ value.held := by
  cases value with
  | list => exact h
  | obj => exact h
  | _ =>
    cases wraps with
    | true => exact h
    | false => cases h

theorem mem_parts_of_mem_contents {wraps : Bool} {value item : Data}
    (h : item ∈ value.contents wraps) : item ∈ value.parts := by
  cases hget : value.get? itemsKey with
  | none =>
    rw [contents_of_none hget] at h
    cases h
  | some found =>
    rw [contents_of_get? hget] at h
    cases value with
    | obj members => exact mem_parts hget (mem_held_of_mem_asItems h)
    | _ => cases hget

/-- What is followed as an item counts as one. -/
theorem mem_contents_of_mem_children {wraps : Bool} {value item : Data} (h : item ∈ value.children) :
    item ∈ value.contents wraps := by
  cases value with
  | obj members =>
    rw [children] at h
    rw [contents, get?]
    split at h
    · rename_i items hget
      rw [hget]
      exact h
    · rename_i inner hget
      rw [hget]
      exact h
    · cases h
  | _ => cases h

end Items

section Likeness

/-- Whether a member is one whose value may be replaced by cleaning. -/
def isReplaceable (member : String × Data) : Bool :=
  [itemKey, "fill", "stroke"].contains member.1 && !member.2.isNull

/-- What stays of a member: its key, and its value unless that may be replaced. -/
def trait (member : String × Data) : String × Option Data :=
  (member.1, if isReplaceable member then none else some member.2)

/-- What stays of the members of an item, its type and its items apart. Where transforms are merged,
groups keep their lasting members only. -/
def traits (merge : Bool) : Data → List (String × Option Data)
  | .obj members =>
    (lasting (merge && isGroup members) (Entries.erase members itemsKey)).map trait
  | _ => []

/-- Whether an item is still the same one: it has its type and its traits, and has items if it had. -/
structure IsAlike (merge : Bool) (item after : Data) : Prop where
  type : after.get? typeKey = item.get? typeKey
  traits : after.traits merge = item.traits merge
  opens : (after.get? itemsKey).isSome = (item.get? itemsKey).isSome

variable {merge : Bool} {item after final : Data}

theorem IsAlike.refl (merge : Bool) (item : Data) : IsAlike merge item item :=
  ⟨rfl, rfl, rfl⟩

theorem IsAlike.trans (hfirst : IsAlike merge item after) (hsecond : IsAlike merge after final) :
    IsAlike merge item final :=
  ⟨hsecond.type.trans hfirst.type, hsecond.traits.trans hfirst.traits,
    hsecond.opens.trans hfirst.opens⟩

theorem IsAlike.isTyped (h : IsAlike merge item after) : after.isTyped = item.isTyped := by
  rw [Data.isTyped, Data.isTyped, h.type]

theorem IsAlike.isGroupObject (h : IsAlike merge item after) :
    after.isGroupObject = item.isGroupObject := by
  rw [Data.isGroupObject, Data.isGroupObject, h.type]

/-- An item is alike if nothing but its items has changed. -/
theorem isAlike_put_items {members : Members} {found : Data}
    (hget : Entries.get? members itemsKey = some found) (value : Data) :
    IsAlike merge (.obj members) (.obj (Entries.put members itemsKey value)) where
  type := Entries.get?_put_of_ne (by decide) members value
  traits := by
    have htype : Entries.get? (Entries.put members itemsKey value) typeKey =
        Entries.get? members typeKey := Entries.get?_put_of_ne (by decide) members value
    rw [Data.traits, Data.traits, Entries.erase_put_self, isGroup_congr htype]
  opens := by
    rw [get?, get?, Entries.get?_put_self, hget]
    rfl

end Likeness

/-- What becomes of the items of a list. Untyped ones may be dropped. The others are kept in their order
as they are, and so are the items below them; but a group that has no traits may be unwrapped where
groups are collapsed: at most one item is left of those below it, and takes its place. -/
inductive Retains (collapse merge : Bool) : List Data → List Data → Prop
  | nil : Retains collapse merge [] []
  | dropped {item : Data} {rest kept : List Data} (huntyped : item.isTyped = false)
      (others : Retains collapse merge rest kept) : Retains collapse merge (item :: rest) kept
  | kept {item after : Data} {rest kept : List Data} (alike : IsAlike merge item after)
      (below : Retains collapse merge (item.itemsBelow collapse) (after.itemsBelow collapse))
      (others : Retains collapse merge rest kept) :
      Retains collapse merge (item :: rest) (after :: kept)
  | unwrapped {group : Data} {inner rest kept : List Data} (hcollapse : collapse = true)
      (hgroup : group.isGroupObject = true) (hidle : group.traits merge = [])
      (hopens : (group.get? itemsKey).isSome = true)
      (below : Retains collapse merge (group.itemsBelow collapse) inner) (hlength : inner.length ≤ 1)
      (others : Retains collapse merge rest kept) :
      Retains collapse merge (group :: rest) (inner ++ kept)

namespace Retains

variable {collapse merge : Bool} {items kept final : List Data}

theorem of_forall {items : List Data}
    (h : ∀ item ∈ items, Retains collapse merge (item.itemsBelow collapse)
      (item.itemsBelow collapse)) : Retains collapse merge items items := by
  induction items with
  | nil => exact .nil
  | cons item rest ih =>
    obtain ⟨hitem, hrest⟩ := List.forall_mem_cons.mp h
    exact .kept (.refl merge item) hitem (ih hrest)

theorem refl (items : List Data) : Retains collapse merge items items := by
  have hcontents (value : Data) : ∀ wraps, Retains collapse merge (value.contents wraps)
      (value.contents wraps) := by
    induction value using parts_induction with
    | step value ih =>
      exact fun wraps ↦ of_forall fun item hitem ↦ ih item (mem_parts_of_mem_contents hitem) _
  exact of_forall fun item _ ↦ hcontents item _

theorem append {others othersKept : List Data} (hfirst : Retains collapse merge items kept)
    (hsecond : Retains collapse merge others othersKept) :
    Retains collapse merge (items ++ others) (kept ++ othersKept) := by
  induction hfirst with
  | nil => exact hsecond
  | dropped huntyped _ ih => exact .dropped huntyped ih
  | kept alike below _ _ ih => exact .kept alike below ih
  | unwrapped hcollapse hgroup hidle hopens below hlength _ _ ih =>
    rw [List.append_assoc]
    exact .unwrapped hcollapse hgroup hidle hopens below hlength ih

/-- What is retained of two lists one after the other. -/
theorem split {others : List Data} (h : Retains collapse merge (items ++ others) kept) :
    ∃ first second, kept = first ++ second ∧ Retains collapse merge items first ∧
      Retains collapse merge others second := by
  induction items generalizing kept with
  | nil => exact ⟨[], kept, rfl, .nil, h⟩
  | cons item rest ih =>
    rw [List.cons_append] at h
    cases h with
    | dropped huntyped hrest =>
      obtain ⟨first, second, rfl, hfirst, hsecond⟩ := ih hrest
      exact ⟨first, second, rfl, .dropped huntyped hfirst, hsecond⟩
    | @kept _ after _ _ alike below hrest =>
      obtain ⟨first, second, rfl, hfirst, hsecond⟩ := ih hrest
      exact ⟨after :: first, second, rfl, .kept alike below hfirst, hsecond⟩
    | @unwrapped _ inner _ _ hcollapse hgroup hidle hopens below hlength hrest =>
      obtain ⟨first, second, rfl, hfirst, hsecond⟩ := ih hrest
      exact ⟨inner ++ first, second, (List.append_assoc _ _ _).symm,
        .unwrapped hcollapse hgroup hidle hopens below hlength hfirst, hsecond⟩

theorem length_le (h : Retains collapse merge items kept) : kept.length ≤ items.length := by
  induction h with
  | nil => exact le_refl 0
  | dropped _ _ ih => exact Nat.le_succ_of_le ih
  | kept _ _ _ _ ih => exact Nat.succ_le_succ ih
  | unwrapped _ _ _ _ _ hlength _ _ ih =>
    rw [List.length_append, List.length_cons]
    omega

theorem trans (hfirst : Retains collapse merge items kept)
    (hsecond : Retains collapse merge kept final) : Retains collapse merge items final := by
  induction hfirst generalizing final with
  | nil => exact hsecond
  | dropped huntyped _ ih => exact .dropped huntyped (ih hsecond)
  | kept alike _ _ ihbelow ihothers =>
    cases hsecond with
    | dropped huntyped hothers => exact .dropped (alike.isTyped ▸ huntyped) (ihothers hothers)
    | kept alikeNext hbelow hothers =>
      exact .kept (alike.trans alikeNext) (ihbelow hbelow) (ihothers hothers)
    | unwrapped hcollapse hgroup hidle hopens hbelow hlength hothers =>
      exact .unwrapped hcollapse (alike.isGroupObject ▸ hgroup) (alike.traits ▸ hidle)
        (alike.opens ▸ hopens) (ihbelow hbelow) hlength (ihothers hothers)
  | unwrapped hcollapse hgroup hidle hopens _ hlength _ ihbelow ihothers =>
    obtain ⟨first, second, rfl, hbelow, hothers⟩ := hsecond.split
    exact .unwrapped hcollapse hgroup hidle hopens (ihbelow hbelow) (hbelow.length_le.trans hlength)
      (ihothers hothers)

/-- One item is retained if it is alike and the items below it are retained. -/
theorem single {item after : Data} (alike : IsAlike merge item after)
    (below : ∀ wraps, Retains collapse merge (item.contents wraps) (after.contents wraps)) :
    Retains collapse merge [item] [after] := by
  refine .kept alike ?_ .nil
  rw [itemsBelow, itemsBelow, alike.isGroupObject]
  exact below _

end Retains

section Typed

/-- Whether an item is typed, and so are all items below it. -/
inductive IsFullyTyped (collapse : Bool) : Data → Prop
  | intro {item : Data} (typed : item.isTyped = true)
      (below : ∀ inner ∈ item.itemsBelow collapse, IsFullyTyped collapse inner) :
      IsFullyTyped collapse item

variable {collapse merge : Bool}

theorem IsFullyTyped.typed {item : Data} (h : IsFullyTyped collapse item) : item.isTyped = true := by
  cases h with
  | intro typed => exact typed

theorem IsFullyTyped.inner {item : Data} (h : IsFullyTyped collapse item) :
    ∀ inner ∈ item.itemsBelow collapse, IsFullyTyped collapse inner := by
  cases h with
  | intro _ below => exact below

/-- Nothing untyped comes up among items that have been retained. -/
theorem Retains.isFullyTyped {items kept : List Data} (h : Retains collapse merge items kept)
    (htyped : ∀ item ∈ items, IsFullyTyped collapse item) :
    ∀ item ∈ kept, IsFullyTyped collapse item := by
  induction h with
  | nil => exact List.forall_mem_nil _
  | dropped _ _ ih => exact ih (List.forall_mem_cons.mp htyped).2
  | kept alike _ _ ihbelow ihothers =>
    obtain ⟨hitem, hrest⟩ := List.forall_mem_cons.mp htyped
    exact List.forall_mem_cons.mpr
      ⟨.intro (alike.isTyped.trans hitem.typed) (ihbelow hitem.inner), ihothers hrest⟩
  | unwrapped _ _ _ _ _ _ _ ihbelow ihothers =>
    obtain ⟨hgroup, hrest⟩ := List.forall_mem_cons.mp htyped
    exact List.forall_mem_append.mpr ⟨ihbelow hgroup.inner, ihothers hrest⟩

/-- Whether a value is reached from another one by following `items`, be it a list or a single
object. -/
def Reaches : Data → Data → Prop :=
  Relation.TransGen fun parent child ↦ child ∈ parent.children

theorem isFullyTyped_of_reaches {wraps : Bool} {value found : Data}
    (htyped : ∀ item ∈ value.contents wraps, IsFullyTyped collapse item)
    (h : value.Reaches found) : IsFullyTyped collapse found := by
  induction h with
  | single hchild => exact htyped _ (mem_contents_of_mem_children hchild)
  | tail _ hchild ih => exact ih.inner _ (mem_contents_of_mem_children hchild)

end Typed

end Data

end Motion
