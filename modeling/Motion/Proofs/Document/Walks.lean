import Motion.Proofs.Document.Tidied
import Motion.Proofs.Scene.Measure

/-!
Walks through a scene that is within the depth limit. Dropping untyped items goes down the levels that
the depth of the tree counts, so that nothing stops it (`Data.dropUntyped_within`). The scan for
easings meets items everywhere; in a straight scene, where items occur on its levels only, it finds no
others (`Data.itemsExceed_of_isStraight`).

The proofs are by induction on the parts of a value (`Data.parts_induction`).
-/

set_option autoImplicit false
set_option relaxedAutoImplicit false

namespace Motion

namespace Data

section Parts

theorem sizeOf_of_mem_held {value item : Data} (h : item ∈ value.held) :
    sizeOf item ≤ sizeOf value := by
  cases value with
  | list items =>
    have hitems : item ∈ items := h
    have hitem := List.sizeOf_lt_of_mem hitems
    simp only [list.sizeOf_spec]
    omega
  | _ => exact (List.mem_singleton.mp h ▸ le_refl _)

/-- The values that a walk can meet right below an object: the values of its members and, of a list
among them, the items. -/
def parts : Data → List Data
  | .obj members => members.flatMap fun member ↦ member.2.held
  | _ => []

theorem mem_parts {members : Members} {key : String} {value item : Data}
    (hget : Entries.get? members key = some value) (h : item ∈ value.held) :
    item ∈ (Data.obj members).parts :=
  List.mem_flatMap.mpr ⟨_, Entries.mem_of_get? hget, h⟩

theorem sizeOf_of_mem_parts {value part : Data} (h : part ∈ value.parts) :
    sizeOf part < sizeOf value := by
  cases value with
  | obj members =>
    obtain ⟨⟨key, value⟩, hmember, hpart⟩ := List.mem_flatMap.mp h
    have hmember := List.sizeOf_lt_of_mem hmember
    have hpart : sizeOf part ≤ sizeOf value := sizeOf_of_mem_held hpart
    simp only [obj.sizeOf_spec, Prod.mk.sizeOf_spec] at hmember ⊢
    omega
  | _ => cases h

/-- What holds of a value as soon as it holds of its parts holds of every value. -/
theorem parts_induction {motive : Data → Prop}
    (step : ∀ value, (∀ part ∈ value.parts, motive part) → motive value) (value : Data) :
    motive value :=
  step value fun part _hpart ↦ parts_induction step part
termination_by sizeOf value
decreasing_by exact sizeOf_of_mem_parts _hpart

end Parts

section Levels

variable {limit depth : ℤ}

/-- Whether a walk that meets a value at the given depth finds no level beyond the limit, neither at
the value nor below. -/
structure IsWithin (limit depth : ℤ) (value : Data) : Prop where
  opens : value.opensLevel = true → depth ≤ limit
  below : value.exceeds limit depth = false

theorem isWithin_of_goesBeyond {child : Data} (h : child.goesBeyond limit depth = false) :
    child.IsWithin limit (depth + 1) := by
  cases hopens : child.opensLevel with
  | false =>
    refine ⟨fun hcontra ↦ absurd (hopens.symm.trans hcontra) Bool.false_ne_true, ?_⟩
    cases child with
    | obj members =>
      have hnone : Entries.get? members itemsKey = none :=
        (Entries.contains_eq_false_iff members itemsKey).mp hopens
      rw [exceeds_eq, children_obj, hnone]
      rfl
    | _ => rfl
  | true =>
    rw [Data.goesBeyond, hopens, Bool.true_and, Bool.or_eq_false_iff, decide_eq_false_iff_not] at h
    exact ⟨fun _ ↦ by omega, h.2⟩

/-- What an object holds under `items` is met one level further down. -/
theorem IsWithin.held {members : Members} (h : (Data.obj members).IsWithin limit depth)
    {value : Data} (hget : Entries.get? members itemsKey = some value) :
    ∀ item ∈ value.held, item.IsWithin limit (depth + 1) := by
  intro item hitem
  have hbelow := h.below
  rw [exceeds_eq, children_obj, hget, List.any_eq_false] at hbelow
  have hstanding (hmem : item ∈ value.standing) : item.IsWithin limit (depth + 1) :=
    isWithin_of_goesBeyond (by simpa using hbelow item hmem)
  cases value with
  | list items => exact hstanding hitem
  | obj others => exact hstanding hitem
  | _ =>
    rw [List.mem_singleton.mp hitem]
    exact ⟨fun hopens ↦ (by cases hopens), rfl⟩

end Levels

section Dropping

variable {limit : ℤ}

theorem dropInMembers_eq (limit depth : ℤ) (members : Members) :
    dropInMembers limit depth members =
      match Entries.get? members itemsKey with
      | some (.list items) =>
        .guarded (checkDepth limit depth) members
          ((dropEach limit (depth + 1) items).map fun kept ↦
            Entries.put members itemsKey (.list kept))
      | _ => .done members := by
  induction members with
  | nil => rfl
  | cons member rest ih =>
    obtain ⟨key, value⟩ := member
    rw [Entries.get?_cons]
    by_cases hkey : key = itemsKey
    · subst hkey
      cases value <;> simp [dropInMembers, Entries.put]
    · have hrest : dropInMembers limit depth ((key, value) :: rest) =
          (dropInMembers limit depth rest).map ((key, value) :: ·) := by
        cases value <;> simp [dropInMembers, hkey]
      rw [hrest, ih, if_neg hkey]
      cases hget : Entries.get? rest itemsKey with
      | none => rfl
      | some found =>
        cases found with
        | list items =>
          simp only [Entries.put, hkey, if_false]
          cases checkDepth limit depth <;> rfl
        | _ => rfl

/-- Dropping goes on below a list under `items` and leaves everything else alone. -/
theorem dropUntyped_obj (limit depth : ℤ) (members : Members) :
    dropUntyped limit depth (.obj members) =
      match Entries.get? members itemsKey with
      | some (.list items) =>
        .guarded (checkDepth limit depth) (.obj members)
          ((dropEach limit (depth + 1) items).map fun kept ↦
            .obj (Entries.put members itemsKey (.list kept)))
      | _ => .done (.obj members) := by
  rw [dropUntyped, dropInMembers_eq]
  cases Entries.get? members itemsKey with
  | none => rfl
  | some found =>
    cases found with
    | list items =>
      dsimp only
      cases checkDepth limit depth <;> rfl
    | _ => rfl

/-- Whether an item is one that dropping takes away. -/
abbrev IsUntyped (item : Data) : Prop :=
  item.isTyped = false

/-- Where nothing stops the dropping below typed items, nothing stops it in their list. -/
theorem dropEach_within {depth : ℤ} : ∀ {items : List Data},
    (∀ item ∈ items, (dropUntyped limit depth item).fault? = none ∧
      item.Tidied IsUntyped (dropUntyped limit depth item).value) →
      (dropEach limit depth items).fault? = none ∧
        (Data.list items).Tidied IsUntyped (.list (dropEach limit depth items).value)
  | [], _ => ⟨rfl, .same _⟩
  | item :: rest, h => by
    obtain ⟨hfirst, hrest⟩ := List.forall_mem_cons.mp h
    obtain ⟨hothers, hlist⟩ := dropEach_within hrest
    rw [dropEach]
    cases htyped : item.isTyped with
    | false => exact ⟨hothers, .drop htyped hlist⟩
    | true =>
      rw [if_pos rfl, Progress.value_cons hfirst.1]
      exact ⟨Progress.fault?_cons_eq_none.mpr ⟨hfirst.1, hothers⟩, .cons hfirst.2 hlist⟩

/-- Within the depth limit nothing stops the dropping of untyped items. -/
theorem dropUntyped_within (value : Data) : ∀ depth : ℤ, value.IsWithin limit depth →
    (dropUntyped limit depth value).fault? = none ∧
      value.Tidied IsUntyped (dropUntyped limit depth value).value := by
  induction value using parts_induction with
  | step value ih =>
    intro depth hwithin
    cases value with
    | obj members =>
      rw [dropUntyped_obj]
      cases hget : Entries.get? members itemsKey with
      | none => exact ⟨rfl, .same _⟩
      | some found =>
        cases found with
        | list items =>
          have hopens : (Data.obj members).opensLevel = true := by
            rw [opensLevel, hasItems, Entries.contains_eq_isSome, hget]
            rfl
          obtain ⟨hfault, htidied⟩ := dropEach_within fun item hitem ↦
            ih item (mem_parts hget hitem) (depth + 1) (hwithin.held hget item hitem)
          dsimp only
          rw [checkDepth_eq_none (hwithin.opens hopens), Progress.guarded_none]
          exact ⟨hfault, .member (Or.inr rfl) hget htidied⟩
        | _ => exact ⟨rfl, .same _⟩
    | _ => exact ⟨rfl, .same _⟩

end Dropping

section Straight

variable {limit : ℤ}

mutual

/-- Whether items occur nowhere below a value but on the levels of its scene, each time once, and no
object of the scene holds a single other one. -/
def isStraight : Data → Bool
  | .obj members => isStraightObject members
  | value => !value.itemsExceed 0 0

def isStraightObject : List (String × Data) → Bool
  | [] => true
  | (key, .list items) :: rest =>
    (if key = itemsKey then isStraightList items && !Entries.contains rest itemsKey
      else key ≠ itemKey && (isPrivate key || !itemsExceedInList 0 0 items))
      && isStraightObject rest
  | (key, value) :: rest =>
    (if key = itemsKey then value.isStraight && !Entries.contains rest itemsKey
      else key ≠ itemKey && (isPrivate key || !value.itemsExceed 0 0))
      && isStraightObject rest

def isStraightList : List Data → Bool
  | [] => true
  | item :: rest => item.isStraight && isStraightList rest

end

theorem isStraightList_eq (items : List Data) : isStraightList items = items.all isStraight := by
  induction items with
  | nil => rfl
  | cons item rest ih => rw [isStraightList, ih, List.all_cons]

theorem isStraightObject_cons (key : String) (value : Data) (rest : Members) :
    isStraightObject ((key, value) :: rest) =
      ((if key = itemsKey then value.held.all isStraight && !Entries.contains rest itemsKey
        else key ≠ itemKey && (isPrivate key || !value.itemsExceed 0 0)) &&
          isStraightObject rest) := by
  cases value with
  | list items => rw [isStraightObject, isStraightList_eq, held, itemsExceed]
  | _ => simp [isStraightObject, held]

mutual

/-- Without items nothing goes beyond any limit. -/
theorem itemsExceed_of_none (limit depth : ℤ) : ∀ value : Data, value.itemsExceed 0 0 = false →
    value.itemsExceed limit depth = false
  | .list items, h => by
    rw [itemsExceed] at h ⊢
    exact itemsExceedInList_of_none limit depth items h
  | .obj members, h => by
    rw [itemsExceed] at h ⊢
    exact itemsExceedInMembers_of_none limit depth members h
  | .null, _ | .bool _, _ | .num _, _ | .str _, _ => by simp [itemsExceed]

theorem itemsExceedInList_of_none (limit depth : ℤ) : ∀ items : List Data,
    itemsExceedInList 0 0 items = false → itemsExceedInList limit depth items = false
  | [], _ => rfl
  | item :: rest, h => by
    rw [itemsExceedInList, Bool.or_eq_false_iff] at h ⊢
    exact ⟨itemsExceed_of_none limit depth item h.1, itemsExceedInList_of_none limit depth rest h.2⟩

theorem itemsExceedInMembers_of_none (limit depth : ℤ) : ∀ members : List (String × Data),
    itemsExceedInMembers 0 0 members = false → itemsExceedInMembers limit depth members = false
  | [], _ => rfl
  | (key, value) :: rest, h => by
    rw [itemsExceedInMembers, Bool.or_eq_false_iff] at h ⊢
    refine ⟨?_, itemsExceedInMembers_of_none limit depth rest h.2⟩
    split_ifs at h ⊢ with hprivate hkey
    · rfl
    · simp at h
    · exact itemsExceed_of_none limit depth value h.1

end

/-- Whether an object holds straight items only, and those under `items`. -/
def hasStraightItems : Data → Bool
  | .obj members =>
    !Entries.contains members itemKey &&
      ((Entries.get? members itemsKey).getD .null).held.all isStraight
  | _ => true

theorem hasStraightItems_obj {members : Members} (h : (Data.obj members).hasStraightItems = true) :
    childKey members = itemsKey ∧ ∀ value, Entries.get? members itemsKey = some value →
      ∀ item ∈ value.held, item.isStraight = true := by
  rw [hasStraightItems, Bool.and_eq_true, Bool.not_eq_true'] at h
  refine ⟨by rw [childKey, h.1]; rfl, fun value hget ↦ ?_⟩
  rw [hget] at h
  exact List.all_eq_true.mp h.2

theorem hasStraightItems_of_isStraight {value : Data} (h : value.isStraight = true) :
    value.hasStraightItems = true := by
  cases value with
  | obj members =>
    rw [isStraight] at h
    rw [hasStraightItems, Bool.and_eq_true, Bool.not_eq_true']
    induction members with
    | nil => exact ⟨rfl, by decide⟩
    | cons member rest ih =>
      obtain ⟨key, value⟩ := member
      rw [isStraightObject_cons, Bool.and_eq_true] at h
      obtain ⟨hitem, hitems⟩ := ih h.2
      have hne : key ≠ itemKey := by
        intro heq
        rw [heq, if_neg (by decide)] at h
        simp at h
      refine ⟨?_, ?_⟩
      · rw [Entries.contains, List.any_cons, Bool.or_eq_false_iff]
        exact ⟨decide_eq_false hne, hitem⟩
      · rw [Entries.get?_cons]
        split_ifs with hkey
        · have hkey : key = itemsKey := hkey
          rw [if_pos hkey, Bool.and_eq_true] at h
          exact h.1.1
        · exact hitems
  | _ => rfl

theorem itemsExceed_of_held {value : Data} {depth : ℤ}
    (h : ∀ item ∈ value.held, item.itemsExceed limit depth = false) :
    value.itemsExceed limit depth = false := by
  cases value with
  | list items =>
    rw [itemsExceed]
    have hitems : ∀ item ∈ items, item.itemsExceed limit depth = false := h
    clear h
    induction items with
    | nil => rfl
    | cons item rest ih =>
      obtain ⟨hfirst, hrest⟩ := List.forall_mem_cons.mp hitems
      rw [itemsExceedInList, hfirst, ih hrest]
      rfl
  | _ => exact h _ (List.mem_singleton.mpr rfl)

/-- A straight object has items under one member only. -/
theorem itemsExceedInMembers_of_isStraight {depth : ℤ} : ∀ {members : Members},
    isStraightObject members = true → (∀ value, Entries.get? members itemsKey = some value →
      depth + 1 ≤ limit ∧ value.itemsExceed limit (depth + 1) = false) →
        itemsExceedInMembers limit depth members = false
  | [], _, _ => rfl
  | (key, value) :: rest, hstraight, hitems => by
    rw [isStraightObject_cons, Bool.and_eq_true] at hstraight
    rw [itemsExceedInMembers, Bool.or_eq_false_iff]
    by_cases hkey : key = itemsKey
    · obtain ⟨hdepth, hvalue⟩ := hitems value (by rw [Entries.get?_cons, if_pos hkey])
      rw [if_pos hkey, Bool.and_eq_true, Bool.not_eq_true'] at hstraight
      refine ⟨?_, itemsExceedInMembers_of_isStraight hstraight.2 fun other hother ↦ ?_⟩
      · rw [if_pos hkey, hvalue, decide_eq_false (by omega)]
        exact ite_self false
      · rw [(Entries.contains_eq_false_iff rest itemsKey).mp hstraight.1.2] at hother
        cases hother
    · rw [if_neg hkey, Bool.and_eq_true, Bool.or_eq_true, Bool.not_eq_true'] at hstraight
      refine ⟨?_, itemsExceedInMembers_of_isStraight hstraight.2 fun other hother ↦ ?_⟩
      · rcases hstraight.1.2 with hprivate | hnone
        · rw [if_pos hprivate]
        · rw [if_neg hkey, itemsExceed_of_none limit depth value hnone]
          exact ite_self false
      · exact hitems other (by rwa [Entries.get?_cons, if_neg hkey])

/-- In a straight scene within the depth limit items nowhere go beyond it. -/
theorem itemsExceed_of_isStraight (value : Data) : ∀ depth : ℤ, value.isStraight = true →
    value.IsWithin limit (depth + 1) → value.itemsExceed limit depth = false := by
  induction value using parts_induction with
  | step value ih =>
    intro depth hstraight hwithin
    cases value with
    | obj members =>
      rw [itemsExceed]
      refine itemsExceedInMembers_of_isStraight hstraight fun value hget ↦ ⟨?_, ?_⟩
      · refine hwithin.opens ?_
        rw [opensLevel, hasItems, Entries.contains_eq_isSome, hget]
        rfl
      · exact itemsExceed_of_held fun item hitem ↦ ih item (mem_parts hget hitem) (depth + 1)
          ((hasStraightItems_obj (hasStraightItems_of_isStraight hstraight)).2 value hget item hitem)
          (hwithin.held hget item hitem)
    | list items =>
      exact itemsExceed_of_none limit depth _ (by simpa [isStraight] using hstraight)
    | _ => simp [itemsExceed]

theorem itemsExceed_of_hasStraightItems {members : Members} {depth : ℤ}
    (h : (Data.obj members).hasStraightItems = true)
    (hwithin : (Data.obj members).IsWithin limit depth) :
    ((Entries.get? members itemsKey).getD .null).itemsExceed limit depth = false := by
  cases hget : Entries.get? members itemsKey with
  | none => simp [itemsExceed]
  | some value =>
    exact itemsExceed_of_held fun item hitem ↦ itemsExceed_of_isStraight item depth
      ((hasStraightItems_obj h).2 value hget item hitem) (hwithin.held hget item hitem)

end Straight

end Data

end Motion
