import Motion.Proofs.Document.Cleaning

/-!
Cleaning a cleaned document. For each stage there is a condition under which it has nothing to do: no
list of the scene holds an untyped item (`Data.dropUntyped_obj_eq_done`), every resource lists easings
in use (`IsPrunedThrough`), and no path that hoisting comes to has a static gradient
(`Data.IsHoisted`). Each stage leaves its condition behind, and what the later stages change breaks
none of those before. So what cleaning leaves is clean (`IsClean`), and nothing is left to do
(`clean_cleaned`).
-/

set_option autoImplicit false
set_option relaxedAutoImplicit false

namespace Motion

namespace Data

section Dropping

variable {limit depth : ℤ} {gone : Data → Prop} {value tidied : Data}

/-- Whether an item stays and nothing is dropped below it. -/
def IsTypedThrough (limit depth : ℤ) (item : Data) : Prop :=
  item.isTyped = true ∧ dropUntyped limit depth item = .done item

theorem length_dropEach_le (limit depth : ℤ) (items : List Data) :
    (dropEach limit depth items).value.length ≤ items.length := by
  induction items with
  | nil => exact le_refl 0
  | cons item rest ih =>
    rw [dropEach]
    split_ifs
    · unfold Progress.cons
      cases (dropUntyped limit depth item).fault? with
      | some fault => exact Nat.succ_le_succ (List.length_filter_le _ _)
      | none => exact Nat.succ_le_succ ih
    · exact Nat.le_succ_of_le ih

/-- Nothing is dropped from a list exactly if all its items stay, whole. -/
theorem dropEach_eq_done {items : List Data} : dropEach limit depth items = .done items ↔
    ∀ item ∈ items, IsTypedThrough limit depth item := by
  induction items with
  | nil => simp [dropEach]
  | cons item rest ih =>
    rw [List.forall_mem_cons, dropEach, IsTypedThrough]
    constructor
    · intro h
      split_ifs at h with htyped
      · have hfault := congrArg Progress.fault? h
        obtain ⟨hfirst, hrest⟩ := Progress.fault?_cons_eq_none.mp hfault
        have hvalue := congrArg Progress.value h
        rw [Progress.value_cons hfirst, Progress.value_done, List.cons.injEq] at hvalue
        refine ⟨⟨htyped, ?_⟩, ih.mp ?_⟩
        · rw [Progress.eq_done hfirst, hvalue.1]
        · rw [Progress.eq_done hrest, hvalue.2]
      · have hlength := length_dropEach_le limit depth rest
        rw [h] at hlength
        exact absurd hlength (Nat.not_succ_le_self _)
    · rintro ⟨⟨htyped, hfirst⟩, hrest⟩
      rw [if_pos htyped, hfirst, ih.mpr hrest]
      rfl

/-- Nothing is dropped below an object exactly if its items stay, whole. -/
theorem dropUntyped_obj_eq_done {members : Members} :
    dropUntyped limit depth (.obj members) = .done (.obj members) ↔
      ∀ items, Entries.get? members itemsKey = some (.list items) →
        checkDepth limit depth = none ∧ ∀ item ∈ items, IsTypedThrough limit (depth + 1) item := by
  rw [dropUntyped_obj]
  constructor
  · intro h items hget
    rw [hget] at h
    obtain ⟨hdepth, hbelow⟩ := Progress.fault?_guarded_eq_none.mp (congrArg Progress.fault? h)
    rw [Progress.fault?_map] at hbelow
    have hvalue := congrArg Progress.value h
    simp only [hdepth, Progress.guarded_none, Progress.value_map, Progress.value_done,
      obj.injEq] at hvalue
    have hitems := Entries.get?_put_self members itemsKey
      (.list (dropEach limit (depth + 1) items).value)
    rw [hvalue, hget, Option.some.injEq, list.injEq] at hitems
    refine ⟨hdepth, dropEach_eq_done.mp ?_⟩
    rw [Progress.eq_done hbelow, ← hitems]
  · intro h
    cases hget : Entries.get? members itemsKey with
    | none => rfl
    | some found =>
      cases found with
      | list items =>
        obtain ⟨hdepth, hitems⟩ := h items hget
        dsimp only
        rw [hdepth, dropEach_eq_done.mpr hitems, Progress.guarded_none, Progress.map,
          Progress.value_done, Entries.put_of_get? hget]
        rfl
      | _ => rfl

theorem isTyped_congr (h : tidied.get? typeKey = value.get? typeKey) :
    tidied.isTyped = value.isTyped := by
  rw [isTyped, isTyped, h]

theorem get?_type_dropUntyped (limit depth : ℤ) (value : Data) :
    (dropUntyped limit depth value).value.get? typeKey = value.get? typeKey := by
  cases value with
  | obj members =>
    rw [dropUntyped_obj]
    cases Entries.get? members itemsKey with
    | none => rfl
    | some found =>
      cases found with
      | list items =>
        dsimp only
        cases checkDepth limit depth with
        | some fault => rfl
        | none => exact Entries.get?_put_of_ne (by decide) members _
      | _ => rfl
  | _ => rfl

/-- Where nothing stops the dropping from a list, nothing stops it below the items that stay. -/
theorem dropEach_isTypedThrough {items : List Data}
    (ih : ∀ item ∈ items, (dropUntyped limit depth item).fault? = none →
      dropUntyped limit depth (dropUntyped limit depth item).value =
        .done (dropUntyped limit depth item).value)
    (h : (dropEach limit depth items).fault? = none) :
    ∀ item ∈ (dropEach limit depth items).value, IsTypedThrough limit depth item := by
  induction items with
  | nil => exact List.forall_mem_nil _
  | cons item rest ihrest =>
    obtain ⟨hitem, hothers⟩ := List.forall_mem_cons.mp ih
    rw [dropEach] at h ⊢
    split_ifs at h ⊢ with htyped
    · obtain ⟨hfirst, hrest⟩ := Progress.fault?_cons_eq_none.mp h
      rw [Progress.value_cons hfirst]
      refine List.forall_mem_cons.mpr ⟨⟨?_, hitem hfirst⟩, ihrest hothers hrest⟩
      rw [isTyped_congr (get?_type_dropUntyped limit depth item), htyped]
    · exact ihrest hothers h

/-- What dropping leaves, it leaves as it is. -/
theorem dropUntyped_dropped (value : Data) : ∀ depth : ℤ,
    (dropUntyped limit depth value).fault? = none →
      dropUntyped limit depth (dropUntyped limit depth value).value =
        .done (dropUntyped limit depth value).value := by
  induction value using parts_induction with
  | step value ih =>
    intro depth h
    cases value with
    | obj members =>
      rw [dropUntyped_obj] at h ⊢
      cases hget : Entries.get? members itemsKey with
      | none =>
        refine dropUntyped_obj_eq_done.mpr fun items hitems ↦ ?_
        rw [hget] at hitems
        cases hitems
      | some found =>
        cases found with
        | list items =>
          rw [hget] at h
          obtain ⟨hdepth, hbelow⟩ := Progress.fault?_guarded_eq_none.mp h
          dsimp only
          rw [hdepth, Progress.guarded_none, Progress.value_map]
          refine dropUntyped_obj_eq_done.mpr fun kept hkept ↦ ⟨hdepth, ?_⟩
          rw [Entries.get?_put_self, Option.some.injEq, list.injEq] at hkept
          rw [← hkept]
          exact dropEach_isTypedThrough (fun item hitem ↦ ih item (mem_parts hget hitem) (depth + 1))
            hbelow
        | _ =>
          refine dropUntyped_obj_eq_done.mpr fun items hitems ↦ ?_
          rw [hget] at hitems
          cases hitems
    | _ => rfl

/-- An item that has a type is an object. -/
theorem held_of_isTyped (h : value.isTyped = true) : value.held = [value] := by
  cases value with
  | list => cases h
  | _ => rfl

theorem Tidied.get?_type (h : Tidied gone value tidied) :
    tidied.get? typeKey = value.get? typeKey := by
  induction h with
  | same | drop | cons => rfl
  | trans _ _ first second => exact second.trans first
  | member hkey => exact Entries.get?_put_of_ne (by rcases hkey with rfl | rfl <;> decide) _ _
  | paint hkey => exact Entries.get?_put_of_ne (by rcases hkey with rfl | rfl <;> decide) _ _

/-- Only a list is tidied to a list. -/
theorem Tidied.exists_list {kept : List Data} (h : Tidied gone value (.list kept)) :
    ∃ items, value = .list items := by
  generalize htidied : Data.list kept = tidied at h
  induction h generalizing kept with
  | same value => exact ⟨kept, htidied.symm⟩
  | trans _ _ first second =>
    obtain ⟨between, hbetween⟩ := second htidied
    exact first hbetween.symm
  | drop | cons => exact ⟨_, rfl⟩
  | member | paint => cases htidied

/-- What an object holds under a member that is followed does not make it an item that goes, nor what
it paints with. -/
theorem isTypedThrough_put {members : Members} {key : String}
    (hkey : key ∈ [itemKey, itemsKey, "fill", "stroke"])
    (h : IsTypedThrough limit depth (.obj members))
    (hitems : key = itemsKey → ∀ kept, tidied = .list kept → checkDepth limit depth = none ∧
      ∀ item ∈ kept, IsTypedThrough limit (depth + 1) item) :
    IsTypedThrough limit depth (.obj (Entries.put members key tidied)) := by
  have htype : key ≠ typeKey := by
    rintro rfl
    exact absurd hkey (by decide)
  refine ⟨?_, dropUntyped_obj_eq_done.mpr fun kept hkept ↦ ?_⟩
  · have hsame : (Data.obj (Entries.put members key tidied)).get? typeKey =
        (Data.obj members).get? typeKey := Entries.get?_put_of_ne htype members tidied
    rw [isTyped_congr hsame]
    exact h.1
  · rw [Entries.get?_put] at hkept
    split_ifs at hkept with hsame
    · exact hitems hsame kept (Option.some.inj hkept)
    · exact dropUntyped_obj_eq_done.mp h.2 kept hkept

/-- Where nothing is dropped from a scene, nothing is dropped once its gradients have been replaced. -/
theorem Tidied.isTypedThrough (h : Tidied (fun _ ↦ False) value tidied) : ∀ depth : ℤ,
    (∀ item ∈ value.held, IsTypedThrough limit depth item) →
      ∀ item ∈ tidied.held, IsTypedThrough limit depth item := by
  induction h with
  | same => exact fun _ h ↦ h
  | trans _ _ first second => exact fun depth h ↦ second depth (first depth h)
  | drop hgone => exact hgone.elim
  | @cons item tidied rest kept hfirst _ first others =>
    intro depth h
    obtain ⟨hitem, hrest⟩ := List.forall_mem_cons.mp h
    refine List.forall_mem_cons.mpr ⟨?_, others depth hrest⟩
    have htyped : tidied.isTyped = true := (isTyped_congr hfirst.get?_type).trans hitem.1
    rw [held_of_isTyped hitem.1, held_of_isTyped htyped] at first
    exact first depth (List.forall_mem_singleton.mpr hitem) tidied List.mem_cons_self
  | @member members key value tidied hkey hget htidied below =>
    intro depth h
    refine List.forall_mem_singleton.mpr ?_
    have hobject := h _ (List.mem_singleton.mpr rfl)
    refine isTypedThrough_put (by rcases hkey with rfl | rfl <;> decide) hobject ?_
    rintro rfl kept rfl
    obtain ⟨items, rfl⟩ := htidied.exists_list
    obtain ⟨hdepth, hitems⟩ := dropUntyped_obj_eq_done.mp hobject.2 items hget
    exact ⟨hdepth, below (depth + 1) hitems⟩
  | paint hkey =>
    intro depth h
    refine List.forall_mem_singleton.mpr ?_
    refine isTypedThrough_put (by rcases hkey with rfl | rfl <;> decide)
      (h _ (List.mem_singleton.mpr rfl)) ?_
    rintro rfl
    exact absurd hkey (by decide)

end Dropping

section Scanning

variable {limit depth : ℤ} {gone : Data → Prop} {value tidied : Data}

theorem itemsExceedInMembers_put {members : Members} {key : String}
    (hget : Entries.get? members key = some value)
    (hvalue : ∀ depth, tidied.itemsExceed limit depth = true → value.itemsExceed limit depth = true)
    (h : itemsExceedInMembers limit depth (Entries.put members key tidied) = true) :
    itemsExceedInMembers limit depth members = true := by
  induction members with
  | nil => cases hget
  | cons member rest ih =>
    obtain ⟨first, found⟩ := member
    rw [Entries.get?_cons] at hget
    rw [Entries.put] at h
    split_ifs at hget h with hkey
    · cases hget
      cases hkey
      rw [itemsExceedInMembers, Bool.or_eq_true] at h ⊢
      refine h.imp_left fun hfirst ↦ ?_
      split_ifs at hfirst ⊢
      · rw [Bool.or_eq_true] at hfirst ⊢
        exact hfirst.imp_right (hvalue _)
      · exact hvalue _ hfirst
    · rw [itemsExceedInMembers, Bool.or_eq_true] at h ⊢
      exact h.imp_right (ih hget)

/-- Tidying brings no items beyond the limit. -/
theorem Tidied.itemsExceed (h : Tidied gone value tidied) (limit : ℤ) : ∀ depth,
    tidied.itemsExceed limit depth = true → value.itemsExceed limit depth = true := by
  induction h with
  | same => exact fun _ h ↦ h
  | trans _ _ first second => exact fun depth h ↦ first depth (second depth h)
  | drop _ _ others =>
    intro depth h
    have hrest := others depth h
    rw [Data.itemsExceed] at hrest ⊢
    rw [itemsExceedInList, Bool.or_eq_true]
    exact Or.inr hrest
  | cons _ _ first others =>
    intro depth h
    have hrest := others depth
    rw [Data.itemsExceed] at hrest
    rw [Data.itemsExceed, itemsExceedInList, Bool.or_eq_true] at h ⊢
    exact h.imp (first depth) hrest
  | member _ hget _ below =>
    intro depth h
    rw [Data.itemsExceed] at h ⊢
    exact itemsExceedInMembers_put hget below h
  | paint _ hget =>
    intro depth h
    rw [Data.itemsExceed] at h ⊢
    exact itemsExceedInMembers_put hget (fun _ h ↦ by simp [Data.itemsExceed] at h) h

end Scanning

section Hoisting

variable {limit depth : ℤ} {listing : GradientListing} {members : Members} {key : String}

/-- Whether hoisting changes nothing from a value on downwards. -/
def IsSettled (limit depth : ℤ) (value : Data) : Prop :=
  ∀ again, hoist limit depth again value = .done (value, again)

/-- Whether hoisting finds nothing to do at an object: a path has no static gradient, and below the
member by which it goes on from another object it changes nothing. -/
structure IsHoisted (limit depth : ℤ) (members : Members) : Prop where
  paints : isPath members = true → ∀ key, key = "fill" ∨ key = "stroke" →
    ∀ paint, Entries.get? members key = some paint → paint.isStaticGradient = false
  below : isPath members = false → ∀ value, Entries.get? members (childKey members) = some value →
    checkDepth limit depth = none ∧ ∀ again,
      hoistMember limit (depth + 1) again (childKey members) value = .done (value, again)

theorem hoistPaint_eq_done (h : ∀ paint, Entries.get? members key = some paint →
    paint.isStaticGradient = false) (again : GradientListing) :
    hoistPaint again members key = .done (members, again) := by
  unfold hoistPaint
  cases hget : Entries.get? members key with
  | none => rfl
  | some paint =>
    dsimp only
    rw [h paint hget]
    rfl

theorem IsHoisted.isSettled (h : IsHoisted limit depth members) :
    IsSettled limit depth (.obj members) := by
  intro again
  rw [hoist_obj]
  cases hpath : isPath members with
  | true =>
    rw [if_pos rfl, hoistPaints, hoistPaint_eq_done (h.paints hpath _ (Or.inl rfl)),
      Progress.andThen_done]
    dsimp only
    rw [hoistPaint_eq_done (h.paints hpath _ (Or.inr rfl))]
    rfl
  | false =>
    rw [if_neg Bool.false_ne_true]
    cases hget : Entries.get? members (childKey members) with
    | none => rfl
    | some value =>
      obtain ⟨hdepth, hbelow⟩ := h.below hpath value hget
      dsimp only
      rw [hdepth, hbelow, Progress.guarded_none, Progress.map, Progress.value_done,
        Entries.put_of_get? hget]
      rfl

/-- The members by which hoisting goes on, or which it paints, tell whether there is something to
do. -/
theorem IsHoisted.congr {others : Members} (hsame : ∀ key ∈ [typeKey, itemKey, itemsKey, "fill",
    "stroke"], Entries.get? others key = Entries.get? members key)
    (h : IsHoisted limit depth members) : IsHoisted limit depth others := by
  obtain ⟨hpath, hkey, hchild⟩ := followed_congr hsame
  constructor
  · rw [hpath]
    intro htrue key hpaint paint hget
    rw [hsame key (by rcases hpaint with rfl | rfl <;> decide)] at hget
    exact h.paints htrue key hpaint paint hget
  · rw [hpath, hkey, hchild]
    exact h.below

/-- A token is no gradient. -/
theorem isStaticGradient_hoistPaint (h : (hoistPaint listing members key).fault? = none)
    (paint : Data)
    (hget : Entries.get? (hoistPaint listing members key).value.1 key = some paint) :
    paint.isStaticGradient = false := by
  unfold hoistPaint at h hget
  cases hfound : Entries.get? members key with
  | none => simp [hfound] at hget
  | some found =>
    simp only [hfound] at h hget
    cases hstatic : found.isStaticGradient with
    | false =>
      simp only [hstatic, Bool.false_eq_true, if_false, Progress.value_done, hfound,
        Option.some.injEq] at hget
      rwa [← hget]
    | true =>
      simp only [hstatic, if_true] at h hget
      cases hadd : listing.add found with
      | error fault => simp [hadd, Progress.stopped] at h
      | ok added =>
        simp only [hadd, Progress.value_done, Entries.get?_put_self, Option.some.injEq] at hget
        rw [← hget]
        rfl

theorem isHoisted_hoistPaints (hpath : isPath members = true)
    (h : (hoistPaints listing members).fault? = none) :
    IsHoisted limit depth (hoistPaints listing members).value.1 := by
  have hpainted := isPath_hoistPaints hpath h
  obtain ⟨hfill, hthen⟩ := hoistPaints_eq h
  rw [hthen] at h hpainted ⊢
  refine ⟨?_, fun hnot ↦ absurd (hpainted.symm.trans hnot) (by decide)⟩
  rintro - key (rfl | rfl) paint hget
  · rw [get?_hoistPaint _ _ (by decide)] at hget
    exact isStaticGradient_hoistPaint hfill paint hget
  · exact isStaticGradient_hoistPaint h paint hget

theorem childKey_put (members : Members) (value : Data) :
    childKey (Entries.put members (childKey members) value) = childKey members := by
  rcases childKey_cases members with ⟨hkey, hitem⟩ | ⟨hkey, hitem⟩
  · rw [hkey, childKey, Entries.contains_put, decide_eq_true rfl]
    rfl
  · rw [hkey, childKey, Entries.contains_put, hitem]
    rfl

theorem isPath_put (members : Members) (value : Data) :
    isPath (Entries.put members (childKey members) value) = isPath members := by
  have hne : childKey members ≠ typeKey := by
    rcases childKey_cases members with ⟨hkey, -⟩ | ⟨hkey, -⟩ <;> rw [hkey] <;> decide
  rw [isPath, isPath, Entries.get?_put_of_ne hne]

theorem hoistEach_settled {items : List Data} (ih : ∀ item ∈ items, ∀ listing,
    (hoist limit depth listing item).fault? = none →
      IsSettled limit depth (hoist limit depth listing item).value.1)
    (h : (hoistEach limit depth listing items).fault? = none) (again : GradientListing) :
    hoistEach limit depth again (hoistEach limit depth listing items).value.1 =
      .done ((hoistEach limit depth listing items).value.1, again) := by
  induction items generalizing listing with
  | nil => rfl
  | cons item rest ihrest =>
    obtain ⟨hitem, hothers⟩ := List.forall_mem_cons.mp ih
    rw [hoistEach] at h ⊢
    cases hfirst : (hoist limit depth listing item).fault? with
    | some fault => simp [hfirst, Progress.stopped] at h
    | none =>
      simp only [hfirst, Progress.fault?_map, Progress.value_map] at h ⊢
      rw [hoistEach, hitem listing hfirst again]
      simp only [Progress.fault?_done, Progress.value_done, ihrest hothers h]
      rfl

/-- Below the member by which it goes on, hoisting leaves what it has left. -/
theorem hoistMember_settled {value : Data} (ih : ∀ item ∈ value.held, ∀ listing,
    (hoist limit depth listing item).fault? = none →
      IsSettled limit depth (hoist limit depth listing item).value.1)
    (h : (hoistMember limit depth listing key value).fault? = none) (again : GradientListing) :
    hoistMember limit depth again key (hoistMember limit depth listing key value).value.1 =
      .done ((hoistMember limit depth listing key value).value.1, again) := by
  cases value with
  | list items =>
    rw [hoistMember] at h ⊢
    split_ifs at h ⊢ with hkey
    · rw [Progress.fault?_map] at h
      have heach : hoistEach limit depth again (hoistEach limit depth listing items).value.1 =
          .done ((hoistEach limit depth listing items).value.1, again) :=
        hoistEach_settled ih h again
      rw [Progress.value_map, hoistMember, if_pos hkey, heach]
      rfl
    · rw [Progress.value_done, hoistMember, if_neg hkey]
  | obj members =>
    have hobject : ∃ others, (hoist limit depth listing (.obj members)).value.1 = .obj others := by
      rw [hoist]
      split_ifs <;> exact ⟨_, rfl⟩
    obtain ⟨others, hothers⟩ := hobject
    have hsettled := ih _ (List.mem_singleton.mpr rfl) listing h
    have hmember : hoistMember limit depth listing key (.obj members) =
        hoist limit depth listing (.obj members) := rfl
    rw [hothers] at hsettled
    rw [hmember, hothers]
    exact hsettled again
  | _ => rfl

/-- An object from which hoisting has gone down leaves it nothing to do. -/
theorem hoist_obj_isHoisted (ih : ∀ part ∈ (Data.obj members).parts, ∀ listing,
    (hoist limit (depth + 1) listing part).fault? = none →
      IsSettled limit (depth + 1) (hoist limit (depth + 1) listing part).value.1)
    (h : (hoist limit depth listing (.obj members)).fault? = none) :
    ∃ others, (hoist limit depth listing (.obj members)).value.1 = .obj others ∧
      IsHoisted limit depth others := by
  rw [hoist_obj] at h ⊢
  cases hpath : isPath members with
  | true =>
    rw [if_pos hpath, Progress.fault?_map] at h
    exact ⟨_, rfl, isHoisted_hoistPaints hpath h⟩
  | false =>
    rw [hpath, if_neg Bool.false_ne_true] at h
    rw [if_neg Bool.false_ne_true]
    cases hget : Entries.get? members (childKey members) with
    | none =>
      refine ⟨members, rfl, fun htrue ↦ absurd (hpath.symm.trans htrue) (by decide), ?_⟩
      intro _ value hvalue
      rw [hget] at hvalue
      cases hvalue
    | some value =>
      rw [hget] at h
      obtain ⟨hdepth, hbelow⟩ := Progress.fault?_guarded_eq_none.mp h
      rw [Progress.fault?_map] at hbelow
      dsimp only
      rw [hdepth, Progress.guarded_none]
      refine ⟨_, rfl, fun htrue ↦ ?_, fun _ found hfound ↦ ⟨hdepth, ?_⟩⟩
      · rw [isPath_put, hpath] at htrue
        cases htrue
      · rw [childKey_put, Entries.get?_put_self, Option.some.injEq] at hfound
        rw [childKey_put, ← hfound]
        exact hoistMember_settled (fun item hitem ↦ ih item (mem_parts hget hitem)) hbelow

/-- What hoisting leaves, it leaves as it is. -/
theorem hoist_settled (value : Data) : ∀ (depth : ℤ) (listing : GradientListing),
    (hoist limit depth listing value).fault? = none →
      IsSettled limit depth (hoist limit depth listing value).value.1 := by
  induction value using parts_induction with
  | step value ih =>
    intro depth listing h
    cases value with
    | obj members =>
      obtain ⟨others, hothers, hhoisted⟩ :=
        hoist_obj_isHoisted (fun part hpart ↦ ih part hpart (depth + 1)) h
      rw [hothers]
      exact hhoisted.isSettled
    | _ => exact fun _ ↦ rfl

end Hoisting

end Data

section Pruning

variable {used : List String} {table : EasingTable} {resource : Data} {resources : List Data}

/-- Whether pruning finds nothing to do in a resource: the names that it lists are in use. -/
def ListsUsed (used : List String) (resource : Data) : Prop :=
  ∀ listing, resource.get? EasingTable.easingKey = some listing →
    (!listing.isTruthy || allUsed used listing) = true

theorem allUsed_obj (listing : Members) : allUsed used (.obj listing) =
    listing.all fun easing ↦ used.contains (tokenOf easing.1) := by
  simp only [allUsed, Data.elements?, List.all_map]
  rfl

theorem pruneListing_eq_self {listing : Members} (h : allUsed used (.obj listing) = true)
    (again : EasingTable) : pruneListing used again listing = (listing, again) := by
  rw [allUsed_obj] at h
  induction listing with
  | nil => rfl
  | cons easing rest ih =>
    rw [List.all_cons, Bool.and_eq_true] at h
    rw [pruneListing, if_pos h.1, ih h.2]

theorem pruneResource_eq_done (h : ListsUsed used resource) (again : EasingTable) :
    pruneResource used again resource = .done (resource, again) := by
  unfold pruneResource
  split
  · rename_i members listing hget
    have hall : allUsed used (.obj listing) = true := by
      cases listing with
      | nil => rfl
      | cons => exact h _ hget
    dsimp only
    rw [pruneListing_eq_self hall, Entries.put_of_get? hget]
  · rename_i listing _ hget
    rw [h listing hget]
    rfl
  · rfl

/-- What is left of a listing is in use. -/
theorem listsUsed_pruneResource (h : (pruneResource used table resource).fault? = none) :
    ListsUsed used (pruneResource used table resource).value.1 := by
  unfold pruneResource at h ⊢
  split
  · rename_i members listing hget
    intro pruned hpruned
    have hvalue : pruned = .obj (pruneListing used table listing).1 :=
      (Option.some.inj ((Entries.get?_put_self members _ _).symm.trans hpruned)).symm
    rw [hvalue, allUsed_obj, pruneListing_eq, Bool.or_eq_true]
    exact Or.inr (List.all_eq_true.mpr fun easing heasing ↦ (List.mem_filter.mp heasing).2)
  · rename_i listing hobject hget
    obtain ⟨members, rfl⟩ := Data.exists_of_get? hget
    split_ifs with hused
    · intro found hfound
      rw [Progress.value_done, hget, Option.some.injEq] at hfound
      rwa [← hfound]
    · rw [hget] at h
      cases listing with
      | obj easings => exact absurd rfl (hobject members easings rfl)
      | _ => simp [hused, Progress.stopped] at h
  · rename_i hget
    intro listing hlisting
    rw [Progress.value_done, hget] at hlisting
    cases hlisting

theorem pruneResources_eq_done (h : ∀ resource ∈ resources, ListsUsed used resource)
    (again : EasingTable) : pruneResources used again resources = .done (resources, again) := by
  induction resources with
  | nil => rfl
  | cons resource rest ih =>
    obtain ⟨hfirst, hrest⟩ := List.forall_mem_cons.mp h
    rw [pruneResources, pruneResource_eq_done hfirst]
    simp only [Progress.fault?_done, Progress.value_done, ih hrest]
    rfl

theorem listsUsed_pruneResources (h : (pruneResources used table resources).fault? = none) :
    ∀ resource ∈ (pruneResources used table resources).value.1, ListsUsed used resource := by
  induction resources generalizing table with
  | nil => exact List.forall_mem_nil _
  | cons resource rest ih =>
    rw [pruneResources] at h ⊢
    cases hfirst : (pruneResource used table resource).fault? with
    | some fault => simp [hfirst, Progress.stopped] at h
    | none =>
      simp only [hfirst, Progress.fault?_map, Progress.value_map] at h ⊢
      exact List.forall_mem_cons.mpr ⟨listsUsed_pruneResource hfirst, ih h⟩

/-- Stored gradients are in nobody's way. -/
theorem listsUsed_storeGradients (gradients : Members)
    (h : ∀ resource ∈ resources, ListsUsed used resource) :
    ∀ resource ∈ storeGradients gradients resources, ListsUsed used resource := by
  induction resources with
  | nil =>
    refine List.forall_mem_singleton.mpr fun listing hlisting ↦ ?_
    cases hlisting
  | cons resource rest ih =>
    obtain ⟨hfirst, hrest⟩ := List.forall_mem_cons.mp h
    cases resource with
    | obj members =>
      rw [storeGradients]
      split_ifs
      · refine List.forall_mem_cons.mpr ⟨fun listing hlisting ↦ hfirst listing ?_, hrest⟩
        rwa [Data.get?, Entries.get?_put_of_ne (by decide)] at hlisting
      · exact List.forall_mem_cons.mpr ⟨hfirst, ih hrest⟩
    | _ => exact List.forall_mem_cons.mpr ⟨hfirst, ih hrest⟩

end Pruning

section Documents

variable {limit : ℤ} {table : EasingTable} {members others : Members}

/-- Whether pruning finds nothing to do in a document. -/
structure IsPrunedThrough (limit : ℤ) (members : Members) : Prop where
  exceeds : (Data.scene members).itemsExceed limit 0 = false
  listed : ∀ resources, Entries.get? members resourcesKey = some (.list resources) →
    ∀ resource ∈ resources, ListsUsed (Data.scene members).easingTokens.eraseDups resource
  walked : ∀ resources, Entries.get? members resourcesKey = some resources →
    (resources.isTruthy && resources.elements?.isNone) = false

theorem IsPrunedThrough.pruneEasings_eq_done (h : IsPrunedThrough limit members)
    (again : EasingTable) :
    pruneEasings limit again (.obj members) = .done (.obj members, again) := by
  have hused : ((Entries.get? members itemsKey).getD .null).usedEasings limit =
      .ok (Data.scene members).easingTokens.eraseDups := by
    have hexceeds : ((Entries.get? members itemsKey).getD .null).itemsExceed limit 0 = false :=
      h.exceeds
    rw [Data.usedEasings, hexceeds]
    rfl
  unfold pruneEasings
  dsimp only
  rw [hused]
  cases hget : Entries.get? members resourcesKey with
  | none => rfl
  | some found =>
    cases found with
    | list resources =>
      simp only [Option.getD_some, pruneResources_eq_done (h.listed _ hget)]
      rw [Progress.map, Progress.value_done, Entries.put_of_get? hget]
      rfl
    | _ =>
      have hwalked := h.walked _ hget
      simp only [Option.getD_some, hwalked]
      rfl

/-- A document whose easings have been pruned leaves pruning nothing to do. -/
theorem isPrunedThrough_pruneEasings
    (h : (pruneEasings limit table (.obj members)).fault? = none) :
    ∃ pruned, (pruneEasings limit table (.obj members)).value.1 = .obj pruned ∧
      IsPrunedThrough limit pruned ∧
      ∀ key ≠ resourcesKey, Entries.get? pruned key = Entries.get? members key := by
  obtain ⟨pruned, hvalue, hpruning⟩ := pruneEasings_isPruning h
  have hscene : Data.scene pruned = Data.scene members := by
    rw [Data.scene, Data.scene, hpruning.other _ (by decide)]
  refine ⟨pruned, hvalue, ?_, hpruning.other⟩
  unfold pruneEasings Data.usedEasings at h hvalue
  dsimp only at h hvalue
  split_ifs at h hvalue with hexceed
  · cases h
  have hexceeds : (Data.scene pruned).itemsExceed limit 0 = false := by
    rw [hscene]
    exact Bool.eq_false_iff.mpr hexceed
  cases hget : Entries.get? members resourcesKey with
  | none =>
    rw [hget] at hvalue
    cases hvalue
    exact ⟨hexceeds, fun _ hlist ↦ by simp [hget] at hlist, fun _ hlist ↦ by simp [hget] at hlist⟩
  | some found =>
    rw [hget, Option.getD_some] at h hvalue
    cases found with
    | list resources =>
      cases hvalue
      refine ⟨hexceeds, fun kept hkept ↦ ?_, fun kept hkept ↦ ?_⟩
      · rw [Entries.get?_put_self, Option.some.injEq, Data.list.injEq] at hkept
        rw [hscene, ← hkept]
        exact listsUsed_pruneResources h
      · rw [Entries.get?_put_self, Option.some.injEq] at hkept
        rw [← hkept]
        exact Bool.and_false _
    | _ =>
      dsimp only at h hvalue
      split_ifs at h hvalue with hstops
      · cases h
      · cases hvalue
        refine ⟨hexceeds, fun _ hlist ↦ by simp [hget] at hlist, fun resources hresources ↦ ?_⟩
        rw [hget, Option.some.injEq] at hresources
        rw [← hresources]
        exact Bool.eq_false_iff.mpr hstops

theorem get?_intoDocument_of_ne (listing : GradientListing) (members : Members) {key : String}
    (hkey : key ≠ resourcesKey) :
    Entries.get? (listing.intoDocument members) key = Entries.get? members key := by
  unfold GradientListing.intoDocument
  split
  · exact Entries.get?_put_of_ne hkey.symm members _
  · rfl

/-- Hoisting leaves pruning nothing to do where it had nothing to do. -/
theorem IsPrunedThrough.intoDocument (h : IsPrunedThrough limit members)
    (hscene : (Data.scene members).Tidied (fun _ ↦ False) (Data.scene others))
    (hresources : Entries.get? others resourcesKey = Entries.get? members resourcesKey)
    (listing : GradientListing) : IsPrunedThrough limit (listing.intoDocument others) := by
  have htokens := hscene.easingTokens fun _ ↦ False.elim
  have hinto : Data.scene (listing.intoDocument others) = Data.scene others := by
    rw [Data.scene, Data.scene, get?_intoDocument_of_ne _ _ (by decide)]
  have hexceeds : (Data.scene others).itemsExceed limit 0 = false := by
    rw [Bool.eq_false_iff]
    intro hexceed
    exact Bool.eq_false_iff.mp h.exceeds (hscene.itemsExceed limit 0 hexceed)
  refine ⟨hinto ▸ hexceeds, ?_, ?_⟩
  · rw [hinto, htokens]
    unfold GradientListing.intoDocument
    split
    · intro kept hkept
      rw [Entries.get?_put_self, Option.some.injEq, Data.list.injEq, hresources] at hkept
      rw [← hkept]
      refine listsUsed_storeGradients _ ?_
      cases hget : Entries.get? members resourcesKey with
      | none => exact List.forall_mem_nil _
      | some found =>
        cases found with
        | list resources => exact h.listed resources hget
        | _ => exact List.forall_mem_nil _
    · rw [hresources]
      exact h.listed
  · unfold GradientListing.intoDocument
    split
    · intro kept hkept
      rw [Entries.get?_put_self, Option.some.injEq] at hkept
      rw [← hkept]
      exact Bool.and_false _
    · rw [hresources]
      exact h.walked

end Documents

section Cleaning

variable {limit : ℤ} {table pruned : EasingTable} {members : Members} {cleaned : Data}

/-- A listing that has stored nothing leaves the document as it is. -/
theorem intoDocument_unused {listing : GradientListing} (h : listing.used = false)
    (members : Members) : listing.intoDocument members = members := by
  unfold GradientListing.intoDocument
  rw [h]

theorem hoistGradients_eq_done (h : Data.IsHoisted limit 0 members) :
    hoistGradients limit (.obj members) = .done (.obj members) := by
  rw [hoistGradients, h.isSettled]
  exact congrArg (fun others ↦ Progress.done (Data.obj others)) (intoDocument_unused rfl members)

/-- The stages of a cleaning that goes through. -/
theorem clean_eq_done (h : clean limit table (.obj members) = .done (cleaned, pruned)) :
    ∃ typed listed, ((Data.obj members).dropUntypedItems limit) = .done (.obj typed) ∧
      pruneEasings limit table (.obj typed) = .done (.obj listed, pruned) ∧
      hoistGradients limit (.obj listed) = .done cleaned := by
  obtain ⟨typed, htyped, -⟩ := dropUntypedItems_obj limit members
  cases hdropped : ((Data.obj members).dropUntypedItems limit).fault? with
  | some fault => simp [clean, hdropped, Progress.stopped, Progress.done] at h
  | none =>
    have hdone : (Data.obj members).dropUntypedItems limit = .done (.obj typed) := by
      rw [Progress.eq_done hdropped, htyped]
    rw [clean_of_dropped table hdone] at h
    cases hpruned : (pruneEasings limit table (.obj typed)).fault? with
    | some fault => simp [hpruned, Progress.stopped, Progress.done] at h
    | none =>
      obtain ⟨listed, hlisted, -⟩ := pruneEasings_isPruning hpruned
      rw [hpruned, hlisted] at h
      dsimp only at h
      have hfault := congrArg Progress.fault? h
      have hvalue := congrArg Progress.value h
      rw [Progress.fault?_map] at hfault
      rw [Progress.value_map, Progress.value_done, Prod.mk.injEq] at hvalue
      refine ⟨typed, listed, hdone, ?_, ?_⟩
      · rw [Progress.eq_done hpruned, ← hlisted, ← hvalue.2]
      · rw [Progress.eq_done hfault, hvalue.1]

/-- Whether cleaning finds nothing to do in a document. -/
structure IsClean (limit : ℤ) (members : Members) : Prop where
  typed : Data.dropUntyped limit 0 (.obj members) = .done (.obj members)
  listed : IsPrunedThrough limit members
  hoisted : Data.IsHoisted limit 0 members

theorem IsClean.clean_eq_done (h : IsClean limit members) (again : EasingTable) :
    clean limit again (.obj members) = .done (.obj members, again) := by
  have htyped : (Data.obj members).dropUntypedItems limit = .done (.obj members) := h.typed
  rw [clean, htyped]
  simp only [Progress.fault?_done, Progress.value_done, h.listed.pruneEasings_eq_done,
    hoistGradients_eq_done h.hoisted]
  rfl

/-- Where nothing is dropped from a document, nothing is dropped once its gradients have been
replaced. -/
theorem dropUntyped_of_tidied {others : Members}
    (hscene : (Data.scene members).Tidied (fun _ ↦ False) (Data.scene others))
    (h : Data.dropUntyped limit 0 (.obj members) = .done (.obj members)) :
    Data.dropUntyped limit 0 (.obj others) = .done (.obj others) := by
  refine Data.dropUntyped_obj_eq_done.mpr fun kept hkept ↦ ?_
  have hscenes : Data.scene others = .list kept := by
    rw [Data.scene, hkept]
    rfl
  rw [hscenes] at hscene
  obtain ⟨items, hitems⟩ := hscene.exists_list
  have hget : Entries.get? members itemsKey = some (.list items) := by
    rw [Data.scene] at hitems
    cases hfound : Entries.get? members itemsKey with
    | none => simp [hfound] at hitems
    | some found => simpa [hfound] using hitems
  rw [hitems] at hscene
  obtain ⟨hdepth, hall⟩ := Data.dropUntyped_obj_eq_done.mp h items hget
  exact ⟨hdepth, hscene.isTypedThrough (0 + 1) hall⟩

/-- What hoisting makes of a document in which the other stages have nothing to do is clean. -/
theorem isClean_hoistGradients (htyped : Data.dropUntyped limit 0 (.obj members) = .done (.obj members))
    (hlisted : IsPrunedThrough limit members)
    (h : hoistGradients limit (.obj members) = .done cleaned) :
    ∃ others, cleaned = .obj others ∧ IsClean limit others := by
  have hfault : (hoist limit 0 (.ofDocument members) (.obj members)).fault? = none :=
    congrArg Progress.fault? h
  obtain ⟨hoisted, hvalue, hhoisted⟩ := Data.hoist_obj_isHoisted
    (fun part _ ↦ Data.hoist_settled part (0 + 1)) hfault
  have htidied : Data.Tidied (fun _ ↦ False) (.obj members)
      (hoist limit 0 (.ofDocument members) (.obj members)).value.1 :=
    (Data.hoist_hoistsFrom (.obj members) 0 (.ofDocument members)).tidied
  obtain ⟨others, hothers, hsame, hscene⟩ := htidied.obj
  obtain rfl : hoisted = others := Data.obj.inj (hvalue.symm.trans hothers)
  have hcleaned : cleaned =
      .obj ((hoist limit 0 (.ofDocument members) (.obj members)).value.2.intoDocument hoisted) := by
    have hdone := congrArg Progress.value h
    rw [hoistGradients, Progress.value_map, ← Prod.mk.eta (p := Progress.value _), hvalue] at hdone
    exact hdone.symm
  generalize (hoist limit 0 (.ofDocument members) (.obj members)).value.2 = listing at hcleaned
  have hinto : Data.scene (listing.intoDocument hoisted) = Data.scene hoisted := by
    rw [Data.scene, Data.scene, get?_intoDocument_of_ne _ _ (by decide)]
  refine ⟨listing.intoDocument hoisted, hcleaned, ?_,
    hlisted.intoDocument hscene (hsame _ (by decide)) listing, hhoisted.congr fun key hkey ↦ ?_⟩
  · refine dropUntyped_of_tidied ?_ htyped
    rw [hinto]
    exact hscene
  · refine get?_intoDocument_of_ne listing hoisted ?_
    rintro rfl
    exact absurd hkey (by decide)

/-- Cleaning is idempotent: where it goes through, cleaning what it leaves goes through as well and
changes neither the document nor the table, be it the table that it left or any other one. -/
theorem clean_cleaned (h : clean limit table (.obj members) = .done (cleaned, pruned))
    (again : EasingTable) : clean limit again cleaned = .done (cleaned, again) := by
  obtain ⟨typed, listed, hdropped, hpruned, hhoisted⟩ := clean_eq_done h
  have hdrop : Data.dropUntyped limit 0 (.obj members) = .done (.obj typed) := hdropped
  have hdropFault : (Data.dropUntyped limit 0 (.obj members)).fault? = none := by
    rw [hdrop]
    rfl
  have htyped := Data.dropUntyped_dropped (.obj members) 0 hdropFault
  have hpruneFault : (pruneEasings limit table (.obj typed)).fault? = none := by
    rw [hpruned]
    rfl
  obtain ⟨found, hfound, hthrough, hother⟩ := isPrunedThrough_pruneEasings hpruneFault
  rw [hpruned] at hfound
  cases hfound
  rw [hdrop] at htyped
  have hscene : Data.scene listed = Data.scene typed := by
    rw [Data.scene, Data.scene, hother _ (by decide)]
  have hlisted : Data.dropUntyped limit 0 (.obj listed) = .done (.obj listed) := by
    refine dropUntyped_of_tidied ?_ htyped
    rw [hscene]
    exact .same _
  obtain ⟨others, rfl, hclean⟩ := isClean_hoistGradients hlisted hthrough hhoisted
  exact hclean.clean_eq_done again

/-- An item without a type, a path that is painted with a gradient, and two easings of which the path
uses one. -/
def paintedDocument : Data :=
  .obj [("items", .list [.obj [("fill", .str "@ease2")],
      .obj [("type", .str "path"), ("fill", .obj [("type", .str "linear")]),
        ("opacity", .str (Scalar.binding "@ease1(frame)"))]]),
    ("resources", .list [.obj [("easing", .obj [("ease1", .str "line(0,0) end(1,1)"),
      ("ease2", .str "line(0,1) end(1,0)")])]])]

/-- The table that has these easings. -/
def paintedTable : EasingTable :=
  (((EasingTable.empty 3).add "line(0,0) end(1,1)").1.add "line(0,1) end(1,0)").1

theorem clean_cleaned_painted : (clean 1 paintedTable paintedDocument).fault? = none ∧
    (clean 1 paintedTable paintedDocument).value.2.names = ["ease1"] ∧
      clean 1 (clean 1 paintedTable paintedDocument).value.2
          (clean 1 paintedTable paintedDocument).value.1 =
        .done (clean 1 paintedTable paintedDocument).value := by
  have hclean : (clean 1 paintedTable paintedDocument).fault? = none := by decide +kernel
  exact ⟨hclean, by decide +kernel, clean_cleaned (Progress.eq_done hclean) _⟩

end Cleaning

end Motion
