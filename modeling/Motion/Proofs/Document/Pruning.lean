import Motion.Proofs.Document.Tidied

/-!
Pruning the easings of a document. What is left of its listings are the programs whose tokens occur
below its items, each as it was (`pruneEasings_isPruning`). The scan for tokens is stopped by items
beyond the depth limit, the listings only by resources that are not as they should be
(`pruneEasings_fault`).
-/

set_option autoImplicit false
set_option relaxedAutoImplicit false

namespace Motion

namespace Data

section Resources

/-- The easings that a resource lists by name. -/
def easingsOf (resource : Data) : Members :=
  match resource.get? EasingTable.easingKey with
  | some (.obj listing) => listing
  | _ => []

/-- The names in the easing listing of a resource, whatever the listing is. -/
def easingNamesOf (resource : Data) : List String :=
  (((resource.get? EasingTable.easingKey).bind elements?).getD []).filterMap fun
    | .str name => some name
    | _ => none

/-- What a view finds in the resources of a document. -/
def amongResources {α : Type} (view : Data → List α) (document : Data) : List α :=
  match document.get? resourcesKey with
  | some (.list resources) => resources.flatMap view
  | _ => []

/-- The easings that the resources of a document list by name. -/
def easings (document : Data) : Members :=
  document.amongResources easingsOf

/-- The names in the easing listings of a document. -/
def easingNames (document : Data) : List String :=
  document.amongResources easingNamesOf

def isObject : Data → Bool
  | .obj _ => true
  | _ => false

/-- Whether a value is an object whose listings of easings and of gradients, if there are any, are
objects. -/
def isResource (resource : Data) : Bool :=
  resource.isObject && [EasingTable.easingKey, gradientKey].all fun key ↦
    (resource.get? key).all isObject

/-- Whether the resources of a document are missing, null or a list of resources. -/
def hasResources (document : Data) : Bool :=
  match document.get? resourcesKey with
  | none => true
  | some .null => true
  | some (.list resources) => resources.all isResource
  | some _ => false

/-- Only objects have members. -/
theorem exists_of_get? {value found : Data} {key : String} (h : value.get? key = some found) :
    ∃ members, value = .obj members := by
  cases value with
  | obj members => exact ⟨members, rfl⟩
  | _ => cases h

end Resources

end Data

section Listings

variable {used : List String}

theorem pruneListing_eq (table : EasingTable) (listing : Members) :
    (pruneListing used table listing).1 =
      listing.filter fun easing ↦ used.contains (tokenOf easing.1) := by
  induction listing generalizing table with
  | nil => rfl
  | cons easing rest ih =>
    obtain ⟨name, program⟩ := easing
    rw [pruneListing, List.filter_cons]
    dsimp only
    split_ifs
    · rw [ih]
    · exact ih _

/-- What pruning makes of a resource. -/
structure IsPruned (used : List String) (resource pruned : Data) : Prop where
  easings : pruned.easingsOf =
    resource.easingsOf.filter fun easing ↦ used.contains (tokenOf easing.1)
  names : ∀ name ∈ pruned.easingNamesOf, used.contains (tokenOf name) = true
  resource : resource.isResource = true → pruned.isResource = true

theorem isResource_put {members : Members} {key : String} {value : Data}
    (hvalue : value.isObject = true) (h : (Data.obj members).isResource = true) :
    (Data.obj (Entries.put members key value)).isResource = true := by
  have hlisting (other : String) (hother : ((Data.obj members).get? other).all Data.isObject = true) :
      ((Data.obj (Entries.put members key value)).get? other).all Data.isObject = true := by
    rw [Data.get?, Entries.get?_put]
    split_ifs
    · exact hvalue
    · exact hother
  simp only [Data.isResource, List.all_cons, List.all_nil, Bool.and_true, Bool.and_eq_true] at h ⊢
  exact ⟨rfl, hlisting _ h.2.1, hlisting _ h.2.2⟩

/-- A listing that is no object stays only if all its names are in use. -/
theorem isPruned_self {resource listing : Data}
    (hget : resource.get? EasingTable.easingKey = some listing)
    (hlisting : ∀ easings, listing ≠ .obj easings)
    (hused : (!listing.isTruthy || allUsed used listing) = true) : IsPruned used resource resource where
  easings := by
    have hnone : resource.easingsOf = [] := by
      rw [Data.easingsOf, hget]
      cases listing with
      | obj easings => exact absurd rfl (hlisting easings)
      | _ => rfl
    rw [hnone]
    rfl
  names := by
    intro name hname
    rw [Data.easingNamesOf, hget, Option.bind_some] at hname
    rw [Bool.or_eq_true, Bool.not_eq_true'] at hused
    cases helements : listing.elements? with
    | none => simp [helements] at hname
    | some elements =>
      rw [helements, Option.getD_some, List.mem_filterMap] at hname
      obtain ⟨element, helement, htext⟩ := hname
      rcases hused with hempty | hused
      · have hnil : elements = [] := by
          cases listing with
          | list items => simpa [Data.isTruthy, ← Option.some_inj.mp helements] using hempty
          | str s =>
            have hs : s.toList = [] := by simpa [Data.isTruthy] using hempty
            rw [← Option.some_inj.mp helements, hs]
            rfl
          | obj easings => exact absurd rfl (hlisting easings)
          | _ => cases helements
        rw [hnil] at helement
        cases helement
      · rw [allUsed, helements] at hused
        have huses := List.all_eq_true.mp hused element helement
        split at htext
        · cases htext
          exact huses
        · cases htext
  resource := id

theorem pruneResource_isPruned {table : EasingTable} {resource : Data}
    (h : (pruneResource used table resource).fault? = none) :
    IsPruned used resource (pruneResource used table resource).value.1 := by
  unfold pruneResource at h ⊢
  split
  · rename_i members listing hget
    dsimp only
    have hlisting : (Data.obj (Entries.put members EasingTable.easingKey
        (.obj (pruneListing used table listing).1))).get? EasingTable.easingKey =
          some (.obj (pruneListing used table listing).1) := Entries.get?_put_self ..
    refine ⟨?_, fun name hname ↦ ?_, isResource_put rfl⟩
    · rw [Progress.value_done, Data.easingsOf, hlisting, Data.easingsOf, hget, pruneListing_eq]
    · rw [Progress.value_done, Data.easingNamesOf, hlisting, pruneListing_eq] at hname
      obtain ⟨key, hkey, htext⟩ := List.mem_filterMap.mp hname
      obtain ⟨easing, heasing, rfl⟩ := List.mem_map.mp hkey
      cases htext
      exact (List.mem_filter.mp heasing).2
  · rename_i listing hobject hget
    obtain ⟨members, rfl⟩ := Data.exists_of_get? hget
    have hlisting (easings : Members) : listing ≠ .obj easings := hobject members easings rfl
    split_ifs with hused
    · exact isPruned_self hget hlisting hused
    · rw [hget] at h
      cases listing with
      | obj easings => exact absurd rfl (hlisting easings)
      | _ => simp [hused, Progress.stopped] at h
  · rename_i hget
    refine ⟨?_, fun name hname ↦ ?_, id⟩
    · rw [Progress.value_done, Data.easingsOf, hget]
      rfl
    · rw [Progress.value_done, Data.easingNamesOf, hget] at hname
      cases hname

/-- Pruning a resource is stopped only by a listing that is no object. -/
theorem pruneResource_fault {table : EasingTable} {resource : Data} {fault : Fault}
    (h : (pruneResource used table resource).fault? = some fault) :
    fault = .wrongType ∧ resource.isResource = false := by
  unfold pruneResource at h
  split at h
  · cases h
  · rename_i listing hobject hget
    obtain ⟨members, rfl⟩ := Data.exists_of_get? hget
    split_ifs at h
    · cases h
    · refine ⟨(Option.some_inj.mp h).symm, ?_⟩
      rw [Data.isResource, List.all_cons, hget]
      cases listing with
      | obj easings => exact absurd rfl (hobject members easings rfl)
      | _ => rfl
  · cases h

theorem pruneResources_isPruned {table : EasingTable} {resources : List Data}
    (h : (pruneResources used table resources).fault? = none) :
    List.Forall₂ (IsPruned used) resources (pruneResources used table resources).value.1 := by
  induction resources generalizing table with
  | nil => exact .nil
  | cons resource rest ih =>
    rw [pruneResources] at h ⊢
    cases hfirst : (pruneResource used table resource).fault? with
    | some fault => simp [hfirst, Progress.stopped] at h
    | none =>
      simp only [hfirst] at h ⊢
      exact .cons (pruneResource_isPruned hfirst) (ih h)

theorem isPruned_flatMap {resources kept : List Data} (h : List.Forall₂ (IsPruned used) resources kept) :
    kept.flatMap Data.easingsOf =
        (resources.flatMap Data.easingsOf).filter (fun easing ↦ used.contains (tokenOf easing.1)) ∧
      (∀ name ∈ kept.flatMap Data.easingNamesOf, used.contains (tokenOf name) = true) ∧
        (resources.all Data.isResource = true → kept.all Data.isResource = true) := by
  induction h with
  | nil => exact ⟨rfl, List.forall_mem_nil _, id⟩
  | cons hfirst _ ih =>
    obtain ⟨heasings, hnames, hresources⟩ := ih
    refine ⟨?_, ?_, fun hall ↦ ?_⟩
    · rw [List.flatMap_cons, List.flatMap_cons, List.filter_append, hfirst.easings, heasings]
    · rw [List.flatMap_cons]
      exact List.forall_mem_append.mpr ⟨hfirst.names, hnames⟩
    · rw [List.all_cons, Bool.and_eq_true] at hall ⊢
      exact ⟨hfirst.resource hall.1, hresources hall.2⟩

theorem pruneResources_fault {table : EasingTable} {resources : List Data} {fault : Fault}
    (h : (pruneResources used table resources).fault? = some fault) :
    fault = .wrongType ∧ resources.all Data.isResource = false := by
  induction resources generalizing table with
  | nil => cases h
  | cons resource rest ih =>
    rw [pruneResources] at h
    rw [List.all_cons, Bool.and_eq_false_iff]
    cases hfirst : (pruneResource used table resource).fault? with
    | some other =>
      simp only [hfirst] at h
      cases h
      exact (pruneResource_fault hfirst).imp_right Or.inl
    | none =>
      simp only [hfirst] at h
      exact (ih h).imp_right Or.inr

end Listings

section Documents

variable {limit : ℤ} {table : EasingTable} {members : Members}

/-- What pruning makes of a document: it changes the resources only, and lists those easings that are
used. -/
structure IsPruning (members pruned : Members) : Prop where
  other : ∀ key ≠ resourcesKey, Entries.get? pruned key = Entries.get? members key
  easings : (Data.obj pruned).easings = (Data.obj members).easings.filter fun easing ↦
    (Data.obj members).usedTokens.contains (tokenOf easing.1)
  names : ∀ name ∈ (Data.obj pruned).easingNames, tokenOf name ∈ (Data.obj members).usedTokens
  resources : (Data.obj members).hasResources = true → (Data.obj pruned).hasResources = true
  null : Entries.get? pruned resourcesKey = some .null →
    Entries.get? members resourcesKey = some .null

theorem amongResources_list {α : Type} (view : Data → List α) {resources : List Data}
    (h : Entries.get? members resourcesKey = some (.list resources)) :
    (Data.obj members).amongResources view = resources.flatMap view := by
  rw [Data.amongResources, Data.get?, h]

theorem amongResources_congr {α : Type} (view : Data → List α) {others : Members}
    (h : Entries.get? others resourcesKey = Entries.get? members resourcesKey) :
    (Data.obj others).amongResources view = (Data.obj members).amongResources view := by
  rw [Data.amongResources, Data.amongResources, Data.get?, Data.get?, h]

theorem amongResources_nil {α : Type} (view : Data → List α)
    (h : ∀ resources, Entries.get? members resourcesKey ≠ some (.list resources)) :
    (Data.obj members).amongResources view = [] := by
  rw [Data.amongResources, Data.get?]
  split
  · rename_i resources hget
    exact absurd hget (h resources)
  · rfl

/-- Where resources are no list there is nothing to prune. -/
theorem isPruning_self (h : ∀ resources, Entries.get? members resourcesKey ≠ some (.list resources)) :
    IsPruning members members where
  other := fun _ _ ↦ rfl
  easings := by
    rw [Data.easings, amongResources_nil Data.easingsOf h]
    rfl
  names := by
    intro name hname
    rw [Data.easingNames, amongResources_nil Data.easingNamesOf h] at hname
    cases hname
  resources := id
  null := id

/-- In a list each resource is pruned. -/
theorem isPruning_put {resources kept : List Data}
    (hget : Entries.get? members resourcesKey = some (.list resources))
    (h : List.Forall₂ (IsPruned (Data.obj members).usedTokens.eraseDups) resources kept) :
    IsPruning members (Entries.put members resourcesKey (.list kept)) := by
  have hput : Entries.get? (Entries.put members resourcesKey (.list kept)) resourcesKey =
      some (.list kept) := Entries.get?_put_self ..
  have hcontains (token : String) : (Data.obj members).usedTokens.eraseDups.contains token =
      (Data.obj members).usedTokens.contains token := by
    rw [Bool.eq_iff_iff, List.contains_iff_mem, List.contains_iff_mem, List.mem_eraseDups]
  obtain ⟨heasings, hnames, hresources⟩ := isPruned_flatMap h
  simp only [hcontains] at heasings hnames
  refine ⟨fun key hkey ↦ Entries.get?_put_of_ne (Ne.symm hkey) _ _, ?_, fun name hname ↦ ?_,
    fun hbefore ↦ ?_, fun hnull ↦ ?_⟩
  · rw [Data.easings, Data.easings, amongResources_list _ hput, amongResources_list _ hget]
    exact heasings
  · rw [Data.easingNames, amongResources_list _ hput] at hname
    exact List.contains_iff_mem.mp (hnames name hname)
  · rw [Data.hasResources, Data.get?, hget] at hbefore
    rw [Data.hasResources, Data.get?, hput]
    exact hresources hbefore
  · rw [hput] at hnull
    cases hnull

theorem pruneEasings_isPruning (h : (pruneEasings limit table (.obj members)).fault? = none) :
    ∃ pruned, (pruneEasings limit table (.obj members)).value.1 = .obj pruned ∧
      IsPruning members pruned := by
  unfold pruneEasings Data.usedEasings at h ⊢
  dsimp only at h ⊢
  split_ifs at h ⊢
  · cases h
  · have htokens : ((Entries.get? members itemsKey).getD .null).easingTokens =
        (Data.obj members).usedTokens := rfl
    rw [htokens] at h ⊢
    cases hget : Entries.get? members resourcesKey with
    | none =>
      exact ⟨members, rfl, isPruning_self fun _ hlist ↦ by simp [hget] at hlist⟩
    | some found =>
      rw [hget, Option.getD_some] at h
      cases found with
      | list resources => exact ⟨_, rfl, isPruning_put hget (pruneResources_isPruned h)⟩
      | _ =>
        refine ⟨members, ?_, isPruning_self fun _ hlist ↦ by simp [hget] at hlist⟩
        dsimp only [Option.getD_some] at h ⊢
        split_ifs at h ⊢ <;> rfl

/-- Pruning is stopped by items beyond the limit, or by resources that are not as they should be. -/
theorem pruneEasings_fault {fault : Fault}
    (h : (pruneEasings limit table (.obj members)).fault? = some fault) :
    (fault = .tooDeep limit ∧
        ((Entries.get? members itemsKey).getD .null).itemsExceed limit 0 = true) ∨
      (fault = .wrongType ∧ (Data.obj members).hasResources = false) := by
  unfold pruneEasings Data.usedEasings at h
  dsimp only at h
  split_ifs at h with hexceed
  · exact Or.inl ⟨(Option.some_inj.mp h).symm, hexceed⟩
  · refine Or.inr ?_
    rw [Data.hasResources, Data.get?]
    cases hget : Entries.get? members resourcesKey with
    | none =>
      rw [hget] at h
      cases h
    | some found =>
      rw [hget, Option.getD_some] at h
      cases found with
      | null => cases h
      | list resources => exact pruneResources_fault h
      | _ =>
        dsimp only at h
        split_ifs at h
        · exact ⟨(Option.some_inj.mp h).symm, rfl⟩
        · cases h

end Documents

end Motion
