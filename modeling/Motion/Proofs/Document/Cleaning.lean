import Motion.Document.Optimize
import Motion.Proofs.Document.Hoisting
import Motion.Proofs.Document.Pruning
import Motion.Proofs.Scene.Faults

/-!
Cleaning a document. What it leaves has the scene of the document, tidied, and lists the easings that
the scene uses (`clean_isCleaning`). It meets no level beyond the depth limit if items occur on the
levels of the scene only, and no other fault if the resources are well-shaped and can take the static
gradients (`clean_fault`).
-/

set_option autoImplicit false
set_option relaxedAutoImplicit false

namespace Motion

namespace Data

theorem Tidied.mono {gone other : Data → Prop} (hgone : ∀ item, gone item → other item)
    {value tidied : Data} (h : Tidied gone value tidied) : Tidied other value tidied := by
  induction h with
  | same => exact .same _
  | trans _ _ first second => exact .trans first second
  | drop hitem _ others => exact .drop (hgone _ hitem) others
  | cons _ _ first others => exact .cons first others
  | member hkey hget _ below => exact .member hkey hget below
  | paint hkey hget hstatic n => exact .paint hkey hget hstatic n

/-- What stands under `items` of an object; null if there is nothing. -/
def scene (members : Members) : Data :=
  (Entries.get? members itemsKey).getD .null

end Data

section Hoisting

variable {limit : ℤ} {members : Members}

/-- A view that looks at no gradients finds the same in the resources once gradients are stored. -/
theorem flatMap_storeGradients {α : Type} {view : Data → List α}
    (hput : ∀ members value,
      view (.obj (Entries.put members gradientKey value)) = view (.obj members))
    (hnew : ∀ gradients, view (.obj [(gradientKey, gradients)]) = []) (gradients : Members)
    (resources : List Data) :
    (storeGradients gradients resources).flatMap view = resources.flatMap view := by
  induction resources with
  | nil =>
    rw [storeGradients, List.flatMap_cons, hnew]
    rfl
  | cons resource rest ih =>
    cases resource with
    | obj members =>
      rw [storeGradients]
      split_ifs
      · rw [List.flatMap_cons, List.flatMap_cons, hput]
      · rw [List.flatMap_cons, List.flatMap_cons, ih]
    | _ => simp [storeGradients, ih]

theorem amongResources_intoDocument {α : Type} {view : Data → List α}
    (hput : ∀ members value,
      view (.obj (Entries.put members gradientKey value)) = view (.obj members))
    (hnew : ∀ gradients, view (.obj [(gradientKey, gradients)]) = []) (listing : GradientListing)
    (members : Members) : (Data.obj (listing.intoDocument members)).amongResources view =
      (Data.obj members).amongResources view := by
  unfold GradientListing.intoDocument
  split
  · rename_i gradients _ _
    rw [amongResources_list view (Entries.get?_put_self ..), flatMap_storeGradients hput hnew,
      Data.amongResources, Data.get?]
    cases Entries.get? members resourcesKey with
    | none => rfl
    | some found => cases found <;> rfl
  · rfl

theorem easingsOf_put (members : Members) (value : Data) :
    (Data.obj (Entries.put members gradientKey value)).easingsOf = (Data.obj members).easingsOf := by
  rw [Data.easingsOf, Data.get?, Entries.get?_put_of_ne (by decide)]
  rfl

theorem easingNamesOf_put (members : Members) (value : Data) :
    (Data.obj (Entries.put members gradientKey value)).easingNamesOf =
      (Data.obj members).easingNamesOf := by
  rw [Data.easingNamesOf, Data.get?, Entries.get?_put_of_ne (by decide)]
  rfl

/-- What hoisting makes of a document: it tidies the scene, and the resources keep their easings. -/
structure IsHoisting (members hoisted : Members) : Prop where
  scene : (Data.scene members).Tidied (fun _ ↦ False) (Data.scene hoisted)
  easings : (Data.obj hoisted).easings = (Data.obj members).easings
  names : (Data.obj hoisted).easingNames = (Data.obj members).easingNames

theorem hoistGradients_isHoisting (limit : ℤ) (members : Members) :
    ∃ hoisted, (hoistGradients limit (.obj members)).value = .obj hoisted ∧
      IsHoisting members hoisted := by
  have hoisting := @Data.hoist_hoistsFrom limit (.obj members) 0 (.ofDocument members)
  obtain ⟨others, hothers, hsame, hscene⟩ := hoisting.tidied.obj
  have hresources {α : Type} (view : Data → List α) :
      (Data.obj others).amongResources view = (Data.obj members).amongResources view :=
    amongResources_congr view (hsame _ (by decide))
  have hvalue : (hoistGradients limit (.obj members)).value =
      .obj ((hoist limit 0 (.ofDocument members) (.obj members)).value.2.intoDocument others) := by
    rw [hoistGradients, Progress.value_map, ← Prod.mk.eta (p := Progress.value _), hothers]
  refine ⟨_, hvalue, ?_, ?_, ?_⟩
  · have hinto (listing : GradientListing) :
        Data.scene (listing.intoDocument others) = Data.scene others := by
      unfold GradientListing.intoDocument
      split
      · rw [Data.scene, Entries.get?_put_of_ne (by decide)]
        rfl
      · rfl
    rw [hinto]
    exact hscene
  · rw [Data.easings, amongResources_intoDocument easingsOf_put fun _ ↦ rfl, hresources]
    rfl
  · rw [Data.easingNames, amongResources_intoDocument easingNamesOf_put fun _ ↦ rfl, hresources]
    rfl

/-- Resources take gradients unless they are null or not well-shaped. -/
theorem gradients_ofDocument {fault : Fault}
    (hfault : (GradientListing.ofDocument members).gradients = .error fault) :
    (fault = .wrongType ∧ Entries.get? members resourcesKey = some .null) ∨
      ((fault = .wrongType ∨ fault = .noMembers) ∧ (Data.obj members).hasResources = false) := by
  unfold GradientListing.ofDocument at hfault
  dsimp only at hfault
  rw [Data.hasResources, Data.get?]
  cases hget : Entries.get? members resourcesKey with
  | none =>
    rw [hget] at hfault
    cases hfault
  | some found =>
    rw [hget] at hfault
    cases found with
    | null =>
      cases hfault
      exact Or.inl ⟨rfl, rfl⟩
    | list resources =>
      dsimp only at hfault
      cases hamong : gradientsAmong resources with
      | none =>
        rw [hamong] at hfault
        cases hfault
      | some gradients =>
        rw [hamong] at hfault
        obtain ⟨resource, hresource, hgradients⟩ := List.exists_of_findSome?_eq_some hamong
        refine Or.inr ?_
        cases gradients with
        | obj _ => cases hfault
        | _ =>
          cases hfault
          refine ⟨Or.inl rfl, List.all_eq_false.mpr ⟨resource, hresource, ?_⟩⟩
          rw [Data.isResource, List.all_cons, List.all_cons, hgradients]
          simp [Data.isObject]
    | _ =>
      dsimp only at hfault
      split_ifs at hfault <;> cases hfault
      all_goals exact Or.inr ⟨by simp, rfl⟩

end Hoisting

section Cleaning

variable {limit : ℤ} {table : EasingTable} {members : Members}

/-- What cleaning makes of a document: it tidies the scene, and the resources list those easings of
the document that the scene uses. -/
structure IsCleaning (members cleaned : Members) : Prop where
  scene : (Data.scene members).Tidied Data.IsUntyped (Data.scene cleaned)
  easings : (Data.obj cleaned).easings = (Data.obj members).easings.filter fun easing ↦
    (Data.obj cleaned).usedTokens.contains (tokenOf easing.1)
  names : ∀ name ∈ (Data.obj cleaned).easingNames, tokenOf name ∈ (Data.obj cleaned).usedTokens

/-- Dropping untyped items leaves an object that differs in its items only. -/
theorem dropUntypedItems_obj (limit : ℤ) (members : Members) :
    ∃ typed, ((Data.obj members).dropUntypedItems limit).value = .obj typed ∧
      ∀ key ≠ itemsKey, Entries.get? typed key = Entries.get? members key := by
  rw [Data.dropUntypedItems, Data.dropUntyped_obj]
  cases Entries.get? members itemsKey with
  | none => exact ⟨members, rfl, fun _ _ ↦ rfl⟩
  | some found =>
    cases found with
    | list items =>
      dsimp only
      cases checkDepth limit 0 with
      | some fault => exact ⟨members, rfl, fun _ _ ↦ rfl⟩
      | none => exact ⟨_, rfl, fun key hkey ↦ Entries.get?_put_of_ne (Ne.symm hkey) members _⟩
    | _ => exact ⟨members, rfl, fun _ _ ↦ rfl⟩

/-- The stages of a cleaning of which the first goes through. -/
theorem clean_of_dropped {typed : Data} (table : EasingTable)
    (h : (Data.obj members).dropUntypedItems limit = .done typed) :
    clean limit table (.obj members) =
      match (pruneEasings limit table typed).fault? with
      | some fault => .stopped (pruneEasings limit table typed).value fault
      | none =>
        (hoistGradients limit (pruneEasings limit table typed).value.1).map fun document ↦
          (document, (pruneEasings limit table typed).value.2) := by
  rw [clean, h]
  rfl

/-- The stages of cleaning a document within the depth limit, the first of which goes through. -/
theorem clean_stages (hlimit : 0 ≤ limit) (h : (Data.obj members).exceeds limit 0 = false)
    (table : EasingTable) :
    ∃ typed, (Data.obj members).dropUntypedItems limit = .done (.obj typed) ∧
      (Data.obj members).Tidied Data.IsUntyped (.obj typed) ∧
      clean limit table (.obj members) =
        match (pruneEasings limit table (.obj typed)).fault? with
        | some fault => .stopped (pruneEasings limit table (.obj typed)).value fault
        | none =>
          (hoistGradients limit (pruneEasings limit table (.obj typed)).value.1).map fun document ↦
            (document, (pruneEasings limit table (.obj typed)).value.2) := by
  have hwithin : (Data.obj members).IsWithin limit 0 := ⟨fun _ ↦ hlimit, h⟩
  obtain ⟨hfault, htidied⟩ := Data.dropUntyped_within _ 0 hwithin
  obtain ⟨typed, htyped, -, -⟩ := htidied.obj
  have hdone : (Data.obj members).dropUntypedItems limit = .done (.obj typed) := by
    rw [← htyped]
    exact Progress.eq_done hfault
  exact ⟨typed, hdone, htyped ▸ htidied, clean_of_dropped table hdone⟩

theorem clean_isCleaning (hlimit : 0 ≤ limit) (h : (Data.obj members).exceeds limit 0 = false)
    (hfault : (clean limit table (.obj members)).fault? = none) :
    ∃ cleaned, (clean limit table (.obj members)).value.1 = .obj cleaned ∧
      IsCleaning members cleaned := by
  obtain ⟨typed, -, htidied, hstages⟩ := clean_stages hlimit h table
  rw [hstages] at hfault ⊢
  cases hpruned : (pruneEasings limit table (.obj typed)).fault? with
  | some fault => simp [hpruned, Progress.stopped] at hfault
  | none =>
    obtain ⟨pruned, hvalue, hpruning⟩ := pruneEasings_isPruning hpruned
    obtain ⟨hoisted, hhoisted, hhoisting⟩ := hoistGradients_isHoisting limit pruned
    obtain ⟨others, hothers, hsame, hscene⟩ := htidied.obj
    cases hothers
    have hpruneditems : Data.scene pruned = Data.scene typed := by
      rw [Data.scene, Data.scene, hpruning.other _ (by decide)]
    have hused : (Data.obj hoisted).usedTokens = (Data.obj typed).usedTokens := by
      have htokens := hhoisting.scene.easingTokens fun _ ↦ False.elim
      rwa [hpruneditems] at htokens
    have heasings : (Data.obj typed).easings = (Data.obj members).easings :=
      amongResources_congr Data.easingsOf (hsame _ (by decide))
    refine ⟨hoisted, by rw [hvalue]; exact hhoisted, ?_, ?_, ?_⟩
    · have hbelow : (Data.scene pruned).Tidied Data.IsUntyped (Data.scene hoisted) :=
        hhoisting.scene.mono fun _ ↦ False.elim
      rw [hpruneditems] at hbelow
      exact .trans hscene hbelow
    · rw [hhoisting.easings, hpruning.easings, heasings, hused]
    · intro name hname
      rw [hhoisting.names] at hname
      rw [hused]
      exact hpruning.names name hname

/-- What stops hoisting in a document whose easings have been pruned, told of the document before. -/
theorem hoistGradients_fault {typed pruned : Members} {fault : Fault} (hlimit : 0 ≤ limit)
    (hpruning : IsPruning typed pruned) (hwithin : (Data.obj typed).IsWithin limit 0)
    (hfault : (hoistGradients limit (.obj pruned)).fault? = some fault) :
    (fault = .tooDeep limit ∧ (Data.obj typed).hasStraightItems = false) ∨
      (fault = .wrongType ∧ Entries.get? typed resourcesKey = some .null ∧
        (Data.obj typed).MeetsGradient) ∨
      ((fault = .wrongType ∨ fault = .noMembers) ∧ (Data.obj typed).hasResources = false) := by
  have hitems := hpruning.other itemsKey (by decide)
  have hstraight : (Data.obj pruned).hasStraightItems = (Data.obj typed).hasStraightItems := by
    rw [Data.hasStraightItems, Data.hasStraightItems, hitems,
      Entries.contains_congr (hpruning.other itemKey (by decide))]
  have hprunedwithin : (Data.obj pruned).IsWithin limit 0 := by
    refine ⟨fun _ ↦ hlimit, ?_⟩
    rw [Data.exceeds_eq, Data.children_obj, hitems, ← Data.children_obj, ← Data.exceeds_eq]
    exact hwithin.below
  rcases (Data.hoist_hoistsFrom (.obj pruned) 0 (.ofDocument pruned)).fault fault hfault with
    ⟨hdeep, hbelow⟩ | ⟨hgradients, hmeets⟩
  · refine Or.inl ⟨hdeep, ?_⟩
    rw [← hstraight, Bool.eq_false_iff]
    exact fun hall ↦ hbelow hall hprunedwithin
  · refine Or.inr ?_
    rcases gradients_ofDocument hgradients with ⟨hfault, hnull⟩ | ⟨hfault, hshape⟩
    · refine Or.inl ⟨hfault, hpruning.null hnull, hmeets.congr fun key hkey ↦ hpruning.other key ?_⟩
      rintro rfl
      exact absurd hkey (by decide)
    · refine Or.inr ⟨hfault, Bool.eq_false_iff.mpr fun htyped ↦ ?_⟩
      rw [hpruning.resources htyped] at hshape
      cases hshape

/-- What stops cleaning within the depth limit: items on a level that the depth of the tree does not
count, static gradients that null cannot take, or resources that are not well-shaped. -/
theorem clean_fault (hlimit : 0 ≤ limit) (h : (Data.obj members).exceeds limit 0 = false)
    {fault : Fault} (hfault : (clean limit table (.obj members)).fault? = some fault) :
    (fault = .tooDeep limit ∧
        ((Data.obj members).dropUntypedItems limit).value.hasStraightItems = false) ∨
      (fault = .wrongType ∧ Entries.get? members resourcesKey = some .null ∧
        ((Data.obj members).dropUntypedItems limit).value.MeetsGradient) ∨
      ((fault = .wrongType ∨ fault = .noMembers) ∧ (Data.obj members).hasResources = false) := by
  obtain ⟨typed, hdone, htidied, hstages⟩ := clean_stages hlimit h table
  obtain ⟨others, hothers, hsame, -⟩ := htidied.obj
  cases hothers
  have hwithin : (Data.obj typed).IsWithin limit 0 := by
    refine ⟨fun _ ↦ hlimit, ?_⟩
    rw [Bool.eq_false_iff] at h ⊢
    exact fun hexceeds ↦ h (htidied.isShallower.exceeds limit 0 hexceeds)
  have hresources : (Data.obj typed).hasResources = (Data.obj members).hasResources := by
    rw [Data.hasResources, Data.hasResources, Data.get?, Data.get?, hsame _ (by decide)]
  rw [hstages] at hfault
  rw [hdone, Progress.value_done, ← hresources, ← hsame resourcesKey (by decide)]
  cases hpruned : (pruneEasings limit table (.obj typed)).fault? with
  | some other =>
    rw [hpruned] at hfault
    cases hfault
    refine (pruneEasings_fault hpruned).imp (And.imp_right fun hexceed ↦ ?_)
      fun hwrong ↦ Or.inr (hwrong.imp_left Or.inl)
    rw [Bool.eq_false_iff]
    intro hstraight
    rw [Data.itemsExceed_of_hasStraightItems hstraight hwithin] at hexceed
    cases hexceed
  | none =>
    obtain ⟨pruned, hvalue, hpruning⟩ := pruneEasings_isPruning hpruned
    rw [hpruned, hvalue] at hfault
    exact hoistGradients_fault hlimit hpruning hwithin hfault

/-- Cleaning adds no level. -/
theorem IsCleaning.exceeds {cleaned : Members} (hcleaning : IsCleaning members cleaned)
    (h : (Data.obj members).exceeds limit 0 = false) : (Data.obj cleaned).exceeds limit 0 = false := by
  rw [Bool.eq_false_iff] at h ⊢
  intro hexceeds
  rw [Data.exceeds_eq, Data.children_obj] at h hexceeds
  exact h (hcleaning.scene.isShallower.standing limit 0 hexceeds)

/-- Cleaning keeps the transform properties of the groups. -/
theorem IsCleaning.groups {cleaned : Members} (h : IsCleaning members cleaned) :
    (Data.obj cleaned).groups.map propertiesOf = (Data.obj members).groups.map propertiesOf := by
  have hgone (item : Data) (hitem : item.IsUntyped) : item.groupProperties = [] := by
    cases item with
    | obj others =>
      have hgroup : isGroup others = false := by
        rw [Bool.eq_false_iff]
        intro hgroup
        have htype := Frame.isGroup_iff.mp hgroup
        rw [Data.IsUntyped, Data.isTyped, Data.get?, htype] at hitem
        cases hitem
      rw [Data.groupProperties_obj, hgroup]
      rfl
    | _ => rfl
  rw [Data.map_groups, Data.map_groups]
  exact (h.scene.groupProperties hgone).2

end Cleaning

end Motion
