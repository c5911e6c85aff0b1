import Motion.Proofs.Document.Idempotence
import Motion.Proofs.Document.Retrying
import Motion.Proofs.Document.Storing
import Motion.Proofs.Easing.Occurrence

/-!
Which easings cleaning leaves. Every listing of a document keeps the easings whose tokens stand in
the texts of its scene, in their order and as they were (`clean_restricts`). From the table the others
go as well (`programs_discardAll`), so a document whose only listing is that of the table has that of
the table afterwards.
-/

set_option autoImplicit false
set_option relaxedAutoImplicit false

namespace Motion

namespace EasingTable

variable {table : EasingTable} {name : String} {names : List String}

/-- The programs of a table as a document lists them. -/
def listing (table : EasingTable) : Members :=
  table.programs.map fun entry ↦ (entry.1, .str entry.2)

theorem programs_discard (table : EasingTable) (name : String) :
    (table.discard name).programs = Entries.erase table.programs (nameOf name) := by
  cases h : table.get? name with
  | none =>
    rw [discard_of_get?_eq_none h]
    have habsent := (Entries.contains_eq_false_iff table.programs (nameOf name)).mpr h
    rw [Entries.contains, List.any_eq_false] at habsent
    refine (List.filter_eq_self.mpr fun entry hentry ↦ ?_).symm
    rw [Bool.not_eq_true']
    exact Bool.eq_false_iff.mpr (habsent entry hentry)
  | some program => rw [discard_of_get? h]

/-- Names, if they are none of tokens, take the programs under them along. -/
theorem programs_discardAll (table : EasingTable) (h : ∀ name ∈ names, nameOf name = name) :
    (table.discardAll names).programs =
      table.programs.filter fun entry ↦ !names.contains entry.1 := by
  induction names generalizing table with
  | nil => exact (List.filter_eq_self.mpr fun _ _ ↦ rfl).symm
  | cons name rest ih =>
    obtain ⟨hname, hrest⟩ := List.forall_mem_cons.mp h
    rw [discardAll_cons, ih _ hrest, programs_discard, hname, Entries.erase, List.filter_filter]
    refine List.filter_congr fun entry _ ↦ ?_
    rw [List.contains_cons, Bool.not_or, Bool.and_comm]
    rfl

theorem listing_discardAll (table : EasingTable) (h : ∀ name ∈ names, nameOf name = name) :
    (table.discardAll names).listing =
      table.listing.filter fun entry ↦ !names.contains entry.1 := by
  rw [listing, programs_discardAll table h, listing, List.filter_map]
  rfl

end EasingTable

theorem nameOf_of_head? {name : String} (h : name.toList.head? ≠ some referenceMark) :
    nameOf name = name := by
  have hkept : name.toList.dropWhile (· == referenceMark) = name.toList := by
    cases hname : name.toList with
    | nil => rfl
    | cons c rest =>
      refine List.dropWhile_cons_of_neg fun hc ↦ h ?_
      rw [hname, List.head?_cons, beq_iff_eq.mp hc]
  rw [nameOf, hkept, String.ofList_toList]

namespace Data

instance (value : Data) (name : String) : Decidable (value.UsesEasing name) :=
  decidable_of_iff _ usesEasing_iff.symm

/-- The easing listings among the resources of a document. -/
def easingListings (document : Data) : List Data :=
  document.amongResources fun resource ↦ (resource.get? EasingTable.easingKey).toList

/-- A listing without the easings that a value does not use. -/
def restrictedTo (value : Data) : Data → Data
  | .obj easings => .obj (easings.filter fun easing ↦ value.UsesEasing easing.1)
  | listing => listing

/-- Whether an easing listing is an object whose names are not written as tokens. -/
def ListsNames (listing : Data) : Prop :=
  ∃ easings, listing = .obj easings ∧
    ∀ name ∈ Entries.keys easings, name.toList.head? ≠ some referenceMark

/-- What cleaning makes of a resource: its easing listing is left with what a scene uses, and of the
other members only the gradients may change. -/
structure IsRestricted (scene resource kept : Data) : Prop where
  easings : kept.get? EasingTable.easingKey =
    (resource.get? EasingTable.easingKey).map scene.restrictedTo
  other : ∀ key, key ≠ EasingTable.easingKey → key ≠ gradientKey → kept.get? key = resource.get? key

end Data

section Stages

variable {limit : ℤ} {table pruned : EasingTable} {members others : Members}

theorem pruneResource_isRestricted {used : List String} {scene resource : Data}
    (hused : ∀ name, used.contains (tokenOf name) = decide (scene.UsesEasing name))
    (hlisting : ∀ listing ∈ resource.get? EasingTable.easingKey, listing.ListsNames) :
    scene.IsRestricted resource (pruneResource used table resource).value.1 := by
  unfold pruneResource
  split
  · rename_i listing hget
    refine ⟨?_, fun key hkey _ ↦ Entries.get?_put_of_ne hkey.symm _ _⟩
    rw [hget, Progress.value_done, Data.get?, Entries.get?_put_self, pruneListing_eq]
    simp only [hused]
    rfl
  · rename_i listing hobject hget
    obtain ⟨members, rfl⟩ := Data.exists_of_get? hget
    obtain ⟨easings, rfl, -⟩ := hlisting listing hget
    exact absurd rfl (hobject members easings rfl)
  · rename_i hget
    refine ⟨?_, fun _ _ _ ↦ rfl⟩
    rw [Progress.value_done, hget]
    rfl

theorem pruneResource_table {used : List String} {resource : Data}
    (hlisting : ∀ listing ∈ resource.get? EasingTable.easingKey, listing.ListsNames) :
    (pruneResource used table resource).value.2 = table.discardAll
      ((Entries.keys resource.easingsOf).filter fun name ↦ !used.contains (tokenOf name)) := by
  unfold pruneResource
  split
  · rename_i listing hget
    rw [Progress.value_done, pruneListing_table, Data.easingsOf, hget]
  · rename_i listing hobject hget
    obtain ⟨members, rfl⟩ := Data.exists_of_get? hget
    obtain ⟨easings, rfl, -⟩ := hlisting listing hget
    exact absurd rfl (hobject members easings rfl)
  · rename_i hget
    rw [Progress.value_done, Data.easingsOf, hget]
    rfl

/-- Pruning resources leaves each with the easings that are used and discards the others. -/
theorem pruneResources_restricts {used : List String} {scene : Data} {resources : List Data}
    (hused : ∀ name, used.contains (tokenOf name) = decide (scene.UsesEasing name))
    (hlistings : ∀ resource ∈ resources,
      ∀ listing ∈ resource.get? EasingTable.easingKey, listing.ListsNames)
    (h : (pruneResources used table resources).fault? = none) :
    List.Forall₂ scene.IsRestricted resources (pruneResources used table resources).value.1 ∧
      (pruneResources used table resources).value.2 = table.discardAll
        ((Entries.keys (resources.flatMap Data.easingsOf)).filter
          fun name ↦ !decide (scene.UsesEasing name)) := by
  induction resources generalizing table with
  | nil => exact ⟨.nil, rfl⟩
  | cons resource rest ih =>
    obtain ⟨hfirst, hrest⟩ := List.forall_mem_cons.mp hlistings
    rw [pruneResources] at h ⊢
    cases hfault : (pruneResource used table resource).fault? with
    | some fault => simp [hfault, Progress.stopped] at h
    | none =>
      simp only [hfault, Progress.fault?_map, Progress.value_map] at h ⊢
      obtain ⟨hkept, htable⟩ := ih hrest h
      refine ⟨.cons (pruneResource_isRestricted hused hfirst) hkept, ?_⟩
      rw [htable, pruneResource_table hfirst, ← EasingTable.discardAll_append, List.flatMap_cons,
        Entries.keys, Entries.keys, Entries.keys, List.map_append, List.filter_append]
      simp only [hused]

/-- Pruning that goes through prunes the resources one by one, or there is no list of them. -/
theorem pruneEasings_inv
    (h : pruneEasings limit table (.obj members) = .done (.obj others, pruned)) :
    (∃ resources kept, Entries.get? members resourcesKey = some (.list resources) ∧
        pruneResources (Data.scene members).easingTokens.eraseDups table resources =
          .done (kept, pruned) ∧
        others = Entries.put members resourcesKey (.list kept)) ∨
      ((Data.obj members).resourceList = [] ∧ others = members ∧ pruned = table) := by
  unfold pruneEasings Data.usedEasings at h
  dsimp only at h
  rw [Data.resourceList, Data.get?]
  split_ifs at h
  · cases h
  · cases hget : Entries.get? members resourcesKey with
    | none =>
      rw [hget] at h
      cases h
      exact Or.inr ⟨rfl, rfl, rfl⟩
    | some found =>
      rw [hget, Option.getD_some] at h
      cases found with
      | list resources =>
        have hfault := congrArg Progress.fault? h
        have hvalue := congrArg Progress.value h
        cases hvalue
        exact Or.inl ⟨resources, _, rfl, Progress.eq_done hfault, rfl⟩
      | _ =>
        dsimp only at h
        split_ifs at h
        all_goals cases h
        all_goals exact Or.inr ⟨rfl, rfl, rfl⟩

/-- Pruning leaves each resource with the easings that the scene uses and discards the others. -/
theorem pruneEasings_restricts
    (hlistings : ∀ listing ∈ (Data.obj members).easingListings, listing.ListsNames)
    (h : pruneEasings limit table (.obj members) = .done (.obj others, pruned)) :
    List.Forall₂ (Data.scene members).IsRestricted (Data.obj members).resourceList
        (Data.obj others).resourceList ∧
      pruned = table.discardAll ((Entries.keys (Data.obj members).easings).filter
        fun name ↦ !decide ((Data.scene members).UsesEasing name)) := by
  rw [Data.easingListings, Data.amongResources_eq] at hlistings
  rw [Data.easings, Data.amongResources_eq]
  rcases pruneEasings_inv h with ⟨resources, kept, hget, hdone, rfl⟩ | ⟨hnone, rfl, rfl⟩
  · rw [resourceList_of_get? hget] at hlistings ⊢
    rw [resourceList_of_get? (Entries.get?_put_self _ _ _)]
    have hused (name : String) :
        (Data.scene members).easingTokens.eraseDups.contains (tokenOf name) =
          decide ((Data.scene members).UsesEasing name) := by
      rw [Bool.eq_iff_iff, List.contains_iff_mem, List.mem_eraseDups, decide_eq_true_iff,
        Data.usesEasing_iff]
    have hpruned := @pruneResources_restricts table _ _ resources hused
      (fun resource hresource listing hlisting ↦ hlistings listing
        (List.mem_flatMap.mpr ⟨resource, hresource, Option.mem_toList.mpr hlisting⟩))
    rw [hdone] at hpruned
    exact hpruned rfl
  · rw [hnone]
    exact ⟨.nil, rfl⟩

end Stages

section Cleaning

variable {limit : ℤ} {table pruned : EasingTable} {members after : Members}

theorem decide_usesEasing_congr {scene other : Data} (h : other.easingTokens = scene.easingTokens) :
    (fun name ↦ decide (other.UsesEasing name)) = fun name ↦ decide (scene.UsesEasing name) := by
  funext name
  rw [decide_eq_decide, Data.usesEasing_iff, Data.usesEasing_iff, h]

theorem restrictedTo_congr {scene other : Data} (h : other.easingTokens = scene.easingTokens) :
    other.restrictedTo = scene.restrictedTo := by
  funext listing
  cases listing with
  | obj easings =>
    simp only [Data.restrictedTo, congrFun (decide_usesEasing_congr h)]
  | _ => rfl

/-- Resources that are restricted and then get gradients are restricted. -/
theorem forall₂_isRestricted {scene : Data} {resources kept same : List Data}
    (hkept : List.Forall₂ scene.IsRestricted resources kept)
    (hsame : List.Forall₂ (fun resource kept ↦ ∀ key ≠ gradientKey,
      kept.get? key = resource.get? key) kept same) :
    List.Forall₂ scene.IsRestricted resources same := by
  induction hkept generalizing same with
  | nil =>
    cases hsame
    exact .nil
  | cons hfirst _ ih =>
    cases hsame with
    | cons hlast hsame =>
      refine .cons ⟨?_, fun key heasing hgradient ↦ ?_⟩ (ih hsame)
      · rw [hlast _ (by decide), hfirst.easings]
      · rw [hlast key hgradient, hfirst.other key heasing hgradient]

theorem flatMap_listings {scene : Data} {resources kept : List Data}
    (h : List.Forall₂ scene.IsRestricted resources kept) :
    kept.flatMap (fun resource ↦ (resource.get? EasingTable.easingKey).toList) =
      (resources.flatMap fun resource ↦ (resource.get? EasingTable.easingKey).toList).map
        scene.restrictedTo := by
  induction h with
  | nil => rfl
  | @cons resource kept _ _ hfirst _ ih =>
    rw [List.flatMap_cons, List.flatMap_cons, List.map_append, ih, hfirst.easings]
    cases resource.get? EasingTable.easingKey <;> rfl

theorem easings_of_easingListings {easings : Members}
    (h : (Data.obj members).easingListings = [.obj easings]) :
    (Data.obj members).easings = easings := by
  have hof (resource : Data) : resource.easingsOf =
      (resource.get? EasingTable.easingKey).toList.flatMap fun listing ↦
        listing.members?.getD [] := by
    rw [Data.easingsOf]
    cases resource.get? EasingTable.easingKey with
    | none => rfl
    | some listing => cases listing <;> simp [Data.members?]
  rw [Data.easingListings, Data.amongResources_eq] at h
  rw [Data.easings, Data.amongResources_eq, funext hof, ← List.flatMap_assoc, h]
  exact List.append_nil easings

/-- What cleaning makes of the easings of a document. The resources stay in their order and are
restricted to what the scene uses afterwards; none that lists easings comes in. A document whose only
listing holds what the table holds does so afterwards, and if it is that of the table it stays so. -/
structure RestrictsEasings (members : Members) (table : EasingTable) (after : Members)
    (pruned : EasingTable) : Prop where
  listings : (Data.obj after).easingListings =
    (Data.obj members).easingListings.map (Data.scene after).restrictedTo
  resources : ∃ kept new, (Data.obj after).resourceList = kept ++ new ∧
    List.Forall₂ (Data.scene after).IsRestricted (Data.obj members).resourceList kept ∧
      ∀ resource ∈ new, resource.get? EasingTable.easingKey = none
  agrees : ∀ easings, (Data.obj members).easingListings = [.obj easings] →
    (∀ name, Entries.get? easings name = Entries.get? table.listing name) →
      ∃ kept, (Data.obj after).easingListings = [.obj kept] ∧
        ∀ name, Entries.get? kept name = Entries.get? pruned.listing name
  listed : (Data.obj members).easingListings = [.obj table.listing] →
    (Data.obj after).easingListings = [.obj pruned.listing]

theorem listing_discardAll_keys {easings : Members} (used : String → Bool)
    (hnames : ∀ name ∈ Entries.keys easings, name.toList.head? ≠ some referenceMark) :
    (table.discardAll ((Entries.keys easings).filter fun name ↦ !used name)).listing =
      table.listing.filter fun entry ↦ !(Entries.contains easings entry.1 && !used entry.1) := by
  rw [EasingTable.listing_discardAll]
  · refine List.filter_congr fun entry _ ↦ congrArg _ ?_
    rw [Bool.eq_iff_iff, List.contains_iff_mem, List.mem_filter, Bool.and_eq_true,
      Entries.contains_iff_mem_keys]
  · exact fun name hname ↦ nameOf_of_head? (hnames name (List.mem_of_mem_filter hname))

/-- Resources that are restricted and a table that loses the same names are what cleaning leaves. -/
theorem restrictsEasings_of
    (hlistings : ∀ listing ∈ (Data.obj members).easingListings, listing.ListsNames)
    {kept new : List Data} (hresources : (Data.obj after).resourceList = kept ++ new)
    (hkept : List.Forall₂ (Data.scene after).IsRestricted (Data.obj members).resourceList kept)
    (hnew : ∀ resource ∈ new, resource.get? EasingTable.easingKey = none)
    (htable : pruned = table.discardAll ((Entries.keys (Data.obj members).easings).filter
      fun name ↦ !decide ((Data.scene after).UsesEasing name))) :
    RestrictsEasings members table after pruned := by
  have hmap : (Data.obj after).easingListings =
      (Data.obj members).easingListings.map (Data.scene after).restrictedTo := by
    have hnothing :
        new.flatMap (fun resource ↦ (resource.get? EasingTable.easingKey).toList) = [] := by
      refine List.flatMap_eq_nil_iff.mpr fun resource hresource ↦ ?_
      rw [hnew resource hresource]
      rfl
    rw [Data.easingListings, Data.easingListings, Data.amongResources_eq, Data.amongResources_eq,
      hresources, List.flatMap_append, hnothing, List.append_nil, flatMap_listings hkept]
  have hsingle {easings : Members} (heasings : (Data.obj members).easingListings = [.obj easings]) :
      (Data.obj after).easingListings =
          [.obj (easings.filter fun easing ↦ (Data.scene after).UsesEasing easing.1)] ∧
        pruned.listing = table.listing.filter fun entry ↦
          !(Entries.contains easings entry.1 && !(Data.scene after).UsesEasing entry.1) := by
    obtain ⟨same, hsame, hnames⟩ := hlistings _ (heasings ▸ List.mem_cons_self)
    cases hsame
    refine ⟨by rw [hmap, heasings]; rfl, ?_⟩
    rw [htable, easings_of_easingListings heasings]
    exact listing_discardAll_keys _ hnames
  refine ⟨hmap, ⟨kept, new, hresources, hkept, hnew⟩, fun easings heasings hagree ↦ ?_,
    fun htables ↦ ?_⟩
  · obtain ⟨hafter, hpruned⟩ := hsingle heasings
    refine ⟨_, hafter, fun name ↦ ?_⟩
    rw [hpruned, Entries.get?_filter_keys easings (fun name ↦ (Data.scene after).UsesEasing name),
      Entries.get?_filter_keys table.listing (fun name ↦ !(Entries.contains easings name &&
        !(Data.scene after).UsesEasing name)), ← hagree]
    cases hcontains : Entries.contains easings name with
    | true => simp
    | false => simp [(Entries.contains_eq_false_iff easings name).mp hcontains]
  · obtain ⟨hafter, hpruned⟩ := hsingle htables
    rw [hafter, hpruned]
    refine congrArg (fun kept ↦ [Data.obj kept]) (List.filter_congr fun entry hentry ↦ ?_)
    have hcontains : Entries.contains table.listing entry.1 = true :=
      (Entries.contains_iff_mem_keys _ _).mpr (List.mem_map_of_mem hentry)
    rw [hcontains, Bool.true_and, Bool.not_not]

/-- Cleaning leaves of every easing listing exactly what is used, and keeps the table in step with
the document. -/
theorem clean_restricts
    (hlistings : ∀ listing ∈ (Data.obj members).easingListings, listing.ListsNames)
    {cleaned : Data} (h : clean limit table (.obj members) = .done (cleaned, pruned)) :
    ∃ after, cleaned = .obj after ∧ RestrictsEasings members table after pruned := by
  obtain ⟨typed, listed, hdropped, hpruned, hhoisted⟩ := clean_eq_done h
  obtain ⟨found, hfound, hother⟩ := dropUntypedItems_obj limit members
  rw [hdropped] at hfound
  cases hfound
  -- dropping items leaves the resources alone
  have hresources : Entries.get? typed resourcesKey = Entries.get? members resourcesKey :=
    hother _ (by decide)
  rw [Data.easingListings, ← amongResources_congr _ hresources] at hlistings
  obtain ⟨hkept, htable⟩ := pruneEasings_restricts hlistings hpruned
  rw [Data.easings, amongResources_congr _ hresources] at htable
  rw [amongResources_congr _ hresources] at hlistings
  rw [resourceList_congr hresources] at hkept
  -- hoisting leaves the easings alone, in the scene as in the resources
  obtain ⟨after, hafter, hhoisting⟩ := hoistGradients_isHoisting limit listed
  obtain ⟨same, new, hlist, hsame, hnew⟩ := hoistGradients_resources limit listed
  rw [hhoisted, Progress.value_done] at hafter hlist
  subst hafter
  have hlisted : Data.scene listed = Data.scene typed := by
    have hpruneFault : (pruneEasings limit table (.obj typed)).fault? = none := by
      rw [hpruned]
      rfl
    obtain ⟨same, hsame, hpruning⟩ := pruneEasings_isPruning hpruneFault
    rw [hpruned] at hsame
    cases hsame
    rw [Data.scene, Data.scene, hpruning.other _ (by decide)]
  have htokens : (Data.scene after).easingTokens = (Data.scene typed).easingTokens := by
    rw [hhoisting.scene.easingTokens fun _ ↦ False.elim, hlisted]
  refine ⟨after, rfl, restrictsEasings_of hlistings hlist ?_
    (fun resource hresource ↦ hnew resource hresource _ (by decide)) ?_⟩
  · refine (forall₂_isRestricted hkept hsame).imp fun _ _ hresource ↦ ⟨?_, hresource.other⟩
    rw [hresource.easings, restrictedTo_congr htokens]
  · rw [htable]
    simp only [congrFun (decide_usesEasing_congr htokens)]
    rfl

/-- The painted document lists what the table holds. Of its two easings the one that the path uses
stays, in the document and in the table. -/
theorem clean_restricts_painted :
    paintedDocument.easingListings = [.obj paintedTable.listing] ∧
      (clean 1 paintedTable paintedDocument).fault? = none ∧
      (clean 1 paintedTable paintedDocument).value.1.easingListings =
        [.obj [("ease1", .str "line(0,0) end(1,1)")]] ∧
      ∃ members after, paintedDocument = .obj members ∧
        (clean 1 paintedTable paintedDocument).value.1 = .obj after ∧
          RestrictsEasings members paintedTable after
            (clean 1 paintedTable paintedDocument).value.2 := by
  have hlists : paintedDocument.easingListings = [.obj paintedTable.listing] := rfl
  have hclean : (clean 1 paintedTable paintedDocument).fault? = none := by decide +kernel
  have hlistings : ∀ listing ∈ paintedDocument.easingListings, listing.ListsNames := by
    rw [hlists]
    exact List.forall_mem_singleton.mpr ⟨_, rfl, by decide⟩
  obtain ⟨after, hafter, hrestricts⟩ := clean_restricts hlistings (Progress.eq_done hclean)
  exact ⟨hlists, hclean, by rfl, _, after, rfl, hafter, hrestricts⟩

end Cleaning

end Motion
