import Motion.Proofs.Document.Outcome
import Motion.Proofs.Scene.Carrying

/-!
The easings of an optimized document. Cleaning lists those that the scene uses, and collapsing leaves
the list alone but rewrites the scene. So an easing that the optimized scene uses is listed as it was
before (`optimize_listsUsed`), and an easing that is listed is used, but for those that only pivots
mentioned about which nothing turns or scales (`optimize_usesListed`).
-/

set_option autoImplicit false
set_option relaxedAutoImplicit false

namespace Motion

namespace Data

variable {merge : Bool} {limit : ℤ} {members : Members} {result : Data}

/-- Collapsing leaves the resources alone. -/
theorem amongResources_collapse {α : Type} (view : Data → List α)
    (h : (Data.obj members).collapse merge limit = .ok result) :
    result.amongResources view = (Data.obj members).amongResources view := by
  rcases collapse_eq_ok h with ⟨rfl, -, -⟩ | ⟨others, items, hmembers, -, rfl⟩
  · rfl
  · cases hmembers
    rw [amongResources, amongResources, get?, get?, Entries.get?_put_of_ne (by decide)]

theorem exists_group_congr {tree other : Data}
    (h : tree.groups.map propertiesOf = other.groups.map propertiesOf) {group : Members}
    (hgroup : group ∈ tree.groups) :
    ∃ same ∈ other.groups, propertiesOf same = propertiesOf group := by
  have hmem : propertiesOf group ∈ other.groups.map propertiesOf := by
    rw [← h]
    exact List.mem_map_of_mem hgroup
  exact List.mem_map.mp hmem

/-- Documents whose groups have the same properties have the same texts in them. -/
theorem mem_transformTexts_congr {tree other : Data}
    (h : tree.groups.map propertiesOf = other.groups.map propertiesOf) {s : String}
    (hs : s ∈ tree.transformTexts) : s ∈ other.transformTexts := by
  obtain ⟨group, hgroup, property, hmember⟩ := mem_transformTexts.mp hs
  obtain ⟨same, hsame, heq⟩ := exists_group_congr h hgroup
  exact mem_transformTexts.mpr ⟨same, hsame, property, (mem_congr_propertiesOf heq).mpr hmember⟩

/-- Groups with distinct keys keep their tokens under tags if all texts do. -/
theorem keepsTokens_of_mem_groups {tree : Data}
    (hkeys : ∀ group ∈ tree.groups, (Entries.keys group).Nodup)
    (htexts : ∀ s ∈ tree.transformTexts, keepsTokens s = true) {group : Members}
    (hgroup : group ∈ tree.groups) : KeepsTokens group where
  nodup := Entries.nodup_keys_filter (hkeys group hgroup) _
  texts := fun property s hmember ↦
    htexts s (mem_transformTexts.mpr ⟨group, hgroup, property, hmember⟩)

end Data

section Optimizing

variable {settings : Settings} {table : EasingTable} {members : Members} {result : Data}

/-- An optimized document is a cleaned one, or one that has been collapsed after that. -/
theorem optimize_eq_ok
    (h : (optimize settings table (.obj members)).result = .ok result) :
    ∃ cleaned, IsCleaning members cleaned ∧
      (result = .obj cleaned ∨ ∃ merge,
        (merge = true → settings.collapseGroups = true ∧ settings.combineProps = true) ∧
          (Data.obj cleaned).collapse merge settings.maxTreeDepth = .ok result) := by
  obtain ⟨hdepth, hclean⟩ := clean_of_optimize h
  obtain ⟨cleaned, hvalue, hcleaning⟩ :=
    clean_isCleaning settings.maxTreeDepth_nonneg (exceeds_of_checkTreeDepth hdepth) hclean
  refine ⟨cleaned, hcleaning, ?_⟩
  rw [optimize_stages hdepth hclean, hvalue] at h
  split_ifs at h with hcollapse
  · obtain ⟨merge, hmerge, hresult⟩ := collapse_of_collapseSafely h
    exact Or.inr ⟨merge, fun hmerged ↦ ⟨hcollapse, hmerge hmerged⟩, hresult⟩
  · exact Or.inl (Except.ok.inj h).symm

/-- An easing that a document lists is still listed with its program once the document is optimized, if
the items of the optimized document use it. Where transforms are merged, the blanks within a binding
must not keep the parts of a token apart. -/
theorem optimize_listsUsed
    (htexts : settings.collapseGroups = true → settings.combineProps = true →
      ∀ s ∈ (Data.obj members).transformTexts, Data.gainsNoToken s = true)
    (h : (optimize settings table (.obj members)).result = .ok result) {name : String}
    {program : Data} (hlisted : (name, program) ∈ (Data.obj members).easings)
    (hused : tokenOf name ∈ result.usedTokens) : (name, program) ∈ result.easings := by
  obtain ⟨cleaned, hcleaning, hresult⟩ := optimize_eq_ok h
  have hkept (hcleaned : tokenOf name ∈ (Data.obj cleaned).usedTokens) :
      (name, program) ∈ (Data.obj cleaned).easings := by
    rw [hcleaning.easings, List.mem_filter]
    exact ⟨hlisted, List.contains_iff_mem.mpr hcleaned⟩
  rcases hresult with rfl | ⟨merge, hmerge, hcollapse⟩
  · exact hkept hused
  · have hgains (hmerged : merge = true) :
        ∀ s ∈ (Data.obj cleaned).transformTexts, Data.gainsNoToken s = true := fun s hs ↦
      htexts (hmerge hmerged).1 (hmerge hmerged).2 s
        (Data.mem_transformTexts_congr hcleaning.groups hs)
    rw [Data.easings, Data.amongResources_collapse _ hcollapse]
    exact hkept (Data.usedTokens_collapse hgains hcollapse hused)

/-- A group in a group, both of which are shifted by easings, and a listing of three easings. -/
def easedDocument : Data :=
  .obj [("items", .list [.obj [("type", .str "group"),
      ("translateX", .str (Scalar.binding "@ease1(frame) * 2")),
      ("items", .list [.obj [("type", .str "group"),
        ("translateX", .str (Scalar.binding "@ease2(frame)")),
        ("items", .list [.obj [("type", .str "path")], .obj [("type", .str "path")]])]])]]),
    ("resources", .list [.obj [("easing", .obj [("ease1", .str "line(0,0) end(1,1)"),
      ("ease2", .str "line(0,1) end(1,0)"), ("ease3", .str "line(0,1) end(1,1)")])]])]

theorem optimize_listsUsed_eased : ∃ result,
    (optimize Settings.default (.empty 3) easedDocument).result = .ok result ∧
      "@ease1" ∈ result.usedTokens ∧ ("ease1", .str "line(0,0) end(1,1)") ∈ result.easings := by
  have htexts : ∀ s ∈ easedDocument.transformTexts, Data.gainsNoToken s = true := by decide +kernel
  have hlisted : ("ease1", .str "line(0,0) end(1,1)") ∈ easedDocument.easings :=
    List.mem_cons_self
  have hused : (optimize Settings.default (.empty 3) easedDocument).result.toOption.any
      (fun result ↦ result.usedTokens.contains "@ease1") = true := by decide +kernel
  obtain ⟨result, hresult, htoken⟩ := Except.exists_of_any hused
  rw [List.contains_iff_mem] at htoken
  exact ⟨result, hresult, htoken,
    optimize_listsUsed (fun _ _ ↦ htexts) hresult hlisted htoken⟩

/-- A root that turns by an easing itself. -/
def turnedRoot : Data :=
  .obj [("type", .str "group"), ("rotation", .str (Scalar.binding "@ease1(frame)")),
    ("items", .list [.obj [("type", .str "path")]]),
    ("resources", .list [.obj [("easing", .obj [("ease1", .str "line(0,0) end(1,1)")])]])]

/-- What the root mentions beside its items keeps no easing listed. -/
theorem optimize_unlistsUsed : turnedRoot.easings = [("ease1", .str "line(0,0) end(1,1)")] ∧
    ∃ result, (optimize Settings.default (.empty 3) turnedRoot).result = .ok result ∧
      "@ease1" ∈ result.easingTokens ∧ result.easings = [] := by
  have houtcome : (optimize Settings.default (.empty 3) turnedRoot).result.toOption.any (fun result ↦
      result.easingTokens.contains "@ease1" && result.easings.isEmpty) = true := by decide +kernel
  obtain ⟨result, hresult, htest⟩ := Except.exists_of_any houtcome
  rw [Bool.and_eq_true, List.contains_iff_mem, List.isEmpty_iff] at htest
  exact ⟨rfl, result, hresult, htest⟩

/-- An easing that an optimized document lists is used by its items, unless pivots of the document
mention it about which nothing turns or scales. Where transforms are merged, no binding may be empty or
lose a token with its blanks. -/
theorem optimize_usesListed
    (hkeys : ∀ group ∈ (Data.obj members).groups, (Entries.keys group).Nodup)
    (htexts : settings.collapseGroups = true → settings.combineProps = true →
      ∀ s ∈ (Data.obj members).transformTexts, Data.keepsTokens s = true)
    (h : (optimize settings table (.obj members)).result = .ok result) {name : String}
    (hlisted : name ∈ result.easingNames) :
    tokenOf name ∈ result.usedTokens ∨ ∃ group ∈ (Data.obj members).groups,
      tokenOf name ∈ Data.tokensInMembers (idlePivots group) := by
  obtain ⟨cleaned, hcleaning, hresult⟩ := optimize_eq_ok h
  rcases hresult with rfl | ⟨merge, hmerge, hcollapse⟩
  · exact Or.inl (hcleaning.names name hlisted)
  · rw [or_iff_not_imp_right]
    intro hidle
    have hgroups (hmerged : merge = true) : ∀ group ∈ (Data.obj cleaned).groups,
        KeepsTokens group ∧ tokenOf name ∉ Data.tokensInMembers (idlePivots group) := by
      intro group hgroup
      obtain ⟨same, hsame, heq⟩ := Data.exists_group_congr hcleaning.groups hgroup
      have hkeeps := Data.keepsTokens_of_mem_groups hkeys
        (htexts (hmerge hmerged).1 (hmerge hmerged).2) hsame
      refine ⟨hkeeps.congr heq.symm, fun hmem ↦ hidle ⟨same, hsame, ?_⟩⟩
      rwa [← idlePivots_propertiesOf, heq, idlePivots_propertiesOf]
    refine Data.mem_usedTokens_collapse hgroups hcollapse (hcleaning.names name ?_)
    rwa [Data.easingNames, ← Data.amongResources_collapse _ hcollapse]

theorem optimize_usesListed_eased : ∃ result,
    (optimize Settings.default (.empty 3) easedDocument).result = .ok result ∧
      "ease1" ∈ result.easingNames ∧ "@ease1" ∈ result.usedTokens := by
  have hkeys : ∀ group ∈ easedDocument.groups, (Entries.keys group).Nodup := by decide +kernel
  have htexts : ∀ s ∈ easedDocument.transformTexts, Data.keepsTokens s = true := by decide +kernel
  have hidle : ∀ group ∈ easedDocument.groups,
      tokenOf "ease1" ∉ Data.tokensInMembers (idlePivots group) := by decide +kernel
  have hnames : (optimize Settings.default (.empty 3) easedDocument).result.toOption.any
      (fun result ↦ result.easingNames.contains "ease1") = true := by decide +kernel
  obtain ⟨result, hresult, hlisted⟩ := Except.exists_of_any hnames
  rw [List.contains_iff_mem] at hlisted
  refine ⟨result, hresult, hlisted, ?_⟩
  refine (optimize_usesListed hkeys (fun _ _ ↦ htexts) hresult hlisted).resolve_right ?_
  rintro ⟨group, hgroup, hmem⟩
  exact hidle group hgroup hmem

/-- A document of some items that lists an easing. -/
def easingScene (items : List Data) : Data :=
  .obj [("items", .list items),
    ("resources", .list [.obj [("easing", .obj [("ease1", .str "line(0,0) end(1,1)")])]])]

/-- A group of two paths with one more member. -/
def pairedPaths (key binding : String) : Data :=
  .obj [("type", .str "group"), (key, .str (Scalar.binding binding)),
    ("items", .list [.obj [("type", .str "path")], .obj [("type", .str "path")]])]

/-- Whether a document is optimized to one that lists the easing but does not use it. -/
def shipsUnused (document : Data) : Bool :=
  (optimize Settings.default (.empty 3) document).result.toOption.any fun result ↦
    result.easingNames.contains "ease1" && !result.usedTokens.contains "@ease1"

/-- Collapsing loses the mention of an easing in a pivot about which nothing turns, with the blank that
ends its name, and where it is joined to an empty binding. -/
theorem optimize_unusesListed :
    shipsUnused (easingScene [pairedPaths "pivotX" "@ease1(frame)"]) = true ∧
      shipsUnused (easingScene [pairedPaths "rotation" "@ease1 2(frame)"]) = true ∧
        shipsUnused (easingScene [.obj [("type", .str "group"),
          ("translateX", .str (Scalar.binding "@ease1(frame)")),
          ("items", .list [pairedPaths "translateX" ""])]]) = true := by
  decide +kernel

end Optimizing

end Motion
