import Motion.Proofs.Document.Cleaning

/-!
How optimizing a document may end. Where the tree is within the depth limit, no walk but those of
cleaning that leave the levels of the scene finds a level beyond it (`walks_withinLimit`). Where the
resources are well-shaped, nothing but depth stops the whole, unless they are null and a static
gradient has to be stored (`optimize_wellShaped`).
-/

set_option autoImplicit false
set_option relaxedAutoImplicit false

namespace Motion

section Depth

variable {limit : ℤ} {members : Members}

theorem exceeds_of_checkTreeDepth {tree : Data} (h : tree.checkTreeDepth limit = .ok ()) :
    tree.exceeds limit 0 = false := by
  unfold Data.checkTreeDepth at h
  split_ifs at h with hexceeds
  exact Bool.eq_false_iff.mpr hexceeds

/-- Where the check of the depth accepts a document, neither the dropping of untyped items nor any pass
of collapsing finds a level beyond the limit. The scan for easings and the hoisting of gradients find
one only if items occur elsewhere than on the levels of the scene. -/
theorem walks_withinLimit (hlimit : 0 ≤ limit) (table : EasingTable)
    (h : (Data.obj members).checkTreeDepth limit = .ok ()) :
    ((Data.obj members).dropUntypedItems limit).fault? = none ∧
      (((Data.obj members).dropUntypedItems limit).value.hasStraightItems = true →
        ∀ depth, (clean limit table (.obj members)).fault? ≠ some (.tooDeep depth)) ∧
      ((clean limit table (.obj members)).fault? = none → ∀ merge depth,
        (clean limit table (.obj members)).value.1.collapse merge limit ≠ .error (.tooDeep depth)) := by
  have hwithin := exceeds_of_checkTreeDepth h
  refine ⟨?_, fun hstraight depth hdeep ↦ ?_, fun hclean merge depth hdeep ↦ ?_⟩
  · obtain ⟨typed, hdone, -, -⟩ := clean_stages hlimit hwithin table
    rw [hdone, Progress.fault?_done]
  · rcases clean_fault hlimit hwithin hdeep with
      ⟨-, hleaves⟩ | ⟨hfault, -⟩ | ⟨hfault | hfault, -⟩
    · rw [hstraight] at hleaves
      cases hleaves
    all_goals cases hfault
  · obtain ⟨cleaned, hvalue, hcleaning⟩ := clean_isCleaning hlimit hwithin hclean
    rw [hvalue] at hdeep
    obtain ⟨⟨result, hplain⟩, hfaults⟩ :=
      Data.collapse_faults hlimit (hcleaning.exceeds hwithin)
    cases merge with
    | false => simp [hplain] at hdeep
    | true => rcases hfaults _ hdeep with hfault | hfault <;> cases hfault

/-- A group within the items of a root: two levels. -/
def framedDocument : Data :=
  .obj [("items", .list [.obj [("type", .str "group"), ("items", .list [.obj [("type", .str "path"),
    ("fill", .obj [("type", .str "linear")])]])]])]

theorem walks_withinLimit_framed : framedDocument.checkTreeDepth 1 = .ok () ∧
    (framedDocument.dropUntypedItems 1).fault? = none ∧
      (∀ depth, (clean 1 (.empty 3) framedDocument).fault? ≠ some (.tooDeep depth)) ∧
        ∀ merge depth, (clean 1 (.empty 3) framedDocument).value.1.collapse merge 1 ≠
          .error (.tooDeep depth) := by
  have hdepth : framedDocument.checkTreeDepth 1 = .ok () := by decide +kernel
  have hstraight : (framedDocument.dropUntypedItems 1).value.hasStraightItems = true := by
    decide +kernel
  have hclean : (clean 1 (.empty 3) framedDocument).fault? = none := by decide +kernel
  obtain ⟨hdropped, hcleaned, hcollapsed⟩ := walks_withinLimit (by decide) (.empty 3) hdepth
  exact ⟨hdepth, hdropped, hcleaned hstraight, hcollapsed hclean⟩

/-- Objects each of which holds the next one under `item`. -/
def singlyHeld : Data :=
  .obj [("item", .obj [("item", .obj [("item", .obj [("type", .str "path")])])])]

/-- A path with items among its other members. -/
def maskedDocument : Data :=
  .obj [("items", .list [.obj [("type", .str "path"),
    ("mask", .obj [("items", .list [.obj [("items", .list [])]])])]])]

/-- Levels that only cleaning finds stop it in documents that the check of the depth accepts. -/
theorem walks_beyondLevels :
    (singlyHeld.checkTreeDepth 1 = .ok () ∧
        (clean 1 (.empty 3) singlyHeld).fault? = some (.tooDeep 1)) ∧
      maskedDocument.checkTreeDepth 1 = .ok () ∧
        (clean 1 (.empty 3) maskedDocument).fault? = some (.tooDeep 1) := by
  decide +kernel

end Depth

section Optimizing

variable {settings : Settings} {table : EasingTable} {members : Members}

theorem collapse_of_collapseOn {stack : CallStack} {merge : Bool} {limit : ℤ} {tree result : Data}
    (h : tree.collapseOn stack merge limit = .ok result) :
    tree.collapse merge limit = .ok result := by
  obtain ⟨_, -, h⟩ := Except.bind_eq_ok h
  split_ifs at h
  exact h

/-- What collapses safely has been collapsed, with merged transforms only if they were asked for. -/
theorem collapse_of_collapseSafely {merge : Bool} {limit : ℤ} {tree result : Data}
    (h : (tree.collapseSafely merge limit).2 = .ok result) :
    ∃ merged, (merged = true → merge = true) ∧ tree.collapse merged limit = .ok result := by
  have hplain (h : (tree.collapseSafely false limit).2 = .ok result) :
      tree.collapse false limit = .ok result := by
    rw [Data.collapseSafely_plain] at h
    split at h
    · rename_i hcollapsed
      exact (collapse_of_collapseOn hcollapsed).trans h
    all_goals cases h
  cases merge with
  | false => exact ⟨false, id, hplain h⟩
  | true =>
    rw [Data.collapseSafely_merging] at h
    split at h
    · rename_i hmerged
      exact ⟨true, id, (collapse_of_collapseOn hmerged).trans h⟩
    · cases h
    · exact ⟨false, fun hfalse ↦ (by cases hfalse), hplain h⟩

/-- Within a depth limit that settings allow, the walks of a collapse have all the room they need. -/
theorem collapseOn_default {limit : ℤ} (hlimit : 0 ≤ limit) (hroom : limit ≤ greatestDepth)
    (h : (Data.obj members).exceeds limit 0 = false) (merge : Bool) :
    (Data.obj members).collapseOn .default merge limit = (Data.obj members).collapse merge limit := by
  obtain ⟨limit, rfl⟩ := Int.eq_ofNat_of_zero_le hlimit
  have hbound : limit ≤ 400 := Int.ofNat_le.mp hroom
  have hdefault : limit ≤ CallStack.default.room merge := by
    cases merge <;> simp only [CallStack.default] <;> grind
  rw [Data.collapseOn_within merge h, Data.overruns_within hdefault h]
  rfl

/-- Within a depth limit that settings allow, collapsing safely has a result. -/
theorem collapseSafely_within {limit : ℤ} (hlimit : 0 ≤ limit) (hroom : limit ≤ greatestDepth)
    (h : (Data.obj members).exceeds limit 0 = false) (merge : Bool) :
    ∃ result, ((Data.obj members).collapseSafely merge limit).2 = .ok result := by
  obtain ⟨⟨plain, hplain⟩, hfaults⟩ := Data.collapse_faults hlimit h
  have hsafe : ((Data.obj members).collapseSafely false limit).2 = .ok plain := by
    rw [Data.collapseSafely_plain, collapseOn_default hlimit hroom h, hplain]
  cases merge with
  | false => exact ⟨plain, hsafe⟩
  | true =>
    rw [Data.collapseSafely_merging, collapseOn_default hlimit hroom h]
    cases hmerged : (Data.obj members).collapse true limit with
    | ok result => exact ⟨result, rfl⟩
    | error fault =>
      refine ⟨plain, ?_⟩
      rcases hfaults fault hmerged with rfl | rfl <;> exact hsafe

/-- How optimizing goes on from cleaning. -/
theorem optimize_stages (hdepth : (Data.obj members).checkTreeDepth settings.maxTreeDepth = .ok ())
    (hclean : (clean settings.maxTreeDepth table (.obj members)).fault? = none) :
    (optimize settings table (.obj members)).result =
      if settings.collapseGroups then
        ((clean settings.maxTreeDepth table (.obj members)).value.1.collapseSafely
          settings.combineProps settings.maxTreeDepth).2
      else .ok (clean settings.maxTreeDepth table (.obj members)).value.1 := by
  simp only [optimize, hdepth, hclean]
  split_ifs <;> rfl

/-- What stops cleaning stops the whole. -/
theorem optimize_stopped {fault : Fault}
    (hdepth : (Data.obj members).checkTreeDepth settings.maxTreeDepth = .ok ())
    (hclean : (clean settings.maxTreeDepth table (.obj members)).fault? = some fault) :
    (optimize settings table (.obj members)).result = .error fault := by
  simp only [optimize, hdepth, hclean]

/-- An optimization that has cleaned the document has a result. -/
theorem exists_optimize
    (hdepth : (Data.obj members).checkTreeDepth settings.maxTreeDepth = .ok ())
    (hclean : (clean settings.maxTreeDepth table (.obj members)).fault? = none) :
    ∃ result, (optimize settings table (.obj members)).result = .ok result := by
  have hlimit := settings.maxTreeDepth_nonneg
  have hexceeds := exceeds_of_checkTreeDepth hdepth
  obtain ⟨cleaned, hvalue, hcleaning⟩ := clean_isCleaning hlimit hexceeds hclean
  rw [optimize_stages hdepth hclean, hvalue]
  split_ifs
  · exact collapseSafely_within hlimit settings.depth_bounds.2 (hcleaning.exceeds hexceeds)
      settings.combineProps
  · exact ⟨_, rfl⟩

/-- An optimization with a result has passed the check of the depth and cleaned the document. -/
theorem clean_of_optimize {result : Data}
    (h : (optimize settings table (.obj members)).result = .ok result) :
    (Data.obj members).checkTreeDepth settings.maxTreeDepth = .ok () ∧
      (clean settings.maxTreeDepth table (.obj members)).fault? = none := by
  cases hcheck : (Data.obj members).checkTreeDepth settings.maxTreeDepth with
  | error fault =>
    simp only [optimize, hcheck] at h
    cases h
  | ok =>
    refine ⟨rfl, ?_⟩
    cases hfault : (clean settings.maxTreeDepth table (.obj members)).fault? with
    | none => rfl
    | some fault =>
      rw [optimize_stopped hcheck hfault] at h
      cases h

/-- Optimizing a document with well-shaped resources has a result or is stopped by the depth of the
document, unless the resources are null and some path that cleaning comes to has a static gradient,
which null cannot take. -/
theorem optimize_wellShaped (settings : Settings) (table : EasingTable)
    (hshape : (Data.obj members).hasResources = true) :
    (∃ result, (optimize settings table (.obj members)).result = .ok result) ∨
      (optimize settings table (.obj members)).result = .error (.tooDeep settings.maxTreeDepth) ∨
      (Entries.get? members resourcesKey = some .null ∧
        ((Data.obj members).dropUntypedItems settings.maxTreeDepth).value.MeetsGradient ∧
        (optimize settings table (.obj members)).result = .error .wrongType) := by
  have hlimit := settings.maxTreeDepth_nonneg
  cases hexceeds : (Data.obj members).exceeds settings.maxTreeDepth 0 with
  | true =>
    refine Or.inr (Or.inl ?_)
    simp only [optimize, Data.checkTreeDepth, hexceeds, if_true]
  | false =>
    have hdepth : (Data.obj members).checkTreeDepth settings.maxTreeDepth = .ok () := by
      rw [Data.checkTreeDepth, hexceeds]
      rfl
    cases hclean : (clean settings.maxTreeDepth table (.obj members)).fault? with
    | some fault =>
      rw [optimize_stopped hdepth hclean]
      rcases clean_fault hlimit hexceeds hclean with
        ⟨rfl, -⟩ | ⟨rfl, hnull, hmeets⟩ | ⟨-, hwrong⟩
      · exact Or.inr (Or.inl rfl)
      · exact Or.inr (Or.inr ⟨hnull, hmeets, rfl⟩)
      · rw [hshape] at hwrong
        cases hwrong
    | none => exact Or.inl (exists_optimize hdepth hclean)

theorem optimize_wellShaped_framed : framedDocument.hasResources = true ∧
    ∃ result, (optimize Settings.default (.empty 3) framedDocument).result = .ok result := by
  have hshape : framedDocument.hasResources = true := by decide
  refine ⟨hshape, ?_⟩
  have hstopped : (optimize Settings.default (.empty 3) framedDocument).result.isOk = true := by
    decide +kernel
  rcases optimize_wellShaped Settings.default (.empty 3) hshape with hresult | hdeep | ⟨hnull, -, -⟩
  · exact hresult
  · rw [show (optimize Settings.default (.empty 3) framedDocument).result = _ from hdeep] at hstopped
    cases hstopped
  · cases hnull

/-- A path with a static gradient in a document whose resources are null. -/
def unlistedDocument : Data :=
  .obj [("items", .list [.obj [("type", .str "path"), ("fill", .obj [("type", .str "linear")])]]),
    ("resources", .null)]

/-- Well-shaped resources that are null take no gradient. -/
theorem optimize_unlisted : unlistedDocument.hasResources = true ∧
    (optimize Settings.default (.empty 3) unlistedDocument).result = .error .wrongType := by
  have hdepth : unlistedDocument.checkTreeDepth Settings.default.maxTreeDepth = .ok () := by
    decide +kernel
  have hclean : (clean Settings.default.maxTreeDepth (.empty 3) unlistedDocument).fault? =
      some .wrongType := by decide +kernel
  exact ⟨by decide, optimize_stopped hdepth hclean⟩

end Optimizing

end Motion
