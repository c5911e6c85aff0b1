import Motion.Proofs.Document.Walks

/-!
Hoisting through a scene. It is put in the form in which it looks up the member that it follows and
goes on below it (`Data.hoist_obj`); so it goes, by induction on the parts of a value, to a tidied
value, unless it is stopped by a level beyond the limit or by a static gradient that no resource can
take (`Data.hoist_hoistsFrom`). Where an object holds straight items only, such a level is one that the
depth of the tree counts.
-/

set_option autoImplicit false
set_option relaxedAutoImplicit false

namespace Motion

namespace Data

variable {limit : ℤ} {listing : GradientListing}

/-- Whether hoisting meets a static gradient on its way down from a value. -/
inductive MeetsGradient : Data → Prop
  | paint {members : Members} {key : String} {paint : Data} (hpath : isPath members = true)
      (hkey : key = "fill" ∨ key = "stroke") (hget : Entries.get? members key = some paint)
      (hstatic : paint.isStaticGradient = true) : MeetsGradient (.obj members)
  | single {members : Members} {value : Data} (hpath : isPath members = false)
      (hget : Entries.get? members (childKey members) = some value)
      (below : MeetsGradient value) : MeetsGradient (.obj members)
  | listed {members : Members} {items : List Data} {item : Data} (hpath : isPath members = false)
      (hkey : childKey members = itemsKey) (hget : Entries.get? members itemsKey = some (.list items))
      (hitem : item ∈ items) (below : MeetsGradient item) : MeetsGradient (.obj members)

/-- Where hoisting goes on from an object does not depend on other members than those that it follows
or paints. -/
theorem followed_congr {members others : Members}
    (h : ∀ key ∈ [typeKey, itemKey, itemsKey, "fill", "stroke"],
      Entries.get? others key = Entries.get? members key) :
    isPath others = isPath members ∧ childKey others = childKey members ∧
      Entries.get? others (childKey members) = Entries.get? members (childKey members) := by
  refine ⟨?_, ?_, h _ ?_⟩
  · rw [isPath, isPath, h typeKey (by decide)]
  · rw [childKey, childKey, Entries.contains_congr (h itemKey (by decide))]
  · unfold childKey
    split_ifs <;> decide

/-- Whether hoisting meets a static gradient does not depend on other members than those that it
follows or paints. -/
theorem MeetsGradient.congr {members others : Members}
    (h : ∀ key ∈ [typeKey, itemKey, itemsKey, "fill", "stroke"],
      Entries.get? others key = Entries.get? members key)
    (hmeets : MeetsGradient (.obj others)) : MeetsGradient (.obj members) := by
  have hsame (key : String) (hkey : key ∈ [typeKey, itemKey, itemsKey, "fill", "stroke"]) :
      Entries.get? members key = Entries.get? others key := (h key hkey).symm
  obtain ⟨hpath, hchild, hget⟩ := followed_congr hsame
  cases hmeets with
  | @paint _ key _ hothers hpaint hfound hstatic =>
    refine .paint (hpath.trans hothers) hpaint ((hsame key ?_).trans hfound) hstatic
    rcases hpaint with rfl | rfl <;> decide
  | single hothers hfound below =>
    exact .single (hpath.trans hothers) (hchild ▸ hget.trans hfound) below
  | listed hothers hitems hfound hitem below =>
    exact .listed (hpath.trans hothers) (hchild.trans hitems)
      ((hsame itemsKey (by decide)).trans hfound) hitem below

/-- Hoisting from the value under the member that is followed. -/
def hoistMember (limit depth : ℤ) (listing : GradientListing) (key : String) :
    Data → Hoisting Data
  | .list items =>
    if key = itemsKey then
      (hoistEach limit depth listing items).map fun each ↦ (.list each.1, each.2)
    else .done (.list items, listing)
  | value => hoist limit depth listing value

/-- How hoisting may end: with a tidied value, unless it is stopped by a level beyond the limit, where
the one condition holds, or by a listing that takes no gradients, where the other one does. -/
structure HoistsFrom (limit : ℤ) (listing : GradientListing) (deep meets : Prop) (value : Data)
    (walk : Hoisting Data) : Prop where
  tidied : value.Tidied (fun _ ↦ False) walk.value.1
  fault : ∀ fault, walk.fault? = some fault →
    (fault = .tooDeep limit ∧ deep) ∨ (listing.gradients = .error fault ∧ meets)
  listing : ∀ fault, walk.value.2.gradients = .error fault → listing.gradients = .error fault

variable {deep meets deeper more : Prop} {value : Data} {walk : Hoisting Data}

theorem hoistsFrom_done (limit : ℤ) (listing : GradientListing) (deep meets : Prop) (value : Data) :
    HoistsFrom limit listing deep meets value (.done (value, listing)) where
  tidied := .same value
  fault := fun _ h ↦ by cases h
  listing := fun _ h ↦ h

theorem HoistsFrom.mono (h : HoistsFrom limit listing deep meets value walk) (hdeep : deep → deeper)
    (hmeets : meets → more) : HoistsFrom limit listing deeper more value walk where
  tidied := h.tidied
  fault := fun fault hfault ↦ (h.fault fault hfault).imp (And.imp_right hdeep) (And.imp_right hmeets)
  listing := h.listing

/-- Hoisting below a member. -/
theorem HoistsFrom.member (h : HoistsFrom limit listing deep meets value walk) {members : Members}
    {key : String} (hkey : key = itemKey ∨ key = itemsKey)
    (hget : Entries.get? members key = some value) {depth : ℤ} (hdepth : limit < depth → deep) :
    HoistsFrom limit listing deep meets (.obj members)
      (.guarded (checkDepth limit depth) (.obj members, listing)
        (walk.map fun below ↦ (.obj (Entries.put members key below.1), below.2))) := by
  unfold checkDepth
  split_ifs with hbeyond
  · refine ⟨.same _, fun fault hfault ↦ ?_, fun _ h ↦ h⟩
    exact Or.inl ⟨(Option.some_inj.mp hfault).symm, hdepth hbeyond⟩
  · exact ⟨.member hkey hget h.tidied, h.fault, h.listing⟩

/-- One walk after another one that went through. -/
theorem HoistsFrom.andThen (h : HoistsFrom limit listing deep meets value walk) {next : Hoisting Data}
    (hnext : HoistsFrom limit walk.value.2 deep meets walk.value.1 next) :
    HoistsFrom limit listing deep meets value next where
  tidied := .trans h.tidied hnext.tidied
  fault := fun fault hfault ↦
    (hnext.fault fault hfault).imp_right (And.imp_left (h.listing fault))
  listing := fun fault hfault ↦ h.listing fault (hnext.listing fault hfault)

section Paints

variable {members : Members}

/-- A gradient is stored under a fresh name, unless the listing takes none. -/
theorem add_cases (listing : GradientListing) (gradient : Data) :
    (∃ fault, listing.gradients = .error fault ∧ listing.add gradient = .error fault) ∨
      ∃ gradients next n, listing.add gradient =
        .ok (⟨.ok gradients, next, true⟩, tokenOf (gradientName n)) := by
  cases hgradients : listing.gradients with
  | error fault => exact Or.inl ⟨fault, rfl, by rw [GradientListing.add, hgradients]; rfl⟩
  | ok gradients => exact Or.inr ⟨_, _, _, by rw [GradientListing.add, hgradients]; rfl⟩

theorem hoistPaint_hoistsFrom (limit : ℤ) (listing : GradientListing) (members : Members)
    {key : String} (hkey : key = "fill" ∨ key = "stroke") :
    HoistsFrom limit listing False
      (∃ paint, Entries.get? members key = some paint ∧ paint.isStaticGradient = true) (.obj members)
      ((hoistPaint listing members key).map fun painted ↦ (.obj painted.1, painted.2)) := by
  unfold hoistPaint
  cases hget : Entries.get? members key with
  | none => exact hoistsFrom_done _ _ _ _ _
  | some paint =>
    dsimp only
    cases hstatic : paint.isStaticGradient with
    | false => exact hoistsFrom_done _ _ _ _ _
    | true =>
      rw [if_pos rfl]
      rcases add_cases listing paint with ⟨fault, hgradients, hadd⟩ | ⟨gradients, next, n, hadd⟩
      · rw [hadd]
        refine ⟨.same _, fun other hother ↦ Or.inr ⟨?_, paint, rfl, hstatic⟩, fun _ h ↦ h⟩
        rw [hgradients, Option.some_inj.mp hother]
      · rw [hadd]
        exact ⟨.paint hkey hget hstatic n, fun _ h ↦ (by cases h), fun _ h ↦ (by cases h)⟩

theorem get?_hoistPaint (listing : GradientListing) (members : Members) {key other : String}
    (hne : key ≠ other) :
    Entries.get? (hoistPaint listing members key).value.1 other = Entries.get? members other := by
  unfold hoistPaint
  cases Entries.get? members key with
  | none => rfl
  | some paint =>
    dsimp only
    split_ifs
    · cases listing.add paint with
      | error fault => rfl
      | ok added => exact Entries.get?_put_of_ne hne members _
    · rfl

/-- The stroke is hoisted after the fill. -/
theorem hoistPaints_eq (h : (hoistPaints listing members).fault? = none) :
    (hoistPaint listing members "fill").fault? = none ∧
      hoistPaints listing members = hoistPaint (hoistPaint listing members "fill").value.2
        (hoistPaint listing members "fill").value.1 "stroke" := by
  unfold hoistPaints Progress.andThen at h ⊢
  cases hfill : (hoistPaint listing members "fill").fault? with
  | some fault => simp [hfill] at h
  | none => exact ⟨rfl, rfl⟩

theorem isPath_hoistPaints (hpath : isPath members = true)
    (h : (hoistPaints listing members).fault? = none) :
    isPath (hoistPaints listing members).value.1 = true := by
  rw [(hoistPaints_eq h).2, isPath, get?_hoistPaint _ _ (by decide), get?_hoistPaint _ _ (by decide)]
  exact hpath

/-- The paints of a path are hoisted one after the other. -/
theorem hoistPaints_hoistsFrom (limit : ℤ) (listing : GradientListing)
    (hpath : isPath members = true) :
    HoistsFrom limit listing False (MeetsGradient (.obj members)) (.obj members)
      ((hoistPaints listing members).map fun painted ↦ (.obj painted.1, painted.2)) := by
  have hfill := (hoistPaint_hoistsFrom limit listing members (Or.inl rfl)).mono id
    fun ⟨_, hget, hstatic⟩ ↦ MeetsGradient.paint hpath (Or.inl rfl) hget hstatic
  unfold hoistPaints Progress.andThen
  cases hfault : (hoistPaint listing members "fill").fault? with
  | some fault => exact hfill
  | none =>
    have hstroke := hoistPaint_hoistsFrom limit (hoistPaint listing members "fill").value.2
      (hoistPaint listing members "fill").value.1 (Or.inr rfl)
    rw [get?_hoistPaint listing members (by decide)] at hstroke
    refine hfill.andThen (hstroke.mono id ?_)
    rintro ⟨paint, hget, hstatic⟩
    exact .paint hpath (Or.inr rfl) hget hstatic

end Paints

/-- Hoisting below each item of a list. -/
theorem hoistEach_hoistsFrom {depth : ℤ} {deepAt : Data → Prop} : ∀ {items : List Data}
    (listing : GradientListing), (∀ item ∈ items, ∀ listing,
      HoistsFrom limit listing (deepAt item) item.MeetsGradient item (hoist limit depth listing item)) →
      HoistsFrom limit listing (∃ item ∈ items, deepAt item) (∃ item ∈ items, item.MeetsGradient)
        (.list items) ((hoistEach limit depth listing items).map fun each ↦ (.list each.1, each.2))
  | [], _, _ => hoistsFrom_done _ _ _ _ _
  | item :: rest, listing, h => by
    obtain ⟨hitem, hrest⟩ := List.forall_mem_cons.mp h
    have hfirst := hitem listing
    rw [hoistEach]
    cases hfault : (hoist limit depth listing item).fault? with
    | some fault =>
      refine ⟨.cons hfirst.tidied (.same _), fun other hother ↦ ?_, hfirst.listing⟩
      have hended := hfirst.fault other (hfault.trans hother)
      exact hended.imp (And.imp_right fun hdeep ↦ ⟨item, List.mem_cons_self, hdeep⟩)
        (And.imp_right fun hmeets ↦ ⟨item, List.mem_cons_self, hmeets⟩)
    | none =>
      have hothers := hoistEach_hoistsFrom (hoist limit depth listing item).value.2 hrest
      refine ⟨.cons hfirst.tidied hothers.tidied, fun other hother ↦ ?_, fun other hother ↦
        hfirst.listing other (hothers.listing other hother)⟩
      refine (hothers.fault other hother).imp (And.imp_right ?_) (And.imp (hfirst.listing other) ?_)
      · rintro ⟨found, hfound, hdeep⟩
        exact ⟨found, List.mem_cons_of_mem _ hfound, hdeep⟩
      · rintro ⟨found, hfound, hmeets⟩
        exact ⟨found, List.mem_cons_of_mem _ hfound, hmeets⟩

theorem hoistBelow_eq (limit depth : ℤ) (listing : GradientListing) (key : String)
    (members : Members) : hoistBelow limit depth listing key members =
      match Entries.get? members key with
      | none => .done (members, listing)
      | some value =>
        .guarded (checkDepth limit depth) (members, listing)
          ((hoistMember limit (depth + 1) listing key value).map fun below ↦
            (Entries.put members key below.1, below.2)) := by
  induction members with
  | nil => rfl
  | cons member rest ih =>
    obtain ⟨first, value⟩ := member
    rw [Entries.get?_cons]
    by_cases hkey : first = key
    · subst hkey
      rw [if_pos rfl]
      cases value with
      | list items =>
        simp only [hoistBelow, hoistMember, Entries.put, if_true]
        split_ifs <;> rfl
      | _ => simp [hoistBelow, hoistMember, Entries.put]
    · have hrest : hoistBelow limit depth listing key ((first, value) :: rest) =
          (hoistBelow limit depth listing key rest).map fun below ↦
            ((first, value) :: below.1, below.2) := by
        cases value <;> simp [hoistBelow, hkey]
      rw [hrest, ih, if_neg hkey]
      cases Entries.get? rest key with
      | none => rfl
      | some found =>
        simp only [Entries.put, hkey, if_false]
        cases checkDepth limit depth <;> rfl

/-- Hoisting goes on below the member that it follows and leaves the others alone. -/
theorem hoist_obj (limit depth : ℤ) (listing : GradientListing) (members : Members) :
    hoist limit depth listing (.obj members) =
      if isPath members then
        (hoistPaints listing members).map fun painted ↦ (.obj painted.1, painted.2)
      else
        match Entries.get? members (childKey members) with
        | none => .done (.obj members, listing)
        | some value =>
          .guarded (checkDepth limit depth) (.obj members, listing)
            ((hoistMember limit (depth + 1) listing (childKey members) value).map fun below ↦
              (.obj (Entries.put members (childKey members) below.1), below.2)) := by
  rw [hoist, hoistBelow_eq]
  split_ifs
  · rfl
  · cases Entries.get? members (childKey members) with
    | none => rfl
    | some value =>
      dsimp only
      cases checkDepth limit depth <;> rfl

theorem childKey_cases (members : Members) :
    (childKey members = itemKey ∧ Entries.contains members itemKey = true) ∨
      (childKey members = itemsKey ∧ Entries.contains members itemKey = false) := by
  unfold childKey
  cases Entries.contains members itemKey <;> simp

/-- Hoisting goes on below the member of a group that it follows. -/
theorem hoistMember_hoistsFrom {members : Members} {found : Data} {depth : ℤ}
    {listing : GradientListing} (hpath : isPath members = false)
    (hget : Entries.get? members (childKey members) = some found)
    (ih : ∀ part ∈ (Data.obj members).parts, ∀ listing, HoistsFrom limit listing
      (part.hasStraightItems = true → ¬ part.IsWithin limit (depth + 1)) part.MeetsGradient part
        (hoist limit (depth + 1) listing part)) :
    HoistsFrom limit listing
      ((Data.obj members).hasStraightItems = true → ¬ (Data.obj members).IsWithin limit depth)
      (MeetsGradient (.obj members)) found
      (hoistMember limit (depth + 1) listing (childKey members) found) := by
  -- what is beyond the limit below a straight item is so below the object
  have hdeeper (item : Data) (hitem : item ∈ found.held)
      (hdeep : item.hasStraightItems = true → ¬ item.IsWithin limit (depth + 1))
      (hstraight : (Data.obj members).hasStraightItems = true) :
      ¬ (Data.obj members).IsWithin limit depth := by
    obtain ⟨hkey, hitems⟩ := hasStraightItems_obj hstraight
    rw [hkey] at hget
    exact fun hwithin ↦ hdeep (hasStraightItems_of_isStraight (hitems _ hget item hitem))
      (hwithin.held hget item hitem)
  cases found with
  | list items =>
    rw [hoistMember]
    split_ifs with hkey
    · refine (hoistEach_hoistsFrom listing fun item hitem ↦ ih item (mem_parts hget hitem)).mono ?_ ?_
      · rintro ⟨item, hitem, hdeep⟩
        exact hdeeper item hitem hdeep
      · rintro ⟨item, hitem, hmeets⟩
        exact .listed hpath hkey (hkey ▸ hget) hitem hmeets
    · exact hoistsFrom_done _ _ _ _ _
  | _ =>
    exact (ih _ (mem_parts hget (List.mem_singleton.mpr rfl)) listing).mono
      (hdeeper _ (List.mem_singleton.mpr rfl)) (.single hpath hget)

/-- Hoisting tidies what it walks through. It is stopped by a level beyond the limit, which below
straight items is one of the tree, or by a static gradient if the listing takes none. -/
theorem hoist_hoistsFrom (value : Data) : ∀ (depth : ℤ) (listing : GradientListing),
    HoistsFrom limit listing (value.hasStraightItems = true → ¬ value.IsWithin limit depth)
      value.MeetsGradient value (hoist limit depth listing value) := by
  induction value using parts_induction with
  | step value ih =>
    intro depth listing
    cases value with
    | obj members =>
      rw [hoist_obj]
      cases hpath : isPath members with
      | true =>
        rw [if_pos rfl]
        exact (hoistPaints_hoistsFrom limit listing hpath).mono False.elim id
      | false =>
        rw [if_neg Bool.false_ne_true]
        cases hget : Entries.get? members (childKey members) with
        | none => exact hoistsFrom_done _ _ _ _ _
        | some found =>
          have hbelow := @hoistMember_hoistsFrom limit members found depth listing hpath hget
            fun part hpart ↦ ih part hpart (depth + 1)
          have hkey : childKey members = itemKey ∨ childKey members = itemsKey :=
            (childKey_cases members).imp And.left And.left
          refine hbelow.member hkey hget fun hbeyond hstraight hwithin ↦ ?_
          have hopens : (Data.obj members).opensLevel = true := by
            rw [(hasStraightItems_obj hstraight).1] at hget
            rw [opensLevel, hasItems, Entries.contains_eq_isSome, hget]
            rfl
          exact absurd (hwithin.opens hopens) (by omega)
    | _ => exact hoistsFrom_done _ _ _ _ _

end Data

end Motion
