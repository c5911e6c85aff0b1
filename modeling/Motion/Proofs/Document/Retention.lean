import Motion.Proofs.Document.Idempotence
import Motion.Proofs.Document.Outcome
import Motion.Proofs.Scene.Unwrapping

/-!
What becomes of the items of a document that is optimized. Every pass retains the typed items
(`optimize_retains`): dropping takes untyped items from lists and leaves the others alone
(`Data.dropUntyped_retains`), hoisting replaces gradients (`Data.Tidied.retains`), collapsing unwraps
groups. Dropping looks at lists only. Where `items` is a list wherever it comes, or what stands in its
place is typed down to the last item, nothing untyped is left (`Data.IsCleanable`); a single object
without a type stays (`optimize_leavesUntyped`).
-/

set_option autoImplicit false
set_option relaxedAutoImplicit false

namespace Motion

namespace Data

section Tidying

variable {merge collapse : Bool} {gone : Data → Prop} {value tidied : Data}

theorem Tidied.isNull (h : Tidied gone value tidied) : tidied.isNull = value.isNull := by
  induction h with
  | trans _ _ first second => exact second.trans first
  | _ => rfl

/-- Another value that may replace the one under a key leaves the traits as they are. -/
theorem map_trait_put {members : Members} {key : String} {old new : Data}
    (hkey : key ∈ [itemKey, "fill", "stroke"]) (hget : Entries.get? members key = some old)
    (hnull : new.isNull = old.isNull) :
    (lasting merge (Entries.put members key new)).map trait = (lasting merge members).map trait := by
  have hlasting : isLasting merge (key, new) = isLasting merge (key, old) := by
    simp only [isLasting, isPlain, isPublic, hnull]
  have htrait : trait (key, new) = trait (key, old) := by
    have hlisted : [itemKey, "fill", "stroke"].contains key = true := List.contains_iff_mem.mpr hkey
    cases hold : old.isNull with
    | false => simp only [trait, isReplaceable, hnull, hold, hlisted]; rfl
    | true =>
      obtain rfl : old = .null := by cases old <;> first | rfl | cases hold
      obtain rfl : new = .null := by cases new <;> first | rfl | (rw [hold] at hnull; cases hnull)
      rfl
  induction members with
  | nil => cases hget
  | cons member rest ih =>
    obtain ⟨first, found⟩ := member
    rw [Entries.get?_cons] at hget
    rw [Entries.put]
    split_ifs at hget ⊢ with hsame
    · have hsame : first = key := hsame
      cases hget
      subst hsame
      rw [lasting, lasting, List.filter_cons, List.filter_cons, hlasting]
      split_ifs
      · rw [List.map_cons, List.map_cons, htrait]
      · rfl
    · have hrest := ih hget
      rw [lasting, lasting] at hrest ⊢
      rw [List.filter_cons, List.filter_cons]
      split_ifs
      · rw [List.map_cons, List.map_cons, hrest]
      · exact hrest

theorem isAlike_put {members : Members} {key : String} {old new : Data}
    (hkey : key ∈ [itemKey, "fill", "stroke"]) (hget : Entries.get? members key = some old)
    (hnull : new.isNull = old.isNull) :
    IsAlike merge (.obj members) (.obj (Entries.put members key new)) := by
  have htype : key ≠ typeKey := by
    rintro rfl
    exact absurd hkey (by decide)
  have hitems : key ≠ itemsKey := by
    rintro rfl
    exact absurd hkey (by decide)
  have hgroup := isGroup_congr (Entries.get?_put_of_ne htype members new)
  refine ⟨Entries.get?_put_of_ne htype members new, ?_, ?_⟩
  · rw [traits, traits, hgroup, Entries.erase_put_of_ne hitems]
    refine map_trait_put hkey ?_ hnull
    rw [Entries.get?_erase_of_ne (Ne.symm hitems), hget]
  · rw [get?, get?, Entries.get?_put_of_ne hitems]

/-- What has been tidied is still the same item. -/
theorem Tidied.isAlike (h : Tidied gone value tidied) : IsAlike merge value tidied := by
  induction h with
  | same value => exact .refl merge value
  | trans _ _ first second => exact first.trans second
  | drop | cons => exact ⟨rfl, rfl, rfl⟩
  | member hkey hget below =>
    rcases hkey with rfl | rfl
    · exact isAlike_put (by decide) hget below.isNull
    · exact isAlike_put_items hget _
  | paint hkey hget hstatic =>
    refine isAlike_put (by rcases hkey with rfl | rfl <;> decide) hget ?_
    unfold isStaticGradient at hstatic
    split at hstatic
    · rfl
    · cases hstatic

/-- What stands under `items` is retained when it is tidied, and so are the items below a value. -/
theorem Tidied.retains (hgone : ∀ item, gone item → item.isTyped = false)
    (h : Tidied gone value tidied) : ∀ wraps,
      Retains collapse merge (value.asItems wraps) (tidied.asItems wraps) ∧
        Retains collapse merge (value.contents wraps) (tidied.contents wraps) := by
  have hobject {members others : Members} (alike : IsAlike merge (.obj members) (.obj others))
      (below : ∀ wraps, Retains collapse merge ((Data.obj members).contents wraps)
        ((Data.obj others).contents wraps)) (wraps : Bool) :
      Retains collapse merge ((Data.obj members).asItems wraps) ((Data.obj others).asItems wraps) ∧
        Retains collapse merge ((Data.obj members).contents wraps)
          ((Data.obj others).contents wraps) :=
    ⟨.single alike below, below wraps⟩
  have hsame {members : Members} {key : String} (hkey : key ≠ itemsKey) (value : Data)
      (wraps : Bool) : Retains collapse merge ((Data.obj members).contents wraps)
        ((Data.obj (Entries.put members key value)).contents wraps) := by
    rw [contents, contents, get?, get?, Entries.get?_put_of_ne hkey]
    exact .refl _
  induction h with
  | same value => exact fun wraps ↦ ⟨.refl _, .refl _⟩
  | trans _ _ first second =>
    exact fun wraps ↦ ⟨(first wraps).1.trans (second wraps).1, (first wraps).2.trans (second wraps).2⟩
  | drop hitem _ others =>
    exact fun wraps ↦ ⟨.dropped (hgone _ hitem) (others wraps).1, .nil⟩
  | cons hfirst _ first others =>
    have alike : IsAlike merge _ _ := hfirst.isAlike
    refine fun wraps ↦ ⟨.kept alike ?_ (others wraps).1, .nil⟩
    rw [itemsBelow, itemsBelow, alike.isGroupObject]
    exact (first _).2
  | @member members key value tidied hkey hget hbelow below =>
    have htidied : Tidied gone (.obj members) (.obj (Entries.put members key tidied)) :=
      .member hkey hget hbelow
    refine hobject htidied.isAlike fun wraps ↦ ?_
    rcases hkey with rfl | rfl
    · exact hsame (by decide) tidied wraps
    · have hfound : (Data.obj members).get? itemsKey = some value := hget
      have hput : (Data.obj (Entries.put members itemsKey tidied)).get? itemsKey = some tidied :=
        Entries.get?_put_self members itemsKey tidied
      rw [contents_of_get? hfound, contents_of_get? hput]
      exact (below wraps).1
  | @paint members key paint hkey hget hstatic n =>
    have htidied : Tidied gone (.obj members)
        (.obj (Entries.put members key (.str (tokenOf (gradientName n))))) :=
      .paint hkey hget hstatic n
    exact hobject htidied.isAlike (hsame (by rcases hkey with rfl | rfl <;> decide) _)

end Tidying

section Dropping

variable {limit depth : ℤ} {merge collapse : Bool}

theorem isAlike_dropUntyped (limit depth : ℤ) (value : Data) :
    IsAlike merge value (dropUntyped limit depth value).value := by
  cases value with
  | obj members =>
    rw [dropUntyped_obj]
    cases hget : Entries.get? members itemsKey with
    | none => exact .refl merge _
    | some found =>
      cases found with
      | list items =>
        dsimp only
        cases checkDepth limit depth with
        | some fault => exact .refl merge _
        | none => exact isAlike_put_items hget _
      | _ => exact .refl merge _
  | _ => exact .refl merge _

/-- What dropping makes of a list: its typed items, each without the untyped ones below it. -/
theorem value_dropEach {items : List Data} (h : (dropEach limit depth items).fault? = none) :
    (dropEach limit depth items).value =
        (items.filter isTyped).map (fun item ↦ (dropUntyped limit depth item).value) ∧
      ∀ item ∈ items.filter isTyped, (dropUntyped limit depth item).fault? = none := by
  induction items with
  | nil => exact ⟨rfl, List.forall_mem_nil _⟩
  | cons item rest ih =>
    rw [dropEach] at h ⊢
    rw [List.filter_cons]
    split_ifs at h ⊢ with htyped
    · obtain ⟨hfirst, hrest⟩ := Progress.fault?_cons_eq_none.mp h
      obtain ⟨hvalue, hall⟩ := ih hrest
      rw [Progress.value_cons hfirst, List.map_cons, hvalue]
      exact ⟨rfl, List.forall_mem_cons.mpr ⟨hfirst, hall⟩⟩
    · exact ih h

/-- A list under `items` loses its untyped items; where there is none, nothing is dropped. -/
theorem get?_dropUntyped {value : Data} (h : (dropUntyped limit depth value).fault? = none) :
    (∃ items, value.get? itemsKey = some (.list items) ∧
        (dropUntyped limit depth value).value.get? itemsKey = some (.list
          ((items.filter isTyped).map fun item ↦ (dropUntyped limit (depth + 1) item).value)) ∧
        ∀ item ∈ items.filter isTyped, (dropUntyped limit (depth + 1) item).fault? = none) ∨
      (∀ items, value.get? itemsKey ≠ some (.list items)) ∧
        (dropUntyped limit depth value).value = value := by
  cases value with
  | obj members =>
    rw [dropUntyped_obj] at h ⊢
    rw [get?]
    cases hget : Entries.get? members itemsKey with
    | none => exact Or.inr ⟨fun items hitems ↦ (by cases hitems), rfl⟩
    | some found =>
      cases found with
      | list items =>
        rw [hget] at h
        obtain ⟨hdepth, hbelow⟩ := Progress.fault?_guarded_eq_none.mp h
        rw [Progress.fault?_map] at hbelow
        obtain ⟨hvalue, hall⟩ := value_dropEach hbelow
        refine Or.inl ⟨items, rfl, ?_, hall⟩
        dsimp only
        rw [hdepth, Progress.guarded_none, Progress.value_map, ← hvalue]
        exact Entries.get?_put_self members itemsKey _
      | _ => exact Or.inr ⟨fun items hitems ↦ (by cases hitems), rfl⟩
  | _ => exact Or.inr ⟨fun items hitems ↦ (by cases hitems), rfl⟩

theorem retains_filter_typed {items : List Data} {f : Data → Data}
    (h : ∀ item ∈ items.filter isTyped, Retains collapse merge [item] [f item]) :
    Retains collapse merge items ((items.filter isTyped).map f) := by
  induction items with
  | nil => exact .nil
  | cons item rest ih =>
    rw [List.filter_cons] at h ⊢
    split_ifs at h ⊢ with htyped
    · obtain ⟨hitem, hrest⟩ := List.forall_mem_cons.mp h
      exact hitem.append (ih hrest)
    · exact .dropped (Bool.eq_false_iff.mpr htyped) (ih h)

/-- Dropping retains the items below a value. -/
theorem dropUntyped_retains (value : Data) : ∀ (depth : ℤ) (wraps : Bool),
    (dropUntyped limit depth value).fault? = none →
      Retains collapse merge (value.contents wraps)
        ((dropUntyped limit depth value).value.contents wraps) := by
  induction value using parts_induction with
  | step value ih =>
    intro depth wraps h
    rcases get?_dropUntyped h with ⟨items, hget, hdropped, hall⟩ | ⟨-, hsame⟩
    · rw [contents_of_get? hget, contents_of_get? hdropped]
      refine retains_filter_typed fun item hitem ↦ ?_
      have hcontents : item ∈ value.contents wraps := by
        rw [contents_of_get? hget]
        exact (List.mem_filter.mp hitem).1
      exact .single (isAlike_dropUntyped limit (depth + 1) item) fun wraps ↦
        ih item (mem_parts_of_mem_contents hcontents) (depth + 1) wraps (hall item hitem)
    · rw [hsame]
      exact .refl _

/-- Whether dropping comes to all untyped items below a value: where `items` is a list, it goes on from
the typed ones; where it is not, what counts as an item in its place is typed, and so is everything
below. -/
inductive IsCleanable (collapse : Bool) : Bool → Data → Prop
  | listed {wraps : Bool} {value : Data} {items : List Data}
      (hget : value.get? itemsKey = some (.list items))
      (below : ∀ item ∈ items.filter isTyped,
        IsCleanable collapse (collapse && item.isGroupObject) item) : IsCleanable collapse wraps value
  | unlisted {wraps : Bool} {value : Data} (hget : ∀ items, value.get? itemsKey ≠ some (.list items))
      (below : ∀ item ∈ value.contents wraps, IsFullyTyped collapse item) :
      IsCleanable collapse wraps value

/-- Where dropping comes to all untyped items, none is left. -/
theorem IsCleanable.isFullyTyped {wraps : Bool} {value : Data} (h : IsCleanable collapse wraps value) :
    ∀ depth : ℤ, (dropUntyped limit depth value).fault? = none →
      ∀ item ∈ (dropUntyped limit depth value).value.contents wraps, IsFullyTyped collapse item := by
  induction h with
  | @listed wraps value items hget _ ih =>
    intro depth hfault
    rcases get?_dropUntyped hfault with ⟨others, hothers, hdropped, hall⟩ | ⟨hnone, -⟩
    · obtain rfl : items = others := by
        rw [hget] at hothers
        cases hothers
        rfl
      rw [contents_of_get? hdropped]
      refine List.forall_mem_map.mpr fun item hitem ↦ ?_
      have alike : IsAlike true item (dropUntyped limit (depth + 1) item).value :=
        isAlike_dropUntyped limit (depth + 1) item
      refine .intro (alike.isTyped.trans (List.mem_filter.mp hitem).2) ?_
      rw [itemsBelow, alike.isGroupObject]
      exact ih item hitem (depth + 1) (hall item hitem)
    · exact absurd hget (hnone items)
  | @unlisted wraps value hget below =>
    intro depth hfault
    rcases get?_dropUntyped hfault with ⟨items, hitems, -⟩ | ⟨-, hsame⟩
    · exact absurd hitems (hget items)
    · rw [hsame]
      exact below

end Dropping

end Data

section Optimizing

variable {limit : ℤ} {settings : Settings} {table pruned : EasingTable} {members : Members}
  {cleaned result : Data}

/-- Storing gradients leaves the items of a document alone. -/
theorem get?_items_hoistGradients (limit : ℤ) (members : Members) :
    (hoistGradients limit (.obj members)).value.get? itemsKey =
      (hoist limit 0 (.ofDocument members) (.obj members)).value.1.get? itemsKey := by
  have htidied := (@Data.hoist_hoistsFrom limit (.obj members) 0 (.ofDocument members)).tidied
  obtain ⟨others, hothers, -⟩ := htidied.obj
  rw [hoistGradients, Progress.value_map]
  generalize (hoist limit 0 (.ofDocument members) (.obj members)).value = hoisted at hothers ⊢
  obtain ⟨document, listing⟩ := hoisted
  obtain rfl : document = .obj others := hothers
  exact get?_intoDocument_of_ne listing others (by decide)

/-- Cleaning drops untyped items first and retains all that is left. -/
theorem clean_retains (h : clean limit table (.obj members) = .done (cleaned, pruned)) :
    ∃ typed, Data.dropUntyped limit 0 (.obj members) = .done typed ∧ ∀ collapse merge wraps,
      Data.Retains collapse merge (typed.contents wraps) (cleaned.contents wraps) := by
  obtain ⟨typed, listed, hdropped, hpruned, hhoisted⟩ := clean_eq_done h
  refine ⟨.obj typed, hdropped, fun collapse merge wraps ↦ ?_⟩
  have hpruneFault : (pruneEasings limit table (.obj typed)).fault? = none := by
    rw [hpruned]
    rfl
  obtain ⟨found, hfound, hpruning⟩ := pruneEasings_isPruning hpruneFault
  rw [hpruned] at hfound
  cases hfound
  have hlisted : (Data.obj listed).contents wraps = (Data.obj typed).contents wraps := by
    rw [Data.contents, Data.contents, Data.get?, Data.get?, hpruning.other _ (by decide)]
  have hcleaned : cleaned.contents wraps =
      (hoist limit 0 (.ofDocument listed) (.obj listed)).value.1.contents wraps := by
    have hitems := get?_items_hoistGradients limit listed
    rw [hhoisted, Progress.value_done] at hitems
    rw [Data.contents, Data.contents, hitems]
  have htidied := (@Data.hoist_hoistsFrom limit (.obj listed) 0 (.ofDocument listed)).tidied
  rw [← hlisted, hcleaned]
  exact (htidied.retains (fun _ ↦ False.elim) wraps).2

/-- What an optimization makes of the items that are left once untyped ones have been dropped. -/
theorem exists_retains (h : (optimize settings table (.obj members)).result = .ok result) :
    ∃ typed, Data.dropUntyped settings.maxTreeDepth 0 (.obj members) = .done typed ∧
      ∃ merge, (merge = true → settings.collapseGroups = true ∧ settings.combineProps = true) ∧
        Data.Retains settings.collapseGroups merge (typed.contents settings.collapseGroups)
          (result.contents settings.collapseGroups) := by
  obtain ⟨hdepth, hclean⟩ := clean_of_optimize h
  obtain ⟨typed, hdropped, hcleaned⟩ := clean_retains (Progress.eq_done hclean)
  refine ⟨typed, hdropped, ?_⟩
  rw [optimize_stages hdepth hclean] at h
  cases hcollapse : settings.collapseGroups with
  | false =>
    rw [hcollapse, if_neg Bool.false_ne_true] at h
    cases h
    exact ⟨false, fun hfalse ↦ (by cases hfalse), hcleaned false false false⟩
  | true =>
    rw [hcollapse, if_pos rfl] at h
    obtain ⟨merge, hmerge, hresult⟩ := collapse_of_collapseSafely h
    exact ⟨merge, fun hmerged ↦ ⟨rfl, hmerge hmerged⟩,
      (hcleaned true merge true).trans (Data.collapse_retains hresult)⟩

/-- Optimizing retains the typed items of a document: what goes is untyped, or it is a group that is
unwrapped where groups are collapsed. Where dropping comes to all untyped items, none is left. -/
theorem optimize_retains (h : (optimize settings table (.obj members)).result = .ok result) :
    (∃ merge, (merge = true → settings.collapseGroups = true ∧ settings.combineProps = true) ∧
      Data.Retains settings.collapseGroups merge
        ((Data.obj members).contents settings.collapseGroups)
        (result.contents settings.collapseGroups)) ∧
      ((Data.obj members).IsCleanable settings.collapseGroups settings.collapseGroups →
        ∀ found, result.Reaches found → found.isTyped = true) := by
  obtain ⟨typed, hdropped, merge, hmerge, hretains⟩ := exists_retains h
  have hfault : (Data.dropUntyped settings.maxTreeDepth 0 (.obj members)).fault? = none := by
    rw [hdropped]
    rfl
  have hdropping (wraps : Bool) : Data.Retains settings.collapseGroups merge
      ((Data.obj members).contents wraps) (typed.contents wraps) := by
    have hvalue := congrArg Progress.value hdropped
    rw [Progress.value_done] at hvalue
    rw [← hvalue]
    exact Data.dropUntyped_retains (.obj members) 0 wraps hfault
  refine ⟨⟨merge, hmerge, (hdropping _).trans hretains⟩, fun hcleanable found hfound ↦ ?_⟩
  have htyped := hcleanable.isFullyTyped 0 hfault
  rw [hdropped, Progress.value_done] at htyped
  exact (Data.isFullyTyped_of_reaches (hretains.isFullyTyped htyped) hfound).typed

/-- An item without a type, a group around a single path, and a group of two paths between which there
is another item without a type. -/
def wrappedDocument : Data :=
  .obj [("items", .list [.obj [("name", .str "parent")],
    .obj [("type", .str "group"), ("items", .obj [("type", .str "path")])],
    .obj [("type", .str "group"), ("items", .list [.obj [("type", .str "path")],
      .obj [("name", .str "parent")], .obj [("type", .str "path")]])]])]

theorem isCleanable_wrappedDocument : wrappedDocument.IsCleanable true true := by
  have hpath : (Data.obj [("type", .str "path")]).IsFullyTyped true :=
    .intro rfl (List.forall_mem_nil _)
  have hsingle : (Data.obj [("type", .str "group"),
      ("items", .obj [("type", .str "path")])]).IsCleanable true true :=
    .unlisted nofun (List.forall_mem_singleton.mpr hpath)
  have hleaf : (Data.obj [("type", .str "path")]).IsCleanable true false :=
    .unlisted nofun (List.forall_mem_nil _)
  refine .listed rfl (List.forall_mem_cons.mpr ⟨hsingle, List.forall_mem_singleton.mpr ?_⟩)
  exact .listed rfl (List.forall_mem_cons.mpr ⟨hleaf, List.forall_mem_singleton.mpr hleaf⟩)

theorem optimize_retains_wrapped : ∃ result,
    (optimize Settings.default (.empty 3) wrappedDocument).result = .ok result ∧
      result.children.length = 2 ∧
      (∃ merge, Data.Retains true merge (wrappedDocument.contents true) (result.contents true)) ∧
        ∀ found, result.Reaches found → found.isTyped = true := by
  have houtcome : (optimize Settings.default (.empty 3) wrappedDocument).result.toOption.any
      (fun result ↦ result.children.length == 2) = true := by decide +kernel
  obtain ⟨result, hresult, hlength⟩ := Except.exists_of_any houtcome
  obtain ⟨⟨merge, -, hretains⟩, htyped⟩ := optimize_retains hresult
  exact ⟨result, hresult, beq_iff_eq.mp hlength, ⟨merge, hretains⟩,
    htyped isCleanable_wrappedDocument⟩

/-- A document whose only item has no type and stands under `items` itself. -/
def loneDocument : Data :=
  .obj [("items", .obj [("name", .str "parent")])]

/-- An item without a type stays if it stands under `items` itself, not in a list. -/
theorem optimize_leavesUntyped : ∃ result found,
    (optimize Settings.default (.empty 3) loneDocument).result = .ok result ∧
      result.Reaches found ∧ found.isTyped = false := by
  have houtcome : (optimize Settings.default (.empty 3) loneDocument).result.toOption.any
      (fun result ↦ result.children.any fun found ↦ !found.isTyped) = true := by decide +kernel
  obtain ⟨result, hresult, hany⟩ := Except.exists_of_any houtcome
  obtain ⟨found, hchild, huntyped⟩ := List.any_eq_true.mp hany
  exact ⟨result, found, hresult, .single hchild, by simpa using huntyped⟩

end Optimizing

end Motion
