import Motion.Proofs.Document.Moving

/-!
What hoisting makes of a document. Some static gradients have been moved from the tree, which is all
of the document but its resources, to the end of the gradients that the resources store
(`exists_hoists`). So nothing is lost: the tokens that have been written, each replaced by the gradient
stored under its name, give back the tree (`hoistGradients_lossless`).
-/

set_option autoImplicit false
set_option relaxedAutoImplicit false

namespace Motion

namespace Data

section Trees

variable {members others : Members} {place : Place} {paint value : Data}

/-- A document but for its resources. -/
def withoutResources : Data → Data
  | .obj members => .obj (Entries.erase members resourcesKey)
  | value => value

/-- The places that hoisting comes to are below members that hold items or paints. -/
theorem Paints.exists_key (h : value.Paints place paint) :
    ∃ key rest, place = .member key :: rest ∧ key ∈ [itemKey, itemsKey, "fill", "stroke"] := by
  cases h with
  | @paint _ key _ _ hkey => exact ⟨key, [], rfl, by rcases hkey with rfl | rfl <;> decide⟩
  | @single members _ _ place =>
    refine ⟨childKey members, place, rfl, ?_⟩
    rcases childKey_cases members with ⟨hkey, -⟩ | ⟨hkey, -⟩ <;> rw [hkey] <;> decide
  | listed => exact ⟨itemsKey, _, rfl, by decide⟩

/-- What hoisting comes to does not depend on other members than those that it follows or paints. -/
theorem Paints.congr (h : ∀ key ∈ [typeKey, itemKey, itemsKey, "fill", "stroke"],
    Entries.get? others key = Entries.get? members key)
    (hpaints : (Data.obj members).Paints place paint) : (Data.obj others).Paints place paint := by
  obtain ⟨hpath, hchild, hget⟩ := followed_congr h
  cases hpaints with
  | @paint _ key _ htrue hkey hpaint =>
    refine .paint (hpath.trans htrue) hkey ((h key ?_).trans hpaint)
    rcases hkey with rfl | rfl <;> decide
  | single hfalse hvalue below =>
    have hsingle := @Paints.single others
    rw [hchild] at hsingle
    exact hsingle (hpath.trans hfalse) (hget.trans hvalue) below
  | listed hfalse hkey hitems hitem below =>
    exact .listed (hpath.trans hfalse) (hchild.trans hkey) ((h _ (by decide)).trans hitems) hitem
      below

theorem withoutResources_write {key : String} (hkey : key ≠ resourcesKey) (new : Data)
    (rest : Place) (value : Data) :
    (write new (.member key :: rest) value).withoutResources =
      write new (.member key :: rest) value.withoutResources := by
  cases value with
  | obj members =>
    have herase := Entries.get?_erase_of_ne hkey.symm members
    rw [withoutResources, write, write, herase]
    cases Entries.get? members key with
    | none => rfl
    | some found => exact congrArg Data.obj (Entries.erase_put_of_ne hkey members _)
  | _ => rfl

theorem withoutResources_undoAll {moves : List Move}
    (h : ∀ move ∈ moves, ∃ key rest, move.place = .member key :: rest ∧ key ≠ resourcesKey)
    (value : Data) :
    (undoAll moves value).withoutResources = undoAll moves value.withoutResources := by
  induction moves with
  | nil => rfl
  | cons move others ih =>
    obtain ⟨⟨key, rest, hplace, hkey⟩, hothers⟩ := List.forall_mem_cons.mp h
    have hundo (value : Data) : undoAll (move :: others) value =
        write move.gradient move.place (undoAll others value) := rfl
    rw [hundo, hundo, hplace, withoutResources_write hkey, ih hothers]

theorem withoutResources_put (members : Members) (value : Data) :
    (Data.obj (Entries.put members resourcesKey value)).withoutResources =
      (Data.obj members).withoutResources :=
  congrArg Data.obj (Entries.erase_put_self members resourcesKey value)

end Trees

/-- What hoisting makes of a document. Static gradients are moved from places of the tree, all that
hoisting comes to, and stored behind the gradients that there are, under new names; nothing else
changes. -/
structure Hoists (moves : List Move) (document hoisted : Data) : Prop where
  before : ∀ move ∈ moves, document.Paints move.place move.gradient ∧
    move.gradient.isStaticGradient = true
  after : ∀ move ∈ moves, hoisted.Paints move.place (.str (tokenOf move.name))
  undone : (undoAll moves hoisted).withoutResources = document.withoutResources
  settled : ∀ place paint, hoisted.Paints place paint → paint.isStaticGradient = false
  names : Extends document.storedGradients firstGradient (moves.map Move.entry)
  stored : hoisted.storedGradients = document.storedGradients ++ moves.map Move.entry
  found : ∀ move ∈ moves, Entries.get? hoisted.storedGradients move.name = some move.gradient
  resources : moves ≠ [] →
    Stores hoisted.storedGradients document.resourceList hoisted.resourceList
  unmoved : moves = [] → hoisted = document

end Data

section Documents

variable {limit : ℤ} {members others : Members}

theorem storedGradients_of_ok {gradients : Members}
    (h : (GradientListing.ofDocument members).gradients = .ok gradients) :
    (Data.obj members).storedGradients = gradients := by
  unfold GradientListing.ofDocument at h
  dsimp only at h
  rw [Data.storedGradients, Data.resourceList, Data.get?]
  cases hget : Entries.get? members resourcesKey with
  | none =>
    rw [hget] at h
    cases h
    rfl
  | some found =>
    rw [hget] at h
    cases found with
    | list resources =>
      dsimp only at h ⊢
      cases hamong : gradientsAmong resources with
      | none =>
        rw [hamong] at h
        cases h
        rfl
      | some value =>
        rw [hamong] at h
        cases value with
        | obj listed =>
          cases h
          rfl
        | _ => cases h
    | _ =>
      dsimp only at h
      split_ifs at h

theorem Stores.storedGradients {gradients : Members} {resources : List Data}
    (hlist : Entries.get? members resourcesKey = some (.list resources)) {before : List Data}
    (h : Stores gradients before resources) : (Data.obj members).storedGradients = gradients := by
  have hamong : gradientsAmong resources = some (.obj gradients) := by
    cases h with
    | extend hbefore hfirst =>
      rw [gradientsAmong_append hbefore, gradientsAmong, List.findSome?_cons, Data.get?,
        Entries.get?_put_self]
    | create hnone =>
      rw [gradientsAmong_append hnone]
      rfl
  rw [Data.storedGradients, resourceList_of_get? hlist, hamong]
  rfl

theorem hoists_nothing
    (h : ∀ place paint, (Data.obj members).Paints place paint → paint.isStaticGradient = false) :
    Data.Hoists [] (.obj members) (.obj members) where
  before := List.forall_mem_nil _
  after := List.forall_mem_nil _
  undone := rfl
  settled := h
  names := ⟨List.forall_mem_nil _, List.nodup_nil, List.forall_mem_nil _⟩
  stored := (List.append_nil _).symm
  found := List.forall_mem_nil _
  resources := fun hmoves ↦ absurd rfl hmoves
  unmoved := fun _ ↦ rfl

/-- Moves in the tree and resources that store the gradients are what hoisting makes of a document. -/
theorem hoists_of_stores {moves : List Data.Move} {kept : List Data} (hsome : moves ≠ [])
    (hmoves : Data.Relocates moves (.obj members) (.obj others))
    (hnames : Extends (Data.obj members).storedGradients firstGradient (moves.map Data.Move.entry))
    (hstores : Stores ((Data.obj members).storedGradients ++ moves.map Data.Move.entry)
      (Data.obj members).resourceList kept) :
    Data.Hoists moves (.obj members) (.obj (Entries.put others resourcesKey (.list kept))) := by
  have hlist := Entries.get?_put_self others resourcesKey (.list kept)
  have hstored := hstores.storedGradients hlist
  -- the tree does not look at the resources
  have hsame (key : String) (hkey : key ∈ [typeKey, itemKey, itemsKey, "fill", "stroke"]) :
      Entries.get? (Entries.put others resourcesKey (.list kept)) key = Entries.get? others key := by
    refine Entries.get?_put_of_ne ?_ others _
    rintro rfl
    exact absurd hkey (by decide)
  refine ⟨hmoves.before, fun move hmove ↦ (hmoves.after move hmove).congr hsame, ?_,
    fun place paint hpaints ↦ hmoves.settled place paint (hpaints.congr fun key hkey ↦
      (hsame key hkey).symm), hnames, hstored, fun move hmove ↦ ?_, fun _ ↦ ?_,
    fun hnone ↦ absurd hnone hsome⟩
  · have hplaces : ∀ move ∈ moves, ∃ key rest, move.place = .member key :: rest ∧
        key ≠ resourcesKey := by
      intro move hmove
      obtain ⟨key, rest, hplace, hkey⟩ := (hmoves.before move hmove).1.exists_key
      refine ⟨key, rest, hplace, ?_⟩
      rintro rfl
      exact absurd hkey (by decide)
    rw [Data.withoutResources_undoAll hplaces, Data.withoutResources_put,
      ← Data.withoutResources_undoAll hplaces, hmoves.undone]
  · have hentry : move.entry ∈ moves.map Data.Move.entry := List.mem_map_of_mem hmove
    have hfresh := (Entries.contains_eq_false_iff _ _).mp (hnames.fresh _ hentry)
    have hget := Entries.get?_of_mem hnames.distinct hentry
    rw [hstored, Entries.get?_append]
    exact (congrArg (Option.or · _) hfresh).trans hget
  · rw [hstored, resourceList_of_get? hlist]
    exact hstores

/-- Where hoisting goes through it has moved static gradients into the resources. -/
theorem exists_hoists {hoisted : Data} (h : hoistGradients limit (.obj members) = .done hoisted) :
    ∃ moves, Data.Hoists moves (.obj members) hoisted := by
  have hfault : (hoist limit 0 (.ofDocument members) (.obj members)).fault? = none :=
    congrArg Progress.fault? h
  obtain ⟨others, hothers, hsame, -⟩ :=
    (@Data.hoist_hoistsFrom limit (.obj members) 0 (.ofDocument members)).tidied.obj
  obtain ⟨moves, hmoves, htakes⟩ := Data.hoist_moves (.obj members) 0 _ hfault
  have hvalue := congrArg Progress.value h
  rw [hoistGradients, Progress.value_map, ← Prod.mk.eta (p := Progress.value _), hothers] at hvalue
  rw [hothers] at hmoves
  generalize (hoist limit 0 (.ofDocument members) (.obj members)).value.2 = listing at htakes hvalue
  dsimp only [Progress.value_done] at hvalue
  subst hvalue
  refine ⟨moves, ?_⟩
  rcases htakes.cases with ⟨hnone, rfl⟩ | ⟨gradients, hsome, hgradients, hafter, hused, hextends⟩
  · obtain rfl := List.map_eq_nil_iff.mp hnone
    obtain rfl : others = members := Data.obj.inj hmoves.undone
    rw [intoDocument_unused rfl]
    exact hoists_nothing hmoves.settled
  · have hinto : listing.intoDocument others = Entries.put others resourcesKey
        (.list (storeGradients (gradients ++ moves.map Data.Move.entry)
          (Data.obj others).resourceList)) := by
      unfold GradientListing.intoDocument
      rw [hused, hafter]
      rfl
    obtain rfl := storedGradients_of_ok hgradients
    rw [hinto, resourceList_congr (hsame _ (by decide))]
    exact hoists_of_stores (fun hnone ↦ hsome (hnone ▸ rfl)) hmoves hextends
      (storeGradients_stores _ _)

end Documents

namespace Data

/-- A value with what is stored under the names of some tokens in the places of these. -/
def restore (stored : Members) (written : List (Place × String)) (value : Data) : Data :=
  written.foldr
    (fun token value ↦ write ((Entries.get? stored token.2).getD .null) token.1 value) value

theorem restore_eq {stored : Members} {moves : List Move}
    (h : ∀ move ∈ moves, Entries.get? stored move.name = some move.gradient) (value : Data) :
    restore stored (moves.map fun move ↦ (move.place, move.name)) value = undoAll moves value := by
  induction moves with
  | nil => rfl
  | cons move rest ih =>
    obtain ⟨hmove, hrest⟩ := List.forall_mem_cons.mp h
    rw [List.map_cons, restore, List.foldr_cons, ← restore, ih hrest, hmove]
    rfl

/-- Whether a document comes from another one by writing tokens, told by their places and names, for
gradients that the resources store, in such a way that nothing is lost. -/
structure IsLossless (written : List (Place × String)) (document hoisted : Data) : Prop where
  taken : ∀ token ∈ written, ∃ gradient, document.Paints token.1 gradient ∧
    gradient.isStaticGradient = true ∧
      Entries.get? hoisted.storedGradients token.2 = some gradient
  tokens : ∀ token ∈ written, hoisted.Paints token.1 (.str (tokenOf token.2))
  restored : (restore hoisted.storedGradients written hoisted).withoutResources =
    document.withoutResources
  distinct : (written.map Prod.snd).Nodup
  fresh : ∀ token ∈ written, Entries.contains document.storedGradients token.2 = false
  stored : ∃ gradients, hoisted.storedGradients = document.storedGradients ++ gradients ∧
    Entries.keys gradients = written.map Prod.snd
  resources : written ≠ [] →
    Stores hoisted.storedGradients document.resourceList hoisted.resourceList
  unwritten : written = [] → hoisted = document
  settled : ∀ place paint, hoisted.Paints place paint → paint.isStaticGradient = false

end Data

section Lossless

variable {limit : ℤ} {members : Members}

/-- Hoisting is lossless. -/
theorem hoistGradients_lossless {hoisted : Data}
    (h : hoistGradients limit (.obj members) = .done hoisted) :
    ∃ written, Data.IsLossless written (.obj members) hoisted := by
  obtain ⟨moves, hmoves⟩ := exists_hoists h
  have hnames : (moves.map fun move ↦ (move.place, move.name)).map Prod.snd =
      (moves.map Data.Move.entry).map Prod.fst := by
    rw [List.map_map, List.map_map]
    rfl
  refine ⟨moves.map fun move ↦ (move.place, move.name), List.forall_mem_map.mpr fun move hmove ↦ ?_,
    List.forall_mem_map.mpr hmoves.after, ?_, ?_, List.forall_mem_map.mpr fun move hmove ↦ ?_,
    ⟨_, hmoves.stored, ?_⟩, fun hsome ↦ ?_, fun hnone ↦ ?_, hmoves.settled⟩
  · obtain ⟨hpaints, hstatic⟩ := hmoves.before move hmove
    exact ⟨move.gradient, hpaints, hstatic, hmoves.found move hmove⟩
  · rw [Data.restore_eq hmoves.found, hmoves.undone]
  · rw [hnames]
    exact hmoves.names.distinct
  · exact hmoves.names.fresh _ (List.mem_map_of_mem hmove)
  · exact hnames.symm
  · exact hmoves.resources fun hnone ↦ hsome (hnone ▸ rfl)
  · exact hmoves.unmoved (List.map_eq_nil_iff.mp hnone)

/-- A path with two static gradients and one that refers to a gradient. Of the names for the
gradients the first is taken. -/
def gradedDocument : Data :=
  .obj [("items", .list [.obj [("type", .str "group"), ("item", .obj [("type", .str "path"),
        ("fill", .obj [("type", .str "linear")]), ("stroke", .obj [("type", .str "radial")])])],
      .obj [("type", .str "path"), ("fill", .obj [("type", .str "linear"),
        ("link", .str "@gradient1000")])]]),
    ("resources", .list [.obj [("gradient", .obj [("gradient1000", .obj [])])]])]

theorem hoistGradients_lossless_graded : (hoistGradients 2 gradedDocument).fault? = none ∧
    Entries.keys (hoistGradients 2 gradedDocument).value.storedGradients =
      ["gradient1000", "gradient1001", "gradient1002"] ∧
    ∃ written, Data.IsLossless written gradedDocument (hoistGradients 2 gradedDocument).value := by
  have hfault : (hoistGradients 2 gradedDocument).fault? = none := by decide +kernel
  exact ⟨hfault, by decide +kernel, hoistGradients_lossless (Progress.eq_done hfault)⟩

end Lossless

end Motion
