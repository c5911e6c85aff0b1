import Motion.Proofs.Document.Outcome
import Motion.Proofs.Easing.Table

/-!
What a failed optimization leaves of the easing table. Nothing but pruning touches the table, and what
pruning does to it is to discard names, which names does not depend on the table (`Discards`). As names
that are discarded once more change nothing, pruning may be repeated on the table that it left
(`Discards.again`), and so may the optimization that failed (`optimize_failed`).
-/

set_option autoImplicit false
set_option relaxedAutoImplicit false

namespace Motion

namespace EasingTable

variable {table : EasingTable} {name other : String} {names : List String}

/-- The table after some names have been discarded. -/
def discardAll (table : EasingTable) (names : List String) : EasingTable :=
  table.run (names.map .discard)

theorem discardAll_cons (table : EasingTable) (name : String) (names : List String) :
    table.discardAll (name :: names) = (table.discard name).discardAll names :=
  rfl

theorem discardAll_append (table : EasingTable) (first second : List String) :
    table.discardAll (first ++ second) = (table.discardAll first).discardAll second := by
  rw [discardAll, List.map_append, run, List.foldl_append]
  rfl

theorem discard_of_get?_eq_none (h : table.get? name = none) : table.discard name = table := by
  rw [discard, h]

theorem discard_of_get? {program : String} (h : table.get? name = some program) :
    table.discard name =
      { table with
        programs := Entries.erase table.programs (nameOf name)
        tokens := Entries.erase table.tokens program } := by
  rw [discard, h]

theorem discard_congr (h : nameOf name = nameOf other) : table.discard name = table.discard other := by
  rw [discard, discard, get?, get?, h]

theorem get?_discard_self (table : EasingTable) (name : String) :
    (table.discard name).get? name = none := by
  cases h : table.get? name with
  | none => rwa [discard_of_get?_eq_none h]
  | some program =>
    rw [discard_of_get? h]
    exact Entries.get?_erase_self table.programs (nameOf name)

theorem get?_discard_of_ne (h : nameOf other ≠ nameOf name) :
    (table.discard other).get? name = table.get? name := by
  cases hother : table.get? other with
  | none => rw [discard_of_get?_eq_none hother]
  | some program =>
    rw [discard_of_get? hother]
    exact Entries.get?_erase_of_ne h table.programs

/-- It does not matter which of two names is discarded first. -/
theorem discard_comm (table : EasingTable) (first second : String) :
    (table.discard first).discard second = (table.discard second).discard first := by
  by_cases hsame : nameOf first = nameOf second
  · have hboth (other : EasingTable) : other.discard first = other.discard second :=
      discard_congr hsame
    rw [hboth table, hboth (table.discard second)]
  have hfirst : (table.discard second).get? first = table.get? first :=
    get?_discard_of_ne (Ne.symm hsame)
  have hsecond : (table.discard first).get? second = table.get? second := get?_discard_of_ne hsame
  cases hget : table.get? first with
  | none =>
    rw [discard_of_get?_eq_none hget, discard_of_get?_eq_none (hfirst.trans hget)]
  | some program =>
    cases hget' : table.get? second with
    | none =>
      rw [discard_of_get?_eq_none hget', discard_of_get?_eq_none (hsecond.trans hget')]
    | some program' =>
      rw [discard_of_get? (hsecond.trans hget'), discard_of_get? (hfirst.trans hget),
        discard_of_get? hget, discard_of_get? hget']
      simp only [Entries.erase, List.filter_filter, Bool.and_comm]

theorem discardAll_discard (table : EasingTable) (name : String) (names : List String) :
    (table.discard name).discardAll names = (table.discardAll names).discard name := by
  induction names generalizing table with
  | nil => rfl
  | cons other rest ih => rw [discardAll_cons, discardAll_cons, discard_comm, ih]

/-- A name that has been discarded is not discarded again. -/
theorem discard_discardAll (table : EasingTable) (h : name ∈ names) :
    (table.discardAll names).discard name = table.discardAll names := by
  induction names generalizing table with
  | nil => cases h
  | cons other rest ih =>
    rw [discardAll_cons]
    rcases List.mem_cons.mp h with rfl | h
    · rw [← discardAll_discard, discard_of_get?_eq_none (get?_discard_self table name)]
    · exact ih _ h

/-- Discarding names after some of them have been discarded leaves the same table. -/
theorem discardAll_discardAll (table : EasingTable) {fewer : List String} (h : fewer ⊆ names) :
    (table.discardAll fewer).discardAll names = table.discardAll names := by
  induction fewer generalizing table with
  | nil => rfl
  | cons name rest ih =>
    obtain ⟨hname, hrest⟩ := List.cons_subset.mp h
    rw [discardAll_cons, ih _ hrest, discardAll_discard, discard_discardAll table hname]

end EasingTable

section Pruning

variable {α β : Type} {listed others used : List String} {walk : EasingTable → Pruning α}

/-- Whether a walk changes the table by discarding names that are listed but not used, and takes no
notice of it otherwise. -/
def Discards (listed used : List String) (walk : EasingTable → Pruning α) : Prop :=
  ∃ value fault? names, (∀ table, walk table = ⟨(value, table.discardAll names), fault?⟩) ∧
    ∀ name ∈ names, name ∈ listed ∧ tokenOf name ∉ used

theorem discards_const (listed used : List String) (value : α) (fault? : Option Fault) :
    Discards listed used fun table ↦ ⟨(value, table), fault?⟩ :=
  ⟨value, fault?, [], fun _ ↦ rfl, List.forall_mem_nil _⟩

theorem Discards.mono (h : Discards listed used walk) {fewer : List String} (hlisted : listed ⊆ others)
    (hused : fewer ⊆ used) : Discards others fewer walk := by
  obtain ⟨value, fault?, names, hwalk, hnames⟩ := h
  exact ⟨value, fault?, names, hwalk, fun name hname ↦
    ⟨hlisted (hnames name hname).1, fun hmem ↦ (hnames name hname).2 (hused hmem)⟩⟩

theorem Discards.map (h : Discards listed used walk) (f : α → β) :
    Discards listed used fun table ↦ (walk table).map fun pruned ↦ (f pruned.1, pruned.2) := by
  obtain ⟨value, fault?, names, hwalk, hnames⟩ := h
  refine ⟨f value, fault?, names, fun table ↦ ?_, hnames⟩
  dsimp only
  rw [hwalk]
  rfl

/-- A walk and one after it, which is not begun where the first is stopped. -/
theorem Discards.andThen (h : Discards listed used walk) (stop : α → β)
    {next : α → EasingTable → Pruning β} (hnext : ∀ value, Discards others used (next value)) :
    Discards (listed ++ others) used fun table ↦
      match (walk table).fault? with
      | some fault => .stopped (stop (walk table).value.1, (walk table).value.2) fault
      | none => next (walk table).value.1 (walk table).value.2 := by
  obtain ⟨value, fault?, names, hwalk, hnames⟩ := h
  cases fault? with
  | some fault =>
    refine ⟨stop value, some fault, names, fun table ↦ ?_, fun name hname ↦ ?_⟩
    · dsimp only
      rw [hwalk]
      rfl
    · exact (hnames name hname).imp_left (List.mem_append_left others)
  | none =>
    obtain ⟨value', fault?, names', hwalk', hnames'⟩ := hnext value
    refine ⟨value', fault?, names ++ names', fun table ↦ ?_, fun name hname ↦ ?_⟩
    · dsimp only
      rw [hwalk, EasingTable.discardAll_append]
      exact hwalk' _
    · rcases List.mem_append.mp hname with hname | hname
      · exact (hnames name hname).imp_left (List.mem_append_left others)
      · exact (hnames' name hname).imp_left (List.mem_append_right listed)

/-- On the table that it has left a walk ends as on the table before. -/
theorem Discards.again (h : Discards listed used walk) (table : EasingTable) :
    walk (walk table).value.2 = walk table := by
  obtain ⟨value, fault?, names, hwalk, -⟩ := h
  rw [hwalk, hwalk, EasingTable.discardAll_discardAll table (List.Subset.refl names)]

/-- How a walk ends, but for the table, does not depend on the table. -/
theorem Discards.value_eq (h : Discards listed used walk) (first second : EasingTable) :
    (walk first).value.1 = (walk second).value.1 ∧ (walk first).fault? = (walk second).fault? := by
  obtain ⟨value, fault?, names, hwalk, -⟩ := h
  rw [hwalk, hwalk]
  exact ⟨rfl, rfl⟩

theorem pruneListing_table (used : List String) (table : EasingTable) (listing : Members) :
    (pruneListing used table listing).2 = table.discardAll
      ((Entries.keys listing).filter fun name ↦ !used.contains (tokenOf name)) := by
  induction listing generalizing table with
  | nil => rfl
  | cons easing rest ih =>
    obtain ⟨name, program⟩ := easing
    have hkeys : Entries.keys ((name, program) :: rest) = name :: Entries.keys rest := rfl
    rw [pruneListing, hkeys, List.filter_cons]
    cases hused : used.contains (tokenOf name) with
    | true => exact ih table
    | false => exact ih (table.discard name)

theorem easingNamesOf_obj {resource : Data} {listing : Members}
    (h : resource.get? EasingTable.easingKey = some (.obj listing)) :
    resource.easingNamesOf = Entries.keys listing := by
  rw [Data.easingNamesOf, h, Option.bind_some, Data.elements?, Option.getD_some, List.filterMap_map]
  exact congrFun (List.filterMap_eq_map (f := Prod.fst)) listing

theorem pruneResource_discards (used : List String) (resource : Data) :
    Discards resource.easingNamesOf used fun table ↦ pruneResource used table resource := by
  unfold pruneResource
  split
  · rename_i members listing hget
    refine ⟨.obj (Entries.put members EasingTable.easingKey
      (.obj (listing.filter fun easing ↦ used.contains (tokenOf easing.1)))), none,
      (Entries.keys listing).filter fun name ↦ !used.contains (tokenOf name),
      fun table ↦ ?_, fun name hname ↦ ?_⟩
    · dsimp only
      rw [pruneListing_eq, pruneListing_table]
      rfl
    · rw [List.mem_filter, Bool.not_eq_true', ← Bool.not_eq_true, List.contains_iff_mem] at hname
      rwa [easingNamesOf_obj hget]
  · split_ifs
    · exact discards_const _ _ _ none
    · exact discards_const _ _ _ (some .wrongType)
  · exact discards_const _ _ _ none

theorem pruneResources_discards (used : List String) (resources : List Data) :
    Discards (resources.flatMap Data.easingNamesOf) used fun table ↦
      pruneResources used table resources := by
  induction resources with
  | nil => exact discards_const _ _ [] none
  | cons resource rest ih =>
    have hfirst := pruneResource_discards used resource
    exact hfirst.andThen (· :: rest) fun pruned ↦ ih.map (pruned :: ·)

theorem pruneEasings_discards (limit : ℤ) (members : Members) :
    Discards (Data.obj members).easingNames (Data.obj members).usedTokens fun table ↦
      pruneEasings limit table (.obj members) := by
  unfold pruneEasings Data.usedEasings
  dsimp only
  split_ifs
  · exact discards_const _ _ _ (some (.tooDeep limit))
  · cases hget : Entries.get? members resourcesKey with
    | none => exact discards_const _ _ _ none
    | some found =>
      rw [Option.getD_some]
      cases found with
      | list resources =>
        rw [Data.easingNames, amongResources_list _ hget]
        have hpruned := (pruneResources_discards (Data.obj members).usedTokens.eraseDups resources).mono
          (List.Subset.refl _) fun token htoken ↦ List.mem_eraseDups.mpr htoken
        exact hpruned.map fun kept ↦ Data.obj (Entries.put members resourcesKey (.list kept))
      | _ =>
        dsimp only
        split_ifs
        · exact discards_const _ _ _ (some .wrongType)
        · exact discards_const _ _ _ none

end Pruning

section Cleaning

variable {limit other : ℤ} {members : Members}

theorem clean_discards (limit : ℤ) (members : Members) :
    Discards (Data.obj members).easingNames
      ((Data.obj members).dropUntypedItems limit).value.usedTokens fun table ↦
        clean limit table (.obj members) := by
  obtain ⟨typed, htyped, hsame⟩ := dropUntypedItems_obj limit members
  have hnames : (Data.obj typed).easingNames = (Data.obj members).easingNames :=
    amongResources_congr Data.easingNamesOf (hsame _ (by decide))
  unfold clean
  dsimp only
  rw [htyped]
  cases ((Data.obj members).dropUntypedItems limit).fault? with
  | some fault => exact discards_const _ _ _ (some fault)
  | none =>
    rw [← hnames, ← List.append_nil (Data.easingNames _)]
    exact (pruneEasings_discards limit typed).andThen id fun pruned ↦
      discards_const [] _ (hoistGradients limit pruned).value (hoistGradients limit pruned).fault?

theorem dropEach_eq_dropEach {depth : ℤ} {items : List Data}
    (ih : ∀ item ∈ items, (Data.dropUntyped limit depth item).fault? = none →
      (Data.dropUntyped other depth item).fault? = none →
        Data.dropUntyped limit depth item = Data.dropUntyped other depth item)
    (h : (Data.dropEach limit depth items).fault? = none)
    (hother : (Data.dropEach other depth items).fault? = none) :
    Data.dropEach limit depth items = Data.dropEach other depth items := by
  induction items with
  | nil => rfl
  | cons item rest ihrest =>
    obtain ⟨hitem, hothers⟩ := List.forall_mem_cons.mp ih
    rw [Data.dropEach] at h hother ⊢
    rw [Data.dropEach]
    split_ifs at h hother ⊢
    · obtain ⟨hfirst, hrest⟩ := Progress.fault?_cons_eq_none.mp h
      obtain ⟨hfirst', hrest'⟩ := Progress.fault?_cons_eq_none.mp hother
      rw [hitem hfirst hfirst', ihrest hothers hrest hrest']
    · exact ihrest hothers h hother

/-- What is dropped does not depend on the limit, but where it stops the walk. -/
theorem dropUntyped_eq_dropUntyped (value : Data) : ∀ depth : ℤ,
    (Data.dropUntyped limit depth value).fault? = none →
      (Data.dropUntyped other depth value).fault? = none →
        Data.dropUntyped limit depth value = Data.dropUntyped other depth value := by
  induction value using Data.parts_induction with
  | step value ih =>
    intro depth h hother
    cases value with
    | obj members =>
      rw [Data.dropUntyped_obj] at h hother ⊢
      rw [Data.dropUntyped_obj]
      cases hget : Entries.get? members itemsKey with
      | none => rfl
      | some found =>
        cases found with
        | list items =>
          rw [hget] at h hother
          obtain ⟨hdepth, hbelow⟩ := Progress.fault?_guarded_eq_none.mp h
          obtain ⟨hdepth', hbelow'⟩ := Progress.fault?_guarded_eq_none.mp hother
          rw [Progress.fault?_map] at hbelow hbelow'
          have heach : Data.dropEach limit (depth + 1) items = Data.dropEach other (depth + 1) items :=
            dropEach_eq_dropEach (fun item hitem ↦ ih item (Data.mem_parts hget hitem) (depth + 1))
              hbelow hbelow'
          dsimp only
          rw [hdepth, hdepth', heach]
        | _ => rfl
    | _ => rfl

/-- Where pruning goes through with one limit, it ends so with any other one, or stops before it discards
anything. -/
theorem pruneEasings_cases {table : EasingTable}
    (h : (pruneEasings other table (.obj members)).fault? = none) (limit : ℤ) :
    (pruneEasings limit table (.obj members)).value.2 = table ∨
      pruneEasings limit table (.obj members) = pruneEasings other table (.obj members) := by
  unfold pruneEasings Data.usedEasings at h ⊢
  dsimp only at h ⊢
  by_cases hexceed : ((Entries.get? members itemsKey).getD .null).itemsExceed limit 0 = true
  · rw [if_pos hexceed]
    exact Or.inl rfl
  · rw [if_neg hexceed]
    split_ifs at h ⊢
    · cases h
    · exact Or.inr rfl

/-- Once a document has been cleaned, with success or not, cleaning that goes through ends as if the
document had not been cleaned before. -/
theorem clean_retried (table : EasingTable) (h : (clean other table (.obj members)).fault? = none) :
    clean other (clean limit table (.obj members)).value.2 (.obj members) =
      clean other table (.obj members) := by
  cases hdropped : ((Data.obj members).dropUntypedItems limit).fault? with
  | some fault =>
    have htable : (clean limit table (.obj members)).value.2 = table := by
      rw [clean]
      simp only [hdropped]
      rfl
    rw [htable]
  | none =>
    cases hdropped' : ((Data.obj members).dropUntypedItems other).fault? with
    | some fault =>
      rw [clean] at h
      simp [hdropped', Progress.stopped] at h
    | none =>
      obtain ⟨typed, htyped, -⟩ := dropUntypedItems_obj limit members
      have hlimit : (Data.obj members).dropUntypedItems limit = .done (.obj typed) := by
        rw [← htyped]
        exact Progress.eq_done hdropped
      have hother : (Data.obj members).dropUntypedItems other = .done (.obj typed) := by
        rw [← hlimit]
        exact dropUntyped_eq_dropUntyped (.obj members) 0 hdropped' hdropped
      have htable : (clean limit table (.obj members)).value.2 =
          (pruneEasings limit table (.obj typed)).value.2 := by
        rw [clean_of_dropped table hlimit]
        cases (pruneEasings limit table (.obj typed)).fault? <;> rfl
      have hpruned : (pruneEasings other table (.obj typed)).fault? = none := by
        rw [clean_of_dropped table hother] at h
        cases hfault : (pruneEasings other table (.obj typed)).fault? with
        | some fault => simp [hfault, Progress.stopped] at h
        | none => rfl
      rw [htable]
      rcases pruneEasings_cases hpruned limit with hsame | hsame
      · rw [hsame]
      · rw [hsame, clean_of_dropped _ hother, clean_of_dropped _ hother,
          (pruneEasings_discards other typed).again table]

end Cleaning

section Optimizing

variable {settings : Settings} {table : EasingTable} {members : Members} {fault : Fault}

/-- How an optimization ends, but for the table, does not depend on the table. -/
theorem optimize_congr (settings : Settings) (first second : EasingTable) (members : Members) :
    (optimize settings first (.obj members)).result =
        (optimize settings second (.obj members)).result ∧
      (optimize settings first (.obj members)).notices =
        (optimize settings second (.obj members)).notices := by
  obtain ⟨hvalue, hfault⟩ :=
    (clean_discards settings.maxTreeDepth members).value_eq first second
  unfold optimize
  dsimp only
  rw [hvalue, hfault]
  cases (Data.obj members).checkTreeDepth settings.maxTreeDepth with
  | error fault => exact ⟨rfl, rfl⟩
  | ok =>
    cases (clean settings.maxTreeDepth second (.obj members)).fault? with
    | some fault => exact ⟨rfl, rfl⟩
    | none =>
      dsimp only
      split_ifs
      · exact ⟨rfl, rfl⟩
      · exact ⟨rfl, rfl⟩

/-- The table that an optimization leaves: the one before if the depth of the document stops it, else
that which cleaning leaves. -/
theorem optimize_table (settings : Settings) (table : EasingTable) (members : Members) :
    (optimize settings table (.obj members)).table =
      match (Data.obj members).checkTreeDepth settings.maxTreeDepth with
      | .error _ => table
      | .ok () => (clean settings.maxTreeDepth table (.obj members)).value.2 := by
  unfold optimize
  dsimp only
  cases (Data.obj members).checkTreeDepth settings.maxTreeDepth with
  | error fault => rfl
  | ok =>
    cases (clean settings.maxTreeDepth table (.obj members)).fault? with
    | some fault => rfl
    | none =>
      dsimp only
      split_ifs <;> rfl

/-- Where an optimization would have a result, it has it, with the same table, after an optimization of
the document with other settings. -/
theorem optimize_retried {retried : Settings} {result : Data}
    (h : (optimize retried table (.obj members)).result = .ok result) :
    optimize retried (optimize settings table (.obj members)).table (.obj members) =
      optimize retried table (.obj members) := by
  obtain ⟨hdepth, hclean⟩ := clean_of_optimize h
  have hretried : clean retried.maxTreeDepth (optimize settings table (.obj members)).table
      (.obj members) = clean retried.maxTreeDepth table (.obj members) := by
    rw [optimize_table]
    cases (Data.obj members).checkTreeDepth settings.maxTreeDepth with
    | error fault => rfl
    | ok => exact clean_retried table hclean
  generalize (optimize settings table (.obj members)).table = left at hretried ⊢
  simp only [optimize, hdepth, hretried]

/-- The names that an optimization discards are listed in the document but not used by its scene. -/
theorem optimize_discards (settings : Settings) (table : EasingTable) (members : Members) :
    ∃ names, (optimize settings table (.obj members)).table = table.discardAll names ∧
      ∀ name ∈ names, name ∈ (Data.obj members).easingNames ∧ tokenOf name ∉
        ((Data.obj members).dropUntypedItems settings.maxTreeDepth).value.usedTokens := by
  rw [optimize_table]
  cases (Data.obj members).checkTreeDepth settings.maxTreeDepth with
  | error fault => exact ⟨[], rfl, List.forall_mem_nil _⟩
  | ok =>
    obtain ⟨value, fault?, names, hwalk, hnames⟩ := clean_discards settings.maxTreeDepth members
    refine ⟨names, ?_, hnames⟩
    dsimp only at hwalk ⊢
    rw [hwalk]

/-- A failed optimization leaves the table as it was, unless the resources are not well-shaped or a level
that the depth of the tree does not count stops the cleaning. -/
theorem optimize_failed_table
    (h : (optimize settings table (.obj members)).result = .error fault) :
    (optimize settings table (.obj members)).table = table ∨
      ((fault = .wrongType ∨ fault = .noMembers) ∧ (Data.obj members).hasResources = false) ∨
      (fault = .tooDeep settings.maxTreeDepth ∧
        ((Data.obj members).dropUntypedItems settings.maxTreeDepth).value.hasStraightItems = false) := by
  cases hdepth : (Data.obj members).checkTreeDepth settings.maxTreeDepth with
  | error other =>
    rw [optimize_table, hdepth]
    exact Or.inl rfl
  | ok =>
    cases hclean : (clean settings.maxTreeDepth table (.obj members)).fault? with
    | none =>
      obtain ⟨result, hresult⟩ := exists_optimize hdepth hclean
      rw [hresult] at h
      cases h
    | some other =>
      rw [optimize_stopped hdepth hclean] at h
      cases h
      rcases clean_fault settings.maxTreeDepth_nonneg (exceeds_of_checkTreeDepth hdepth) hclean with
        hdeep | ⟨-, hnull, -⟩ | hwrong
      · exact Or.inr (Or.inr hdeep)
      · -- null lists no easings, so none is discarded
        obtain ⟨names, htable, hnames⟩ := optimize_discards settings table members
        have hnone : (Data.obj members).easingNames = [] :=
          amongResources_nil _ fun resources hlist ↦ by simp [hnull] at hlist
        have hnil : names = [] := by
          refine List.eq_nil_iff_forall_not_mem.mpr fun name hname ↦ ?_
          have hmem := (hnames name hname).1
          rw [hnone] at hmem
          cases hmem
        rw [htable, hnil]
        exact Or.inl rfl
      · exact Or.inr (Or.inl hwrong)

/-- A failed optimization can be retried. It leaves the table as it was, unless the resources of the
document are not well-shaped or a level stops it that the depth of the tree does not count. Even there
it has only discarded names that the document lists and its scene does not use. So with any settings a
second attempt gives the same result and the same reports as on the table before, and if it has a result
it leaves the same table. -/
theorem optimize_failed
    (h : (optimize settings table (.obj members)).result = .error fault) :
    ((optimize settings table (.obj members)).table = table ∨
      ((fault = .wrongType ∨ fault = .noMembers) ∧ (Data.obj members).hasResources = false) ∨
      (fault = .tooDeep settings.maxTreeDepth ∧
        ((Data.obj members).dropUntypedItems settings.maxTreeDepth).value.hasStraightItems = false)) ∧
    (∃ names, (optimize settings table (.obj members)).table = table.discardAll names ∧
      ∀ name ∈ names, name ∈ (Data.obj members).easingNames ∧ tokenOf name ∉
        ((Data.obj members).dropUntypedItems settings.maxTreeDepth).value.usedTokens) ∧
    ∀ retried : Settings,
      (optimize retried (optimize settings table (.obj members)).table (.obj members)).result =
          (optimize retried table (.obj members)).result ∧
        (optimize retried (optimize settings table (.obj members)).table (.obj members)).notices =
          (optimize retried table (.obj members)).notices ∧
        ∀ result, (optimize retried table (.obj members)).result = .ok result →
          optimize retried (optimize settings table (.obj members)).table (.obj members) =
            optimize retried table (.obj members) := by
  refine ⟨optimize_failed_table h, optimize_discards settings table members, fun retried ↦ ?_⟩
  obtain ⟨hresult, hnotices⟩ := optimize_congr retried
    (optimize settings table (.obj members)).table table members
  exact ⟨hresult, hnotices, fun result hresult ↦ optimize_retried hresult⟩

/-- A table of two easings. -/
def lineTable : EasingTable :=
  (((EasingTable.empty 3).add "line(0,0) end(1,1)").1.add "line(0,1) end(1,0)").1

/-- A group in a group, and two easings of which the inner group uses one. -/
def nestedDocument : Data :=
  .obj [("items", .list [.obj [("type", .str "group"), ("items", .list [.obj [("type", .str "group"),
      ("rotation", .str (Scalar.binding "@ease1(frame)")),
      ("items", .list [.obj [("type", .str "path")]])]])]]),
    ("resources", .list [.obj [("easing", .obj [("ease1", .str "line(0,0) end(1,1)"),
      ("ease2", .str "line(0,1) end(1,0)")])]])]

/-- Settings that allow one level below the root. -/
def shallowSettings : Settings :=
  { Settings.default with maxTreeDepth := 1, depth_bounds := by decide }

theorem optimize_failed_nested :
    (optimize shallowSettings lineTable nestedDocument).result = .error (.tooDeep 1) ∧
      (optimize shallowSettings lineTable nestedDocument).table = lineTable ∧
      optimize Settings.default (optimize shallowSettings lineTable nestedDocument).table
          nestedDocument = optimize Settings.default lineTable nestedDocument ∧
        (optimize Settings.default lineTable nestedDocument).table.names = ["ease1"] := by
  have hdepth : nestedDocument.checkTreeDepth 1 = .error (.tooDeep 1) := by decide +kernel
  have hfault : (optimize shallowSettings lineTable nestedDocument).result = .error (.tooDeep 1) := by
    have hlimit : nestedDocument.checkTreeDepth shallowSettings.maxTreeDepth = .error (.tooDeep 1) :=
      hdepth
    simp only [optimize, hlimit]
  have hresult : (optimize Settings.default lineTable nestedDocument).result.toOption.any
      (fun _ ↦ true) = true := by decide +kernel
  obtain ⟨result, hresult, -⟩ := Except.exists_of_any hresult
  obtain ⟨htable, -, hretried⟩ := optimize_failed hfault
  refine ⟨hfault, ?_, (hretried Settings.default).2.2 result hresult, by decide +kernel⟩
  rcases htable with hsame | ⟨-, hshape⟩ | ⟨-, hstraight⟩
  · exact hsame
  · exact absurd hshape (by decide)
  · exact absurd hstraight (by decide +kernel)

/-- A listing of easings that is a text, after one that holds an unused easing. -/
def misshapenDocument : Data :=
  .obj [("resources", .list [.obj [("easing", .obj [("ease1", .str "line(0,0) end(1,1)")])],
    .obj [("easing", .str "ease1")]])]

/-- An optimization that fails at a listing has discarded easings of the listings before. -/
theorem optimize_failed_discards :
    (optimize Settings.default lineTable misshapenDocument).result = .error .wrongType ∧
      (optimize Settings.default lineTable misshapenDocument).table ≠ lineTable := by
  have hdepth : misshapenDocument.checkTreeDepth Settings.default.maxTreeDepth = .ok () := by
    decide +kernel
  have hclean : (clean Settings.default.maxTreeDepth lineTable misshapenDocument).fault? =
      some .wrongType := by decide +kernel
  exact ⟨optimize_stopped hdepth hclean, by decide +kernel⟩

end Optimizing

end Motion
