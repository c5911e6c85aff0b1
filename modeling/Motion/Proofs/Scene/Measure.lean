import Motion.Proofs.Scene.Walk

/-!
Measures of scenes. A measure starts at the leaves, takes the greatest among the items of a group,
and lets the frame change it. The height counts the levels that walks go down; a walk through a
scene whose height is within the depth limit meets no fault but those of its steps.
-/

set_option autoImplicit false
set_option relaxedAutoImplicit false

namespace Motion

/-- Whether a walk was stopped by no other faults than those that satisfy a condition. -/
def Progress.FaultsIn {α : Type} (q : Fault → Prop) (p : Progress α) : Prop :=
  ∀ fault, p.fault? = some fault → q fault

theorem Progress.faultsIn_done {α : Type} (q : Fault → Prop) (value : α) :
    (done value).FaultsIn q := by
  intro fault h
  cases h

theorem Progress.faultsIn_cons {α : Type} {q : Fault → Prop} {first : Progress α}
    {unchanged : List α} {rest : Progress (List α)} (hfirst : first.FaultsIn q)
    (hrest : first.fault? = none → rest.FaultsIn q) : (cons first unchanged rest).FaultsIn q := by
  intro fault h
  unfold cons at h
  cases hfault : first.fault? with
  | none =>
    rw [hfault] at h
    exact hrest hfault fault h
  | some other =>
    rw [hfault] at h
    exact hfirst fault (hfault.trans h)

theorem checkDepth_eq_none {limit depth : ℤ} (h : depth ≤ limit) : checkDepth limit depth = none :=
  if_neg (Int.not_lt.mpr h)

theorem le_of_checkDepth {limit depth : ℤ} (h : checkDepth limit depth = none) : depth ≤ limit := by
  unfold checkDepth at h
  split_ifs at h with hbeyond
  exact Int.not_lt.mp hbeyond

namespace Item

section Measure

variable (f : Frame → ℕ → ℕ) (base : ℕ)

mutual

/-- A measure of an item: for a leaf the base, for a group what the frame makes of the greatest
measure of its items. -/
def measure : Item → ℕ
  | .leaf _ => base
  | .group frame items => f frame (measureIn items)

def measureIn : List Item → ℕ
  | [] => base
  | item :: rest => max (measure item) (measureIn rest)

end

theorem le_measureIn (items : List Item) : base ≤ measureIn f base items := by
  induction items with
  | nil => rw [measureIn]
  | cons item rest ih =>
    rw [measureIn]
    exact ih.trans (Nat.le_max_right _ _)

end Measure

/-- A group opens a level unless it holds no items. -/
def heightStep (frame : Frame) (n : ℕ) : ℕ :=
  if frame.holding = .absent then 0 else n + 1

/-- How many levels a walk goes down from an item. -/
abbrev height : Item → ℕ :=
  measure heightStep 0

abbrev heightIn : List Item → ℕ :=
  measureIn heightStep 0

theorem heightStep_of_ne {frame : Frame} (h : frame.holding ≠ .absent) (n : ℕ) :
    heightStep frame n = n + 1 :=
  if_neg h

theorem heightStep_mono {first second : Frame} (h : first.holding = second.holding) {n m : ℕ}
    (hle : n ≤ m) : heightStep first n ≤ heightStep second m := by
  rw [heightStep, heightStep, h]
  split_ifs
  · exact le_refl 0
  · exact Nat.succ_le_succ hle

variable {base : ℕ}

mutual

theorem listBelow_measure {f : Frame → ℕ → ℕ}
    (hf : ∀ frame n, frame.holding ≠ .absent → f { frame with holding := .listed } n = f frame n)
    (limit : ℤ) : ∀ (item : Item) (depth : ℤ), (listBelow limit depth item).fault? = none →
      measure f base (listBelow limit depth item).value = measure f base item
  | .leaf _, _, _ => rfl
  | .group frame items, depth, hfault => by
    by_cases habsent : frame.holding = .absent
    · rw [listBelow, if_pos habsent]
      rfl
    · rw [listBelow, if_neg habsent] at hfault ⊢
      obtain ⟨hcheck, hbelow⟩ := Progress.fault?_guarded_eq_none.mp hfault
      rw [hcheck, Progress.guarded_none, Progress.value_map, measure, measure,
        listEach_measure hf limit items (depth + 1) hbelow, hf frame _ habsent]

/-- Making lists keeps a measure that does not depend on how items are held. -/
theorem listEach_measure {f : Frame → ℕ → ℕ}
    (hf : ∀ frame n, frame.holding ≠ .absent → f { frame with holding := .listed } n = f frame n)
    (limit : ℤ) : ∀ (items : List Item) (depth : ℤ), (listEach limit depth items).fault? = none →
      measureIn f base (listEach limit depth items).value = measureIn f base items
  | [], _, _ => rfl
  | item :: rest, depth, hfault => by
    obtain ⟨hfirst, hrest⟩ := Progress.fault?_cons_eq_none.mp hfault
    rw [listEach, Progress.value_cons hfirst, measureIn, measureIn,
      listBelow_measure hf limit item depth hfirst, listEach_measure hf limit rest depth hrest]

end

mutual

/-- The walk that makes lists goes as deep as the groups do. -/
theorem listBelow_fault?_iff {limit : ℤ} : ∀ {item : Item} {depth : ℤ}, depth ≤ limit →
    ((listBelow limit depth item).fault? = none ↔ depth + height item ≤ limit)
  | .leaf _, depth, h => by simpa [listBelow, Progress.done, height, measure] using h
  | .group frame items, depth, h => by
    by_cases habsent : frame.holding = .absent
    · simpa [listBelow, habsent, Progress.done, height, measure, heightStep] using h
    · rw [listBelow, if_neg habsent, Progress.fault?_guarded_eq_none, Progress.fault?_map, height,
        measure, heightStep_of_ne habsent]
      constructor
      · rintro ⟨hcheck, hitems⟩
        have hheight := (listEach_fault?_iff (le_of_checkDepth hcheck)).mp hitems
        rw [heightIn] at hheight
        omega
      · intro hheight
        have hdepth : depth + 1 ≤ limit := by omega
        refine ⟨checkDepth_eq_none hdepth, (listEach_fault?_iff hdepth).mpr ?_⟩
        rw [heightIn]
        omega

theorem listEach_fault?_iff {limit : ℤ} : ∀ {items : List Item} {depth : ℤ}, depth ≤ limit →
    ((listEach limit depth items).fault? = none ↔ depth + heightIn items ≤ limit)
  | [], depth, h => by simpa [listEach, Progress.done, heightIn, measureIn] using h
  | item :: rest, depth, h => by
    rw [listEach, Progress.fault?_cons_eq_none, listBelow_fault?_iff h, listEach_fault?_iff h,
      height, heightIn, measureIn]
    omega

end

theorem listEach_fault? (limit : ℤ) (items : List Item) (depth : ℤ)
    (h : depth + heightIn items ≤ limit) : (listEach limit depth items).fault? = none :=
  (listEach_fault?_iff (by omega)).mpr h

section Changing

variable {change : Frame → List Item → Progress Frame} {p : Frame → Prop}

mutual

theorem changeBelow_measure {f g : Frame → ℕ → ℕ}
    (hchange : ∀ frame items, p frame → frame.HasList items → (change frame items).fault? = none →
      (change frame items).value.holding = frame.holding ∧
        ∀ n m, n ≤ m → g (change frame items).value n ≤ f frame m)
    (limit : ℤ) : ∀ (item : Item) (depth : ℤ),
    Every (fun frame items ↦ p frame ∧ frame.HasList items) item →
    (changeBelow change limit depth item).fault? = none →
      measure g base (changeBelow change limit depth item).value ≤ measure f base item
  | .leaf _, _, _, _ => le_refl _
  | .group frame items, depth, h, hfault => by
    obtain ⟨⟨hframe, hlist⟩, hitems⟩ := h
    rw [changeBelow] at hfault ⊢
    obtain ⟨hchanged, hbelow⟩ := Progress.fault?_guarded_eq_none.mp hfault
    obtain ⟨hholding, hmeasure⟩ := hchange frame items hframe hlist hchanged
    rw [hchanged, Progress.guarded_none]
    rcases hlist with hlisted | ⟨habsent, rfl⟩
    · rw [hholding, hlisted] at hbelow ⊢
      obtain ⟨hcheck, hbelow⟩ := Progress.fault?_guarded_eq_none.mp hbelow
      rw [hcheck, Progress.guarded_none, Progress.value_map, measure, measure]
      exact hmeasure _ _ (changeEach_measure hchange limit items (depth + 1) hitems hbelow)
    · rw [hholding, habsent, Progress.value_done, measure, measure]
      exact hmeasure _ _ (le_refl _)

/-- A walk that changes frames does not raise a measure that no change raises. -/
theorem changeEach_measure {f g : Frame → ℕ → ℕ}
    (hchange : ∀ frame items, p frame → frame.HasList items → (change frame items).fault? = none →
      (change frame items).value.holding = frame.holding ∧
        ∀ n m, n ≤ m → g (change frame items).value n ≤ f frame m)
    (limit : ℤ) : ∀ (items : List Item) (depth : ℤ),
    EveryIn (fun frame items ↦ p frame ∧ frame.HasList items) items →
    (changeEach change limit depth items).fault? = none →
      measureIn g base (changeEach change limit depth items).value ≤ measureIn f base items
  | [], _, _, _ => le_refl _
  | item :: rest, depth, h, hfault => by
    obtain ⟨hfirst, hrest⟩ := Progress.fault?_cons_eq_none.mp hfault
    have first := changeBelow_measure hchange limit item depth h.1 hfirst
    have others := changeEach_measure hchange limit rest depth h.2 hrest
    rw [changeEach, Progress.value_cons hfirst, measureIn, measureIn]
    omega

end

mutual

theorem changeBelow_faultsIn {q : Fault → Prop}
    (hchange : ∀ frame items, p frame → frame.HasList items → (change frame items).FaultsIn q ∧
      ((change frame items).fault? = none →
        (change frame items).value.holding = frame.holding))
    (limit : ℤ) : ∀ (item : Item) (depth : ℤ),
    Every (fun frame items ↦ p frame ∧ frame.HasList items) item →
    depth + height item ≤ limit → (changeBelow change limit depth item).FaultsIn q
  | .leaf _, _, _, _ => Progress.faultsIn_done q _
  | .group frame items, depth, h, hheight => by
    obtain ⟨⟨hframe, hlist⟩, hitems⟩ := h
    obtain ⟨hfaults, hholding⟩ := hchange frame items hframe hlist
    rw [changeBelow]
    cases hchanged : (change frame items).fault? with
    | some fault =>
      intro other hother
      cases hother
      exact hfaults fault hchanged
    | none =>
      rw [Progress.guarded_none, hholding hchanged]
      rcases hlist with hlisted | ⟨habsent, rfl⟩
      · have hlevel : frame.holding ≠ .absent := by simp [hlisted]
        rw [height, measure, heightStep_of_ne hlevel] at hheight
        rw [hlisted]
        dsimp only
        rw [checkDepth_eq_none (by omega), Progress.guarded_none]
        exact changeEach_faultsIn hchange limit items (depth + 1) hitems (by rw [heightIn]; omega)
      · rw [habsent]
        exact Progress.faultsIn_done q _

/-- Within the depth limit, a walk that changes frames meets no fault but those of the changes. -/
theorem changeEach_faultsIn {q : Fault → Prop}
    (hchange : ∀ frame items, p frame → frame.HasList items → (change frame items).FaultsIn q ∧
      ((change frame items).fault? = none →
        (change frame items).value.holding = frame.holding))
    (limit : ℤ) : ∀ (items : List Item) (depth : ℤ),
    EveryIn (fun frame items ↦ p frame ∧ frame.HasList items) items →
    depth + heightIn items ≤ limit → (changeEach change limit depth items).FaultsIn q
  | [], _, _, _ => Progress.faultsIn_done q _
  | item :: rest, depth, h, hheight => by
    rw [heightIn, measureIn] at hheight
    rw [changeEach]
    exact Progress.faultsIn_cons
      (changeBelow_faultsIn hchange limit item depth h.1 (by rw [height]; omega))
      fun _ ↦ changeEach_faultsIn hchange limit rest depth h.2 (by rw [heightIn]; omega)

end

end Changing

mutual

theorem spliceBelow_fault? (limit : ℤ) : ∀ (item : Item) (depth : ℤ),
    Every Frame.HasList item → depth + height item ≤ limit →
      (spliceBelow limit depth item).fault? = none
  | .leaf _, _, _, _ => rfl
  | .group frame items, depth, h, hheight => by
    obtain ⟨hlist, hitems⟩ := h
    rw [spliceBelow]
    rcases hlist with hlisted | ⟨habsent, rfl⟩
    · have hlevel : frame.holding ≠ .absent := by simp [hlisted]
      rw [height, measure, heightStep_of_ne hlevel] at hheight
      have hbelow := spliceItems_fault? limit items (depth + 1) hitems (by rw [heightIn]; omega)
      rw [hlisted]
      dsimp only
      rw [checkDepth_eq_none (by omega), Progress.guarded_none, hbelow]
      exact hbelow
    · rw [habsent]
      rfl

theorem spliceItems_fault? (limit : ℤ) : ∀ (items : List Item) (depth : ℤ),
    EveryIn Frame.HasList items → depth + heightIn items ≤ limit →
      (spliceItems limit depth items).fault? = none
  | [], _, _, _ => rfl
  | item :: rest, depth, h, hheight => by
    rw [heightIn, measureIn] at hheight
    rw [spliceItems, Progress.fault?_cons_eq_none]
    exact ⟨spliceBelow_fault? limit item depth h.1 (by rw [height]; omega),
      spliceItems_fault? limit rest depth h.2 (by rw [heightIn]; omega)⟩

end

theorem holding_ne_absent {members : Members} (h : (frameOf members).holding ≠ .absent) :
    hasItems members = true := by
  by_contra hcontains
  have hget := (Entries.contains_eq_false_iff _ _).mp (Bool.eq_false_iff.mpr hcontains)
  apply h
  rw [frameOf, hget]

mutual

/-- No item of a document goes down beyond the depth limit if the tree does not. -/
theorem height_ofData {limit : ℤ} : ∀ (value : Data) (depth : ℤ),
    Data.exceedsList limit depth [value] = false → depth ≤ limit →
      depth + height (ofData value) ≤ limit
  | .obj members, depth, h, hdepth => by
    rw [ofData]
    by_cases hgroup : Motion.isGroup members = true
    · rw [if_pos hgroup, height, measure]
      by_cases habsent : (frameOf members).holding = .absent
      · rw [heightStep, if_pos habsent]
        omega
      · rw [Data.exceedsList, holding_ne_absent habsent, Data.exceedsList, Bool.true_and,
          Bool.or_false, Bool.or_eq_false_iff, decide_eq_false_iff_not] at h
        have hbelow := heightIn_itemsOf members (depth + 1) h.2 (by omega)
        rw [heightIn] at hbelow
        rw [heightStep_of_ne habsent]
        push_cast
        omega
    · rw [if_neg hgroup, height, measure]
      omega
  | .null, depth, _, hdepth | .bool _, depth, _, hdepth | .num _, depth, _, hdepth
  | .str _, depth, _, hdepth | .list _, depth, _, hdepth => by
    rw [ofData, height, measure]
    · omega
    all_goals intro _ hvalue; cases hvalue

theorem heightIn_itemsOf {limit : ℤ} : ∀ (members : List (String × Data)) (depth : ℤ),
    Data.exceedsItems limit depth members = false → depth ≤ limit →
      depth + heightIn (itemsOf members) ≤ limit
  | [], depth, _, hdepth => by
    rw [itemsOf, heightIn, measureIn]
    omega
  | (key, .list items) :: rest, depth, h, hdepth => by
    rw [Data.exceedsItems] at h
    rw [itemsOf]
    split_ifs at h ⊢
    · exact heightIn_ofList items depth h hdepth
    · exact heightIn_itemsOf rest depth h hdepth
  | (key, .obj members) :: rest, depth, h, hdepth => by
    rw [Data.exceedsItems] at h
    rw [itemsOf]
    · split_ifs at h ⊢
      · have hlist : Data.exceedsList limit depth [.obj members] = false := by
          rw [Data.exceedsList, Data.exceedsList, Bool.or_false]
          exact h
        have hitem := height_ofData (.obj members) depth hlist hdepth
        rw [height] at hitem
        rw [heightIn, measureIn, measureIn]
        omega
      · exact heightIn_itemsOf rest depth h hdepth
    · intro _ hvalue
      cases hvalue
  | (key, .null) :: rest, depth, h, hdepth | (key, .bool _) :: rest, depth, h, hdepth
  | (key, .num _) :: rest, depth, h, hdepth | (key, .str _) :: rest, depth, h, hdepth => by
    by_cases hkey : key = itemsKey
    · simp [itemsOf, hkey, ofData, heightIn, measureIn, measure, hdepth]
    · simp only [Data.exceedsItems, if_neg hkey] at h
      simp only [itemsOf, if_neg hkey]
      exact heightIn_itemsOf rest depth h hdepth

theorem heightIn_ofList {limit : ℤ} : ∀ (items : List Data) (depth : ℤ),
    Data.exceedsList limit depth items = false → depth ≤ limit →
      depth + heightIn (ofList items) ≤ limit
  | [], depth, _, hdepth => by
    rw [ofList, heightIn, measureIn]
    omega
  | value :: rest, depth, h, hdepth => by
    have hsplit : Data.exceedsList limit depth [value] = false ∧
        Data.exceedsList limit depth rest = false := by
      cases value <;> simp_all [Data.exceedsList]
    have hitem := height_ofData value depth hsplit.1 hdepth
    have hrest := heightIn_ofList rest depth hsplit.2 hdepth
    rw [height] at hitem
    rw [heightIn] at hrest
    rw [ofList, heightIn, measureIn]
    omega

end

end Item

end Motion
