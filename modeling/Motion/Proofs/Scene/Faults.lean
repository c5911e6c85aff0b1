import Motion.Proofs.Scene.Content
import Motion.Proofs.Scene.Levels
import Motion.Proofs.Scene.Measure
import Motion.Proofs.Scene.Merging

/-!
What stops a scene from being collapsed. The walks of collapsing go down through groups only, so
none of them goes deeper than the tree does: in a tree within the limit they are stopped by nothing
but a value that cannot be merged. Collapsing without merging is then not stopped at all, and
`collapseSafely` always has a result to fall back on (`Data.collapseSafely_outcome`).
-/

set_option autoImplicit false
set_option relaxedAutoImplicit false

namespace Motion

/-- Whether a fault is about a value that cannot be merged or written. -/
def Fault.IsOfValue (fault : Fault) : Prop :=
  fault = .badValue ∨ fault = .outOfRange

section Faults

variable {α β : Type} {q : Fault → Prop}

namespace Progress

theorem faultsIn_ofExcept {unchanged : α} {result : Except Fault α} (h : FaultsOnly q result) :
    (ofExcept unchanged result).FaultsIn q := by
  intro fault hfault
  cases result with
  | error found =>
    have hfound : found = fault := Option.some_inj.mp hfault
    exact h fault (congrArg _ hfound)
  | ok value => cases hfault

theorem faultsIn_andThen {p : Progress α} {next : α → Progress α} (hp : p.FaultsIn q)
    (hnext : ∀ value, (next value).FaultsIn q) : (p.andThen next).FaultsIn q := by
  unfold andThen
  cases hfault : p.fault? with
  | some fault => exact hp
  | none => exact hnext p.value

theorem faultsIn_map {p : Progress α} (f : α → β) (h : p.FaultsIn q) : (p.map f).FaultsIn q :=
  h

theorem faultsOnly_toExcept {p : Progress α} (h : p.FaultsIn q) : FaultsOnly q p.toExcept := by
  intro fault hfault
  unfold toExcept at hfault
  cases hnone : p.fault? with
  | none => simp [hnone] at hfault
  | some other =>
    rw [hnone] at hfault
    cases hfault
    exact h _ hnone

end Progress

end Faults

section Merging

variable {κ : Type} [DecidableEq κ] [HasFamily κ]

theorem mergeNumber_faultsOnly (entries : Entries κ Data) (key : κ) (value : Data)
    (op : Option Operator) : FaultsOnly Fault.IsOfValue (mergeNumber entries key value op) := by
  have hstore (result : Option Number) : FaultsOnly Fault.IsOfValue
      ((inRange result).map fun n ↦ Entries.put entries key (.num n.normalize)) := by
    refine faultsOnly_map _ fun fault hfault ↦ ?_
    cases result with
    | none =>
      cases hfault
      exact Or.inr rfl
    | some n => cases hfault
  unfold mergeNumber
  dsimp only
  split
  · exact faultsOnly_ok entries
  · exact faultsOnly_ok entries
  · split
    · exact hstore _
    · exact hstore _
    · exact hstore _
    · exact faultsOnly_ok entries

theorem mergeText_faultsOnly (entries : Entries κ Data) (key : κ) (value : Data)
    (op : Option Operator) : FaultsOnly Fault.IsOfValue (mergeText entries key value op) := by
  refine faultsOnly_bind (fun fault hfault ↦ ?_) fun _ _ ↦ faultsOnly_ok _
  unfold usable at hfault
  split_ifs at hfault
  cases hfault
  exact Or.inl rfl

end Merging

section Pushing

open Progress

theorem mergeShift_faultsOnly (child candidates : Tagged) (tag : Tag) :
    FaultsOnly Fault.IsOfValue (mergeShift child candidates tag) := by
  unfold mergeShift
  cases Entries.get? child tag.shift with
  | none => exact faultsOnly_ok candidates
  | some value =>
    rw [Option.elim_some]
    split_ifs
    · exact mergeNumber_faultsOnly _ _ _ _
    · exact mergeText_faultsOnly _ _ _ _

theorem compensate_faultsIn (child candidates : Tagged) :
    (compensate child candidates).FaultsIn Fault.IsOfValue := by
  have hmove (pivots : List Tag) : (moveEach child candidates pivots).FaultsIn Fault.IsOfValue := by
    induction pivots with
    | nil => exact faultsIn_done _ _
    | cons tag rest ih =>
      exact faultsIn_andThen ih fun moved ↦ faultsIn_ofExcept (mergeShift_faultsOnly child moved tag)
  by_cases hpivotal : (candidates.any fun candidate ↦ candidate.1.isPivotal) = true
  · rw [compensate_eq child hpivotal]
    exact hmove pivotTags
  · rw [compensate, if_neg hpivotal]
    exact faultsIn_done _ _

theorem absorb_faultsIn (candidates tags : Tagged) :
    (absorb tags candidates).FaultsIn Fault.IsOfValue := by
  induction candidates generalizing tags with
  | nil => exact faultsIn_done _ _
  | cons candidate rest ih =>
    obtain ⟨⟨property, kind⟩, value⟩ := candidate
    rw [absorb]
    refine faultsIn_andThen ?_ ih
    cases kind with
    | numeric => exact faultsIn_ofExcept (mergeNumber_faultsOnly _ _ _ _)
    | binding => exact faultsIn_ofExcept (mergeText_faultsOnly _ _ _ _)
    | special => exact faultsIn_done _ _

theorem pushInto_faultsIn (tags candidates : Tagged) :
    (pushInto tags candidates).FaultsIn Fault.IsOfValue := by
  intro fault hfault
  unfold pushInto at hfault
  cases hmoved : (compensate tags candidates).fault? with
  | some other =>
    simp only [hmoved] at hfault
    cases hfault
    exact compensate_faultsIn tags candidates _ hmoved
  | none =>
    cases habsorbed : (absorb tags (compensate tags candidates).value).fault? with
    | some other =>
      simp only [hmoved, habsorbed] at hfault
      cases hfault
      exact absorb_faultsIn _ tags _ habsorbed
    | none =>
      simp only [hmoved, habsorbed] at hfault
      cases hfault

end Pushing

namespace Item

open Progress

variable {limit : ℤ}

section Pushing

variable {base : ℕ} {f : Frame → ℕ → ℕ}

mutual

theorem pushBelow_measure (hf : ∀ frame tags n, f { frame with tags } n = f frame n) (limit : ℤ) :
    ∀ (item : Item) (depth : ℤ) (push : Bool) (candidates : Tagged),
    (pushBelow limit depth push candidates item).fault? = none →
      measure f base (pushBelow limit depth push candidates item).value.1 = measure f base item
  | .leaf _, _, _, _, _ => rfl
  | .group ⟨before, after, holding, tags⟩ items, depth, push, candidates, hfault => by
    rw [pushBelow] at hfault ⊢
    generalize (if push then pushInto (Frame.tagged ⟨before, after, holding, tags⟩) candidates
      else .done (Frame.tagged ⟨before, after, holding, tags⟩, candidates) :
        Progress (Tagged × Tagged)) = received at hfault ⊢
    cases hreceived : received.fault? with
    | some fault => simp [hreceived, Progress.stopped] at hfault
    | none =>
      simp only [hreceived] at hfault ⊢
      cases holding with
      | absent => exact hf ⟨before, after, .absent, tags⟩ _ _
      | single =>
        rw [(fault?_guarded_eq_none.mp hfault).1]
        exact hf ⟨before, after, .single, tags⟩ _ _
      | listed =>
        obtain ⟨hcheck, hbelow⟩ := fault?_guarded_eq_none.mp hfault
        have hitems := pushEach_measure hf limit items (depth + 1)
          (mayPush items (inTagOrder received.value.1)) (inTagOrder received.value.1) hbelow
        rw [hcheck, guarded_none, value_map, measure, measure, hitems]
        exact hf ⟨before, after, .listed, tags⟩ _ _

/-- Pushing keeps a measure that does not depend on tags. -/
theorem pushEach_measure (hf : ∀ frame tags n, f { frame with tags } n = f frame n) (limit : ℤ) :
    ∀ (items : List Item) (depth : ℤ) (push : Bool) (candidates : Tagged),
    (pushEach limit depth push candidates items).fault? = none →
      measureIn f base (pushEach limit depth push candidates items).value.1 = measureIn f base items
  | [], _, _, _, _ => rfl
  | item :: rest, depth, push, candidates, hfault => by
    rw [pushEach] at hfault ⊢
    cases hfirst : (pushBelow limit depth push candidates item).fault? with
    | some fault => simp [hfirst, Progress.stopped] at hfault
    | none =>
      simp only [hfirst, fault?_map] at hfault ⊢
      have first := pushBelow_measure hf limit item depth push candidates hfirst
      have others := pushEach_measure hf limit rest depth push _ hfault
      rw [value_map, measureIn, measureIn, first, others]

end

mutual

theorem pushBelow_faultsIn (limit : ℤ) : ∀ (item : Item) (depth : ℤ) (push : Bool)
    (candidates : Tagged), Every Frame.HasList item → depth + height item ≤ limit →
      (pushBelow limit depth push candidates item).FaultsIn Fault.IsOfValue
  | .leaf _, _, _, _, _, _ => faultsIn_done _ _
  | .group frame items, depth, push, candidates, h, hheight => by
    obtain ⟨hlist, hitems⟩ := h
    have hreceived : (if push then pushInto frame.tagged candidates
        else .done (frame.tagged, candidates) : Progress (Tagged × Tagged)).FaultsIn
          Fault.IsOfValue := by
      split_ifs
      · exact pushInto_faultsIn _ _
      · exact faultsIn_done _ _
    rw [pushBelow]
    generalize (if push then pushInto frame.tagged candidates
      else .done (frame.tagged, candidates) : Progress (Tagged × Tagged)) = received at hreceived ⊢
    cases hfault : received.fault? with
    | some fault =>
      intro other hother
      cases hother
      exact hreceived _ hfault
    | none =>
      dsimp only
      rcases hlist with hlisted | ⟨habsent, rfl⟩
      · have hlevel : frame.holding ≠ .absent := by simp [hlisted]
        rw [height, measure, heightStep_of_ne hlevel] at hheight
        rw [hlisted]
        dsimp only
        rw [checkDepth_eq_none (by omega), guarded_none]
        exact faultsIn_map _ (pushEach_faultsIn limit items (depth + 1) _ _ hitems
          (by rw [heightIn]; omega))
      · rw [habsent]
        exact faultsIn_done _ _

/-- Within the depth limit, pushing is stopped only by a value that cannot be merged. -/
theorem pushEach_faultsIn (limit : ℤ) : ∀ (items : List Item) (depth : ℤ) (push : Bool)
    (candidates : Tagged), EveryIn Frame.HasList items → depth + heightIn items ≤ limit →
      (pushEach limit depth push candidates items).FaultsIn Fault.IsOfValue
  | [], _, _, _, _, _ => faultsIn_done _ _
  | item :: rest, depth, push, candidates, h, hheight => by
    rw [heightIn, measureIn] at hheight
    have first := pushBelow_faultsIn limit item depth push candidates h.1 (by rw [height]; omega)
    rw [pushEach]
    cases hfirst : (pushBelow limit depth push candidates item).fault? with
    | some fault =>
      intro other hother
      cases hother
      exact first _ hfirst
    | none =>
      exact faultsIn_map _ (pushEach_faultsIn limit rest depth push _ h.2
        (by rw [heightIn]; omega))

end

end Pushing

end Item

section Untagging

open Progress

theorem untagValue?_faultsOnly (tags : Tagged) (property : Property) :
    FaultsOnly Fault.IsOfValue (untagValue? tags property) := by
  unfold untagValue?
  dsimp only
  split
  · exact faultsOnly_map _ (mergeText_faultsOnly _ _ _ _)
  · exact faultsOnly_ok _
  · exact faultsOnly_ok _
  · exact faultsOnly_ok _

/-- Untagging is stopped by nothing but what stops a single property. -/
theorem Frame.untag_faultsIn_of {q : Fault → Prop} {frame : Frame}
    (h : ∀ property, FaultsOnly q (untagValue? frame.tagged property)) : frame.untag.FaultsIn q := by
  have hstep (before : Frame) (property : Property) :
      (untagProperty frame.tagged before property).FaultsIn q :=
    faultsIn_ofExcept (faultsOnly_map _ (h property))
  have hfold (order : List Property) (walk : Progress Frame) (hwalk : walk.FaultsIn q) :
      (order.foldl (fun acc property ↦ acc.andThen fun before ↦
        untagProperty frame.tagged before property) walk).FaultsIn q := by
    induction order generalizing walk with
    | nil => exact hwalk
    | cons property rest ih => exact ih _ (faultsIn_andThen hwalk fun before ↦ hstep before property)
  exact hfold Property.all _ (faultsIn_done _ _)

theorem Frame.untag_faultsIn_value (frame : Frame) : frame.untag.FaultsIn Fault.IsOfValue :=
  untag_faultsIn_of (untagValue?_faultsOnly frame.tagged)

theorem Frame.holding_untag (frame : Frame) : frame.untag.value.holding = frame.holding :=
  untag_induction (p := fun other ↦ other.holding = frame.holding) frame rfl
    fun other property value _ h ↦ (holding_put other property.name value).trans h

end Untagging

namespace Item

open Progress

variable {limit : ℤ} {items : List Item}

/-- A scene of groups that hold lists of items, or none at all, within the depth limit. -/
structure IsWithin (limit : ℤ) (items : List Item) : Prop where
  every : EveryIn (fun frame items ↦ True ∧ frame.HasList items) items
  height : heightIn items ≤ limit

theorem IsWithin.limit_nonneg (h : IsWithin limit items) : 0 ≤ limit := by
  have hheight := h.height
  omega

theorem IsWithin.hasList (h : IsWithin limit items) : EveryIn Frame.HasList items :=
  EveryIn.mono (fun _ _ hframe ↦ hframe.2) h.every

theorem listAll_isWithin
    (h : EveryIn (fun frame items ↦ True ∧ (frame.holding = .absent → items = [])) items)
    (hheight : heightIn items ≤ limit) :
    ∃ listed, listAll limit items = .done listed ∧ IsWithin limit listed := by
  have hfault := listEach_fault? limit items 0 (by omega)
  have hlist : listAll limit items = listEach limit 0 items := by
    rw [listAll, checkDepth_eq_none (by omega), guarded_none]
  refine ⟨_, hlist.trans (Progress.eq_done hfault), ?_, ?_⟩
  · exact (listEach_leaves (fun _ _ ↦ trivial)
      (show ∀ frame : Frame, Frame.own { frame with holding := .listed } = frame.own from
        fun _ ↦ rfl) limit items 0 h hfault).1
  · have hsame : heightIn (listEach limit 0 items).value = heightIn items :=
      listEach_measure (fun frame n hframe ↦ by
        rw [heightStep_of_ne hframe, heightStep_of_ne (by simp)]) limit items 0 hfault
    rw [hsame]
    exact hheight

/-- A walk that changes frames but not how they hold their items stays within the limit. -/
theorem IsWithin.changeAll {change : Frame → List Item → Progress Frame} (h : IsWithin limit items)
    (hholding : ∀ frame items, frame.HasList items →
      (change frame items).value.holding = frame.holding)
    (hfaults : ∀ frame items, (change frame items).FaultsIn Fault.IsOfValue) :
    (changeAll change limit items).FaultsIn Fault.IsOfValue ∧
      ((changeAll change limit items).fault? = none →
        IsWithin limit (changeAll change limit items).value) := by
  have heq : Item.changeAll change limit items = changeEach change limit 0 items := by
    rw [Item.changeAll, checkDepth_eq_none h.limit_nonneg, guarded_none]
  have hheight := h.height
  rw [heq]
  refine ⟨?_, fun hfault ↦ ⟨?_, ?_⟩⟩
  · exact changeEach_faultsIn (fun frame items _ hlist ↦
      ⟨hfaults frame items, fun _ ↦ hholding frame items hlist⟩) limit items 0 h.every (by omega)
  · exact changeEach_every (fun frame items _ hlist _ ↦ ⟨hholding frame items hlist, trivial⟩)
      h.every hfault
  · have hle : heightIn (changeEach change limit 0 items).value ≤ heightIn items :=
      changeEach_measure (fun frame items _ hlist _ ↦ ⟨hholding frame items hlist,
        fun n m hle ↦ heightStep_mono (hholding frame items hlist) hle⟩) limit items 0 h.every hfault
    omega

theorem IsWithin.pushAll (h : IsWithin limit items) (candidates : Tagged) :
    (pushAll limit candidates items).FaultsIn Fault.IsOfValue ∧
      ((pushAll limit candidates items).fault? = none →
        IsWithin limit (pushAll limit candidates items).value.value) := by
  have hheight := h.height
  rw [Item.pushAll, checkDepth_eq_none h.limit_nonneg, guarded_none]
  refine ⟨faultsIn_map _ (pushEach_faultsIn limit items 0 _ _ h.hasList (by omega)),
    fun hfault ↦ ⟨?_, ?_⟩⟩
  · exact (pushEach_leaves (fun _ _ _ ↦ trivial)
      (show ∀ (frame : Frame) (tags : Option Tagged), Frame.own { frame with tags } = frame.own from
        fun _ _ ↦ rfl) limit items 0 _ _ h.every hfault).1
  · have hsame : heightIn (pushEach limit 0 (mayPush items candidates) candidates items).value.1 =
        heightIn items := pushEach_measure (fun _ _ _ ↦ rfl) limit items 0 _ _ hfault
    rw [value_map, hsame]
    exact hheight

theorem IsWithin.spliceAll (h : IsWithin limit items) :
    (spliceAll limit items).fault? = none := by
  have hheight := h.height
  rw [Item.spliceAll, checkDepth_eq_none h.limit_nonneg, guarded_none]
  exact spliceItems_fault? limit items 0 h.hasList (by omega)

/-- Merging transforms in a scene within the limit is stopped only by a value that cannot be
merged. -/
theorem IsWithin.mergeTransforms (h : IsWithin limit items) :
    FaultsOnly Fault.IsOfValue (mergeTransforms limit items) ∧
      ∀ merged, mergeTransforms limit items = .ok merged → IsWithin limit merged := by
  obtain ⟨htagfaults, htag⟩ : (tagAll limit items).FaultsIn Fault.IsOfValue ∧
      ((tagAll limit items).fault? = none → IsWithin limit (tagAll limit items).value) :=
    h.changeAll (fun _ _ hlist ↦ Frame.holding_tag hlist) fun _ _ ↦ faultsIn_done _ _
  have hpush (tagged : List Item) (htagged : (tagAll limit items).toExcept = .ok tagged) :
      IsWithin limit tagged := by
    obtain ⟨hnone, rfl⟩ := toExcept_eq_ok.mp htagged
    exact htag hnone
  have huntag (tagged : List Item) (htagged : (tagAll limit items).toExcept = .ok tagged)
      (pushed : Pushed (List Item)) (hpushed : (Item.pushAll limit [] tagged).toExcept = .ok pushed) :
      IsWithin limit pushed.value := by
    obtain ⟨hnone, rfl⟩ := toExcept_eq_ok.mp hpushed
    exact ((hpush tagged htagged).pushAll []).2 hnone
  have hlast (pushed : Pushed (List Item)) (hpushed : IsWithin limit pushed.value) :
      (untagAll limit pushed.value).FaultsIn Fault.IsOfValue ∧
        ((untagAll limit pushed.value).fault? = none →
          IsWithin limit (untagAll limit pushed.value).value) :=
    hpushed.changeAll (fun frame _ _ ↦ frame.holding_untag) fun frame _ ↦ frame.untag_faultsIn_value
  constructor
  · refine faultsOnly_bind (faultsOnly_toExcept htagfaults) fun tagged htagged ↦ ?_
    refine faultsOnly_bind (faultsOnly_toExcept ((hpush tagged htagged).pushAll []).1)
      fun pushed hpushed ↦ ?_
    exact faultsOnly_toExcept (hlast pushed (huntag tagged htagged pushed hpushed)).1
  · intro merged hmerged
    unfold Item.mergeTransforms at hmerged
    obtain ⟨tagged, htagged, hmerged⟩ := Except.bind_eq_ok hmerged
    obtain ⟨pushed, hpushed, huntagged⟩ := Except.bind_eq_ok hmerged
    obtain ⟨hnone, rfl⟩ := toExcept_eq_ok.mp huntagged
    exact (hlast pushed (huntag tagged htagged pushed hpushed)).2 hnone

/-- The stages after lists have been made. -/
theorem collapseItems_listed (merge : Bool) {listed : List Item}
    (h : listAll limit items = .done listed) :
    collapseItems merge limit items =
      (if merge then Item.mergeTransforms limit listed else .ok listed) >>= fun merged ↦
        (Item.spliceAll limit merged).toExcept >>= fun below ↦ pure (spliceEach below) := by
  rw [collapseItems, h]
  cases merge <;> rfl

theorem IsWithin.splice (h : IsWithin limit items) :
    ((Item.spliceAll limit items).toExcept >>= fun below ↦ pure (spliceEach below)) =
      .ok (spliceEach (Item.spliceAll limit items).value) := by
  rw [toExcept_eq_ok.mpr ⟨h.spliceAll, rfl⟩]
  rfl

/-- Without merging, a scene that is read from a document is always collapsed. -/
theorem collapseItems_plain
    (h : EveryIn (fun frame items ↦ True ∧ (frame.holding = .absent → items = [])) items)
    (hheight : heightIn items ≤ limit) : ∃ result, collapseItems false limit items = .ok result := by
  obtain ⟨listed, hlist, hlisted⟩ := listAll_isWithin h hheight
  exact ⟨_, (collapseItems_listed false hlist).trans hlisted.splice⟩

/-- With merging, it is unless some value cannot be merged. -/
theorem collapseItems_merging
    (h : EveryIn (fun frame items ↦ True ∧ (frame.holding = .absent → items = [])) items)
    (hheight : heightIn items ≤ limit) :
    FaultsOnly Fault.IsOfValue (collapseItems true limit items) := by
  obtain ⟨listed, hlist, hlisted⟩ := listAll_isWithin h hheight
  obtain ⟨hfaults, hmerged⟩ := hlisted.mergeTransforms
  rw [collapseItems_listed true hlist]
  refine faultsOnly_bind hfaults fun merged hok ↦ ?_
  rw [(hmerged merged hok).splice]
  exact faultsOnly_ok _

end Item

namespace Data

variable {limit : ℤ} {members : Members}

theorem collapse_beyond (merge : Bool) (h : (Data.obj members).exceeds limit 0 = true) :
    (Data.obj members).collapse merge limit = .error (.tooDeep limit) := by
  rw [collapse, checkTreeDepth, h]
  rfl

theorem collapse_within (merge : Bool) (h : (Data.obj members).exceeds limit 0 = false) :
    (Data.obj members).collapse merge limit =
      if Entries.contains members itemsKey then
        (Item.collapseItems merge limit (Item.itemsOf members)).map fun items ↦
          .obj (Entries.put members itemsKey (.list (Item.toList items)))
      else .ok (.obj members) := by
  rw [collapse, checkTreeDepth, h, mentions]
  cases Entries.contains members itemsKey <;> rfl

/-- A tree within the limit is always collapsed without merging, and with merging unless some value
cannot be merged. -/
theorem collapse_faults (hlimit : 0 ≤ limit) (h : (Data.obj members).exceeds limit 0 = false) :
    (∃ result, (Data.obj members).collapse false limit = .ok result) ∧
      FaultsOnly Fault.IsOfValue ((Data.obj members).collapse true limit) := by
  have hread : Item.EveryIn (fun frame items ↦ True ∧ (frame.holding = .absent → items = []))
      (Item.itemsOf members) :=
    (Item.everyIn_read members).mono fun _ _ hframe ↦ ⟨trivial, hframe.2⟩
  have hheight := Item.heightIn_itemsOf members 0 h hlimit
  rw [Int.zero_add] at hheight
  rw [collapse_within false h, collapse_within true h]
  split_ifs
  · obtain ⟨items, hitems⟩ := Item.collapseItems_plain hread hheight
    rw [hitems]
    exact ⟨⟨_, rfl⟩, faultsOnly_map _ (Item.collapseItems_merging hread hheight)⟩
  · exact ⟨⟨_, rfl⟩, faultsOnly_ok _⟩

section Stack

variable {stack : CallStack} {room : ℕ}

/-- A tree overruns a room exactly if its groups are nested deeper. -/
theorem overruns_iff :
    (Data.obj members).overruns room = true ↔ room < Item.heightIn (Item.itemsOf members) := by
  have hlist : Item.listAll room (Item.itemsOf members) =
      Item.listEach room 0 (Item.itemsOf members) := by
    rw [Item.listAll, checkDepth_eq_none (by simp), Progress.guarded_none]
  rw [overruns, hlist, ← not_iff_not, Bool.not_eq_true, Option.isSome_eq_false_iff,
    Option.isNone_iff_eq_none, Item.listEach_fault?_iff (by simp), Int.zero_add, Nat.cast_le,
    Nat.not_lt]

/-- A tree within a limit that there is room for does not overrun it. -/
theorem overruns_within {limit : ℕ} (hroom : limit ≤ room)
    (h : (Data.obj members).exceeds limit 0 = false) :
    (Data.obj members).overruns room = false := by
  have hheight := Item.heightIn_itemsOf members 0 h (by simp)
  rw [← Bool.not_eq_true, overruns_iff]
  omega

theorem collapseOn_beyond (merge : Bool) (h : (Data.obj members).exceeds limit 0 = true) :
    (Data.obj members).collapseOn stack merge limit = .error (.tooDeep limit) := by
  rw [collapseOn, checkTreeDepth, h]
  rfl

theorem collapseOn_within (merge : Bool) (h : (Data.obj members).exceeds limit 0 = false) :
    (Data.obj members).collapseOn stack merge limit =
      if (Data.obj members).overruns (stack.room merge) then .error .notCollapsible
      else (Data.obj members).collapse merge limit := by
  rw [collapseOn, checkTreeDepth, h]
  rfl

/-- What overruns the room without merging overruns that with merging, where there is less. -/
theorem overruns_merging (stack : CallStack)
    (h : (Data.obj members).overruns (stack.room false) = true) :
    (Data.obj members).overruns (stack.room true) = true :=
  overruns_iff.mpr (stack.merging_le.trans_lt (overruns_iff.mp h))

/-- Within the limit no walk finds a level beyond it. -/
theorem collapseOn_ne_tooDeep (stack : CallStack) (hlimit : 0 ≤ limit)
    (h : (Data.obj members).exceeds limit 0 = false) (merge : Bool) (depth : ℤ) :
    (Data.obj members).collapseOn stack merge limit ≠ .error (.tooDeep depth) := by
  obtain ⟨⟨plain, hplain⟩, hfaults⟩ := collapse_faults hlimit h
  rw [collapseOn_within merge h]
  split_ifs
  · exact fun heq ↦ nomatch heq
  · intro hdeep
    cases merge with
    | false => simp [hplain] at hdeep
    | true => rcases hfaults _ hdeep with hfault | hfault <;> cases hfault

/-- How collapsing safely ends without merging. -/
theorem collapseSafely_plain (tree : Data) :
    (tree.collapseSafely false limit stack).2 =
      match tree.collapseOn stack false limit with
      | .ok result => .ok result
      | .error (.tooDeep depth) => .error (.tooDeep depth)
      | .error _ => .error .notCollapsible := by
  unfold collapseSafely
  cases tree.collapseOn stack false limit with
  | ok result => rfl
  | error fault => cases fault <;> rfl

/-- With merging it ends likewise where merging does not. -/
theorem collapseSafely_merging (tree : Data) :
    (tree.collapseSafely true limit stack).2 =
      match tree.collapseOn stack true limit with
      | .ok result => .ok result
      | .error (.tooDeep depth) => .error (.tooDeep depth)
      | .error _ => (tree.collapseSafely false limit stack).2 := by
  rw [collapseSafely_plain]
  unfold collapseSafely
  cases tree.collapseOn stack true limit with
  | ok result => rfl
  | error fault =>
    cases tree.collapseOn stack false limit with
    | ok result => cases fault <;> rfl
    | error other => cases fault <;> cases other <;> rfl

/-- Groups that overrun the stack are not collapsed. -/
theorem collapseSafely_of_overruns (stack : CallStack) (merge : Bool)
    (h : (Data.obj members).exceeds limit 0 = false)
    (hoverruns : (Data.obj members).overruns (stack.room false) = true) :
    ((Data.obj members).collapseSafely merge limit stack).2 = .error .notCollapsible := by
  have hplain : ((Data.obj members).collapseSafely false limit stack).2 = .error .notCollapsible := by
    rw [collapseSafely_plain, collapseOn_within false h, if_pos hoverruns]
  cases merge with
  | false => exact hplain
  | true =>
    rw [collapseSafely_merging, collapseOn_within true h, if_pos (overruns_merging stack hoverruns)]
    exact hplain

/-- Collapsing safely is stopped by the depth of a tree alone: it reports a tree that is too deep
exactly if a descent has one step more than the limit allows. In any other case no walk finds a level
beyond the limit, and there is a result, that of collapsing with merged transforms if they are asked
for and can be merged, and else that of collapsing without; unless the groups are nested deeper than
there is room for on the stack, which takes a limit that is greater than that room. -/
theorem collapseSafely_outcome (stack : CallStack) (merge : Bool) (limit : ℕ) (members : Members) :
    ((Data.obj members).HasDescent (limit + 1) ∧
      ((Data.obj members).collapseSafely merge limit stack).2 = .error (.tooDeep limit)) ∨
    (¬ (Data.obj members).HasDescent (limit + 1) ∧
      (∀ merged depth,
        (Data.obj members).collapseOn stack merged limit ≠ .error (.tooDeep depth)) ∧
      if (Data.obj members).overruns (stack.room false) then
        stack.room false < limit ∧
          ((Data.obj members).collapseSafely merge limit stack).2 = .error .notCollapsible
      else ∃ result, ((Data.obj members).collapseSafely merge limit stack).2 = .ok result ∧
        ((merge = true ∧ (Data.obj members).collapseOn stack true limit = .ok result) ∨
          ((merge = false ∨
              ∀ merged, (Data.obj members).collapseOn stack true limit ≠ .ok merged) ∧
            (Data.obj members).collapseOn stack false limit = .ok result))) := by
  have hdescent := exceeds_iff limit limit 0 (by simp) (.obj members)
  cases hexceeds : (Data.obj members).exceeds limit 0 with
  | true =>
    refine Or.inl ⟨hdescent.mp hexceeds, ?_⟩
    cases merge with
    | false => rw [collapseSafely_plain, collapseOn_beyond false hexceeds]
    | true => rw [collapseSafely_merging, collapseOn_beyond true hexceeds]
  | false =>
    have hshallow : ¬ (Data.obj members).HasDescent (limit + 1) := by
      rw [← hdescent, hexceeds]
      exact Bool.false_ne_true
    have hdeep := collapseOn_ne_tooDeep stack (by simp) hexceeds
    refine Or.inr ⟨hshallow, hdeep, ?_⟩
    split_ifs with hoverruns
    · refine ⟨?_, collapseSafely_of_overruns stack merge hexceeds hoverruns⟩
      by_contra hroom
      rw [overruns_within (Nat.not_lt.mp hroom) hexceeds] at hoverruns
      cases hoverruns
    · obtain ⟨plain, hplain⟩ := (collapse_faults (by simp) hexceeds).1
      have hfallback : (Data.obj members).collapseOn stack false limit = .ok plain := by
        rw [collapseOn_within false hexceeds, if_neg hoverruns, hplain]
      have hsafe : ((Data.obj members).collapseSafely false limit stack).2 = .ok plain := by
        rw [collapseSafely_plain, hfallback]
      cases merge with
      | false => exact ⟨plain, hsafe, Or.inr ⟨Or.inl rfl, hfallback⟩⟩
      | true =>
        rw [collapseSafely_merging]
        cases hmerged : (Data.obj members).collapseOn stack true limit with
        | ok result => exact ⟨result, rfl, Or.inl ⟨rfl, rfl⟩⟩
        | error fault =>
          cases fault with
          | tooDeep depth => exact absurd hmerged (hdeep true depth)
          | _ => exact ⟨plain, hsafe, Or.inr ⟨Or.inr fun _ hok ↦ (nomatch hok), hfallback⟩⟩

/-- The members of a group around a group and so on, with as many groups as given around a path. -/
def nestedGroups : ℕ → Members
  | 0 => [("type", .str "path")]
  | n + 1 => [("type", .str "group"), ("items", .list [.obj (nestedGroups n)])]

theorem exceeds_nestedGroups (n : ℕ) (depth : ℤ) (h : depth + n ≤ limit) :
    (Data.obj (nestedGroups (n + 1))).exceeds limit depth = false := by
  induction n generalizing depth with
  | zero =>
    rw [exceeds_eq]
    rfl
  | succ n ih =>
    have hchildren : (Data.obj (nestedGroups (n + 2))).children = [.obj (nestedGroups (n + 1))] := rfl
    have hwithin : decide (limit < depth + 1) = false :=
      decide_eq_false (by push_cast at h; omega)
    have hbelow := ih (depth + 1) (by push_cast at h; omega)
    rw [exceeds_eq, hchildren, List.any_cons, List.any_nil, goesBeyond, hwithin, hbelow,
      Bool.or_self, Bool.and_false, Bool.or_self]

theorem heightIn_nestedGroups (n : ℕ) : Item.heightIn (Item.itemsOf (nestedGroups (n + 1))) = n := by
  induction n with
  | zero => rfl
  | succ n ih =>
    have hitems : Item.itemsOf (nestedGroups (n + 2)) =
        [.group (frameOf (nestedGroups (n + 1))) (Item.itemsOf (nestedGroups (n + 1)))] := rfl
    rw [hitems, Item.heightIn, Item.measureIn, Item.measureIn, Item.measure, Nat.max_zero,
      Item.heightStep_of_ne fun h ↦ Holding.noConfusion h]
    exact congrArg (· + 1) ih

/-- Groups that are nested deeper than there is room for are not collapsed under any limit. -/
theorem collapseSafely_nestedGroups :
    ¬ (Data.obj (nestedGroups 1501)).HasDescent 5001 ∧
      ((Data.obj (nestedGroups 1501)).collapseSafely true 5000).2 = .error .notCollapsible := by
  have hwithin : (Data.obj (nestedGroups 1501)).exceeds 5000 0 = false :=
    exceeds_nestedGroups 1500 0 (by decide)
  have hoverruns : (Data.obj (nestedGroups 1501)).overruns (CallStack.default.room false) = true := by
    rw [overruns_iff, heightIn_nestedGroups]
    decide
  refine ⟨?_, collapseSafely_of_overruns .default true hwithin hoverruns⟩
  rw [← exceeds_iff 5000 5000 0 (by decide), hwithin]
  exact Bool.false_ne_true

end Stack

end Data

end Motion
