import Motion.Proofs.Scene.Rendering
import Motion.Proofs.Scene.Typed

/-!
Untagging discards nothing that is under typed tags. Each value comes to stand among the members of
its group, as it is or as one side of a binding that joins it to another value (`IsWrittenIn`), as
long as no number under a tag is NaN and no binding is empty (`untagValue?_written`); the other side
would be lost beside one of these. Untagging goes through unless some property has a binding beside
a number that has too many digits to be written (`Frame.untag_faultsIn_unwritable`). What holds of
one group holds of all of them (`Item.untagAll_restores`), and so of every run, whose tags are typed
as soon as they are made (`Data.taggedItems_isWithin`).
-/

set_option autoImplicit false
set_option relaxedAutoImplicit false

namespace Motion

/-- Whether a value is written, as it is or as one side of a binding. -/
inductive IsWrittenIn (op : Operator) (value : Data) : Data → Prop
  | itself : IsWrittenIn op value value
  | left (right : List Char) (h : operandText value (some op) ≠ []) :
      IsWrittenIn op value (.str (Scalar.binding (String.ofList
        (operandText value (some op) ++ op.symbol.toList ++ right))))
  | right (left : List Char) (h : operandText value (some op) ≠ []) :
      IsWrittenIn op value (.str (Scalar.binding (String.ofList
        (left ++ op.symbol.toList ++ operandText value (some op)))))

/-- A number that is not NaN has a text as an operand. -/
theorem operandText_num_ne_nil {n : Number} (h : n.isNaN = false) (op : Option Operator) :
    operandText (.num n) op ≠ [] := by
  have hbare : bareExpression? (.num n) = some n.textChars := by
    simp [bareExpression?, Data.number?, h]
  have hdense : Text.removeBlanks n.textChars = n.textChars := removeBlanks_of_isDense fun c hc ↦
    isDense_of_isNumberCharacter (n.isNumberCharacter_of_mem_textChars c hc)
  rw [operandText, hbare]
  dsimp only
  rw [hdense]
  split_ifs
  · simp
  · exact n.textChars_ne_nil

namespace Tagged

/-- Whether neither the number of a property is NaN nor its binding empty. -/
structure IsGivenAt (tags : Tagged) (property : Property) : Prop where
  number : ∀ n, Entries.get? tags ⟨property, .numeric⟩ = some (.num n) → n.isNaN = false
  binding : ∀ value, Entries.get? tags ⟨property, .binding⟩ = some value → value.interior? ≠ some []

/-- Whether the number of a property can be written if there is a binding beside it. -/
def IsWritableAt (tags : Tagged) (property : Property) : Prop :=
  ∀ number binding, Entries.get? tags ⟨property, .numeric⟩ = some number →
    Entries.get? tags ⟨property, .binding⟩ = some binding → isWritableOperand number = true

/-- Whether all numbers that have to be written into bindings can be. -/
def IsWritable (tags : Tagged) : Prop :=
  ∀ property, tags.IsWritableAt property

end Tagged

/-- Whether a value is neither NaN nor an empty binding. -/
def Data.isGiven (value : Data) : Bool :=
  match value with
  | .num n => !n.isNaN
  | _ => value.interior? != some []

theorem Tagged.isGivenAt_of_all {tags : Tagged} (h : (tags.all fun entry ↦ entry.2.isGiven) = true)
    (property : Property) : tags.IsGivenAt property := by
  have hgiven (tag : Tag) (value : Data) (hget : Entries.get? tags tag = some value) :
      value.isGiven = true := List.all_eq_true.mp h _ (Entries.mem_of_get? hget)
  constructor
  · intro n hget
    simpa [Data.isGiven] using hgiven _ _ hget
  · intro value hget hempty
    have hvalue := hgiven _ _ hget
    cases value <;> simp_all [Data.isGiven, Data.interior?]

section Untagging

variable {tags : Tagged} {property : Property} {number binding : Data}

/-- Where a number and a binding are not both there, a property has one value at most, and that is
what untagging gives. -/
theorem untagValue?_single (h : tags.IsTyped)
    (hnone : Entries.get? tags ⟨property, .numeric⟩ = none ∨
      Entries.get? tags ⟨property, .binding⟩ = none) :
    ∃ value?, untagValue? tags property = .ok value? ∧
      ∀ kind value, Entries.get? tags ⟨property, kind⟩ = some value → value? = some value := by
  have hspecial {kind : Kind} {value : Data} (hkind : kind ≠ .special)
      (hget : Entries.get? tags ⟨property, kind⟩ = some value) :
      Entries.get? tags ⟨property, .special⟩ = none := by
    by_contra hsome
    obtain ⟨special, hspecial⟩ := Option.ne_none_iff_exists'.mp hsome
    rw [h.alone property special hspecial kind hkind] at hget
    cases hget
  unfold untagValue?
  cases hbinding : Entries.get? tags ⟨property, .binding⟩ with
  | some binding =>
    have hnumber : Entries.get? tags ⟨property, .numeric⟩ = none :=
      hnone.resolve_right (by simp [hbinding])
    have hsole := hspecial (by decide) hbinding
    refine ⟨some binding, by rw [hnumber], fun kind value hget ↦ ?_⟩
    cases kind <;> simp_all
  | none =>
    cases hnumber : Entries.get? tags ⟨property, .numeric⟩ with
    | some number =>
      have hsole := hspecial (by decide) hnumber
      refine ⟨some number, rfl, fun kind value hget ↦ ?_⟩
      cases kind <;> simp_all
    | none =>
      refine ⟨Entries.get? tags ⟨property, .special⟩, rfl, fun kind value hget ↦ ?_⟩
      cases kind <;> simp_all

/-- A number beside a binding is joined to it if it can be written; else it cannot be untagged. -/
theorem untagValue?_joined (h : tags.IsTyped)
    (hnumber : Entries.get? tags ⟨property, .numeric⟩ = some number)
    (hbinding : Entries.get? tags ⟨property, .binding⟩ = some binding) :
    untagValue? tags property = if isWritableOperand number then
      .ok (Entries.get? (joinText tags ⟨property, .binding⟩ number none) ⟨property, .binding⟩)
    else .error .badValue := by
  obtain ⟨s, hinterior, -⟩ := h.keeps.holds _ binding hbinding
  have hcurrent : isWritableOperand binding = true := Data.isWritableOperand_of_interior? hinterior
  rw [untagValue?, hnumber, hbinding]
  dsimp only
  rw [mergeText, hbinding, Option.getD_some, hcurrent, Bool.true_and]
  cases isWritableOperand number <;> rfl

/-- Both sides of a property are written where they are joined. -/
theorem joinText_written (h : tags.IsTyped) (hgiven : tags.IsGivenAt property)
    (hnumber : Entries.get? tags ⟨property, .numeric⟩ = some number)
    (hbinding : Entries.get? tags ⟨property, .binding⟩ = some binding) :
    ∃ written, Entries.get? (joinText tags ⟨property, .binding⟩ number none)
        ⟨property, .binding⟩ = some written ∧
      IsWrittenIn (mergeOperator (⟨property, .binding⟩ : Tag)) number written ∧
        IsWrittenIn (mergeOperator (⟨property, .binding⟩ : Tag)) binding written := by
  obtain ⟨n, rfl⟩ := h.keeps.holds _ number hnumber
  obtain ⟨s, hinterior, hblanks⟩ := h.keeps.holds _ binding hbinding
  have hnonempty : s ≠ [] := by
    rintro rfl
    exact hgiven.binding binding hbinding hinterior
  have hleft (op : Option Operator) : operandText binding op ≠ [] :=
    operandText_ne_nil hinterior hblanks hnonempty op
  have hright (op : Option Operator) : operandText (.num n) op ≠ [] :=
    operandText_num_ne_nil (hgiven.number n hnumber) op
  rw [joinText_of_some hbinding (Data.isTruthy_of_interior? hinterior) (hleft _) (hright _),
    Entries.get?_put_self]
  exact ⟨_, rfl, .right _ (hright _), .left _ (hleft _)⟩

/-- Whether both a number and a binding of a property are there, or one of them is missing. -/
theorem Tagged.both_or (tags : Tagged) (property : Property) :
    (∃ number binding, Entries.get? tags ⟨property, .numeric⟩ = some number ∧
        Entries.get? tags ⟨property, .binding⟩ = some binding) ∨
      (Entries.get? tags ⟨property, .numeric⟩ = none ∨
        Entries.get? tags ⟨property, .binding⟩ = none) := by
  cases Entries.get? tags ⟨property, .numeric⟩ <;>
    cases Entries.get? tags ⟨property, .binding⟩ <;> simp

theorem untagValue?_eq_ok (h : tags.IsTyped) (hwritable : tags.IsWritableAt property) :
    ∃ value?, untagValue? tags property = .ok value? := by
  rcases tags.both_or property with ⟨number, binding, hnumber, hbinding⟩ | hnone
  · rw [untagValue?_joined h hnumber hbinding, if_pos (hwritable number binding hnumber hbinding)]
    exact ⟨_, rfl⟩
  · obtain ⟨value?, huntag, -⟩ := untagValue?_single h hnone
    exact ⟨value?, huntag⟩

theorem untagValue?_eq_error (h : tags.IsTyped) (hwritable : ¬ tags.IsWritableAt property) :
    untagValue? tags property = .error .badValue := by
  rcases tags.both_or property with ⟨number, binding, hnumber, hbinding⟩ | hnone
  · rw [untagValue?_joined h hnumber hbinding, if_neg fun hnumeral ↦ hwritable ?_]
    intro other beside hother hbeside
    cases hnumber.symm.trans hother
    exact hnumeral
  · refine absurd (fun number binding hnumber hbinding ↦ ?_) hwritable
    rcases hnone with hnone | hnone <;> simp_all

theorem isWritableAt_of_untagValue? (h : tags.IsTyped) {value? : Option Data}
    (huntag : untagValue? tags property = .ok value?) : tags.IsWritableAt property := by
  intro number binding hnumber hbinding
  by_contra hwritable
  rw [untagValue?_joined h hnumber hbinding, if_neg hwritable] at huntag
  cases huntag

/-- Each value under the tags of a property is written once they are merged. -/
theorem untagValue?_written (h : tags.IsTyped) (hgiven : tags.IsGivenAt property)
    {value? : Option Data} (huntag : untagValue? tags property = .ok value?) {kind : Kind}
    {value : Data} (hget : Entries.get? tags ⟨property, kind⟩ = some value) :
    ∃ written, value? = some written ∧
      IsWrittenIn (mergeOperator (⟨property, .binding⟩ : Tag)) value written := by
  rcases tags.both_or property with ⟨number, binding, hnumber, hbinding⟩ | hnone
  · have hwritable := isWritableAt_of_untagValue? h huntag number binding hnumber hbinding
    rw [untagValue?_joined h hnumber hbinding, if_pos hwritable] at huntag
    obtain ⟨written, hwritten, hright, hleft⟩ := joinText_written h hgiven hnumber hbinding
    refine ⟨written, (Except.ok.inj huntag).symm.trans hwritten, ?_⟩
    cases kind with
    | numeric =>
      cases hnumber.symm.trans hget
      exact hright
    | binding =>
      cases hbinding.symm.trans hget
      exact hleft
    | special =>
      rw [h.alone property value hget .numeric (by decide)] at hnumber
      cases hnumber
  · obtain ⟨single?, hsingle, hall⟩ := untagValue?_single h hnone
    cases hsingle.symm.trans huntag
    exact ⟨value, hall kind value hget, .itself⟩

end Untagging

namespace Frame

variable {frame : Frame}

/-- Whether everything under the tags of a group is written among the members of another one, as far
as it is given. -/
def Restores (frame after : Frame) : Prop :=
  ∀ property, frame.tagged.IsGivenAt property →
    ∀ kind value, Entries.get? frame.tagged ⟨property, kind⟩ = some value →
      ∃ written, Entries.get? after.members property.name = some written ∧
        IsWrittenIn (mergeOperator (⟨property, .binding⟩ : Tag)) value written

/-- Untagging that goes through restores everything, and then all numbers can be written. -/
theorem untag_restores (h : frame.tagged.IsTyped) (hfault : frame.untag.fault? = none) :
    frame.Restores frame.untag.value ∧ frame.tagged.IsWritable := by
  have horder : Property.all.Nodup := by decide
  rw [untag_eq] at hfault ⊢
  have huntagged := (get?_untagEach Property.all { frame with tags := none } horder hfault).1
  constructor
  · intro property hgiven kind value hget
    obtain ⟨value?, huntag, hthere⟩ := huntagged property property.mem_all
    obtain ⟨written, rfl, hwritten⟩ := untagValue?_written h hgiven huntag hget
    exact ⟨written, hthere rfl, hwritten⟩
  · intro property
    obtain ⟨value?, huntag, -⟩ := huntagged property property.mem_all
    exact isWritableAt_of_untagValue? h huntag

/-- Untagging meets no fault but that of a number that cannot be written. -/
theorem untag_faultsIn_unwritable (h : frame.tagged.IsTyped) : frame.untag.FaultsIn fun fault ↦
    fault = .badValue ∧ ¬ frame.tagged.IsWritable := by
  refine untag_faultsIn_of fun property fault hfault ↦ ?_
  by_cases hwritable : frame.tagged.IsWritableAt property
  · obtain ⟨value?, huntag⟩ := untagValue?_eq_ok h hwritable
    rw [huntag] at hfault
    cases hfault
  · rw [untagValue?_eq_error h hwritable] at hfault
    cases hfault
    exact ⟨rfl, fun hall ↦ hwritable (hall property)⟩

end Frame

namespace Item

mutual

/-- Whether an item has become another one by changes of its frames, each of which is related to
what it has become. -/
def Became (r : Frame → Frame → Prop) : Item → Item → Prop
  | .leaf value, other => other = .leaf value
  | .group frame items, other =>
    ∃ after others, other = .group after others ∧ r frame after ∧ BecameIn r items others

def BecameIn (r : Frame → Frame → Prop) : List Item → List Item → Prop
  | [], others => others = []
  | item :: rest, others =>
    ∃ first last, others = first :: last ∧ Became r item first ∧ BecameIn r rest last

end

section Changing

variable {change : Frame → List Item → Progress Frame} {p : Frame → Prop} {r : Frame → Frame → Prop}

mutual

theorem changeBelow_became
    (hchange : ∀ frame items, p frame → frame.HasList items → (change frame items).fault? = none →
      (change frame items).value.holding = frame.holding ∧ r frame (change frame items).value)
    (limit : ℤ) : ∀ (item : Item) (depth : ℤ),
    Every (fun frame items ↦ p frame ∧ frame.HasList items) item →
    (changeBelow change limit depth item).fault? = none →
      Became r item (changeBelow change limit depth item).value
  | .leaf _, _, _, _ => rfl
  | .group frame items, depth, h, hfault => by
    obtain ⟨⟨hframe, hlist⟩, hitems⟩ := h
    rw [changeBelow] at hfault ⊢
    obtain ⟨hchanged, hbelow⟩ := Progress.fault?_guarded_eq_none.mp hfault
    obtain ⟨hholding, hrelated⟩ := hchange frame items hframe hlist hchanged
    rw [hchanged, Progress.guarded_none]
    rcases hlist with hlisted | ⟨habsent, rfl⟩
    · rw [hholding, hlisted] at hbelow ⊢
      obtain ⟨hcheck, hbelow⟩ := Progress.fault?_guarded_eq_none.mp hbelow
      rw [hcheck]
      exact ⟨_, _, rfl, hrelated, changeEach_became hchange limit items (depth + 1) hitems hbelow⟩
    · rw [hholding, habsent]
      exact ⟨_, _, rfl, hrelated, rfl⟩

/-- A walk that changes frames relates each frame to what it has become, if the change does. -/
theorem changeEach_became
    (hchange : ∀ frame items, p frame → frame.HasList items → (change frame items).fault? = none →
      (change frame items).value.holding = frame.holding ∧ r frame (change frame items).value)
    (limit : ℤ) : ∀ (items : List Item) (depth : ℤ),
    EveryIn (fun frame items ↦ p frame ∧ frame.HasList items) items →
    (changeEach change limit depth items).fault? = none →
      BecameIn r items (changeEach change limit depth items).value
  | [], _, _, _ => rfl
  | item :: rest, depth, h, hfault => by
    obtain ⟨hfirst, hrest⟩ := Progress.fault?_cons_eq_none.mp hfault
    rw [changeEach, Progress.value_cons hfirst]
    exact ⟨_, _, rfl, changeBelow_became hchange limit item depth h.1 hfirst,
      changeEach_became hchange limit rest depth h.2 hrest⟩

end

end Changing

mutual

theorem Every.of_became {p : Frame → List Item → Prop} {q : Frame → Prop} : ∀ {item other : Item},
    Every p item → Became (fun frame _ ↦ q frame) item other → Every (fun frame _ ↦ q frame) item
  | .leaf _, _, h, _ => h
  | .group _ _, _, h, hbecame => by
    obtain ⟨_, _, -, hframe, hitems⟩ := hbecame
    exact ⟨hframe, EveryIn.of_became h.2 hitems⟩

theorem EveryIn.of_became {p : Frame → List Item → Prop} {q : Frame → Prop} :
    ∀ {items others : List Item}, EveryIn p items → BecameIn (fun frame _ ↦ q frame) items others →
      EveryIn (fun frame _ ↦ q frame) items
  | [], _, _, _ => trivial
  | _ :: _, _, h, hbecame => by
    obtain ⟨_, _, -, hfirst, hrest⟩ := hbecame
    exact ⟨Every.of_became h.1 hfirst, EveryIn.of_became h.2 hrest⟩

end

section Untagging

variable {limit : ℤ} {items : List Item}

/-- Where all numbers that have to be written into bindings can be, untagging goes through and
restores everything. -/
theorem untagAll_restores (hwithin : IsWithin limit items)
    (h : EveryIn (fun frame _ ↦ frame.tagged.IsTyped) items)
    (hwritable : EveryIn (fun frame _ ↦ frame.tagged.IsWritable) items) :
    ∃ restored, untagAll limit items = .done restored ∧ BecameIn Frame.Restores items restored := by
  have hheight := hwithin.height
  have hframes : EveryIn (fun frame items ↦
      (frame.tagged.IsTyped ∧ frame.tagged.IsWritable) ∧ frame.HasList items) items :=
    (h.and hwritable).and hwithin.hasList
  have hfaults : (untagAll limit items).FaultsIn fun _ ↦ False := by
    rw [untagAll_eq hwithin.limit_nonneg]
    refine changeEach_faultsIn (fun frame _ hframe _ ↦
      ⟨fun fault hfault ↦ ?_, fun _ ↦ frame.holding_untag⟩) limit items 0 hframes (by omega)
    exact (Frame.untag_faultsIn_unwritable hframe.1 fault hfault).2 hframe.2
  have hdone : (untagAll limit items).fault? = none :=
    Option.eq_none_iff_forall_ne_some.mpr fun fault hfault ↦ hfaults fault hfault
  refine ⟨_, Progress.eq_done hdone, ?_⟩
  rw [untagAll_eq hwithin.limit_nonneg] at hdone ⊢
  exact changeEach_became (fun frame _ hframe _ hnone ↦
    ⟨frame.holding_untag, (Frame.untag_restores hframe.1 hnone).1⟩) limit items 0 hframes hdone

/-- Where one of them cannot, it stops untagging. -/
theorem untagAll_stops (hwithin : IsWithin limit items)
    (h : EveryIn (fun frame _ ↦ frame.tagged.IsTyped) items)
    (hwritable : ¬ EveryIn (fun frame _ ↦ frame.tagged.IsWritable) items) :
    (untagAll limit items).fault? = some .badValue := by
  have hheight := hwithin.height
  have hframes : EveryIn (fun frame items ↦ frame.tagged.IsTyped ∧ frame.HasList items) items :=
    h.and hwithin.hasList
  rw [untagAll_eq hwithin.limit_nonneg]
  cases hfault : (changeEach (fun frame _ ↦ frame.untag) limit 0 items).fault? with
  | none =>
    have hbecame := changeEach_became (r := fun frame _ ↦ frame.tagged.IsWritable)
      (fun frame _ hframe _ hnone ↦ ⟨frame.holding_untag, (Frame.untag_restores hframe hnone).2⟩)
      limit items 0 hframes hfault
    exact absurd (h.of_became hbecame) hwritable
  | some fault =>
    have hfaults :
        (changeEach (fun frame _ ↦ frame.untag) limit 0 items).FaultsIn (· = .badValue) :=
      changeEach_faultsIn (fun frame _ hframe _ ↦ ⟨fun fault hfault ↦
        (Frame.untag_faultsIn_unwritable hframe fault hfault).1, fun _ ↦ frame.holding_untag⟩)
        limit items 0 hframes (by omega)
    rw [hfaults fault hfault]

end Untagging

/-- Tagging makes typed tags. -/
theorem tagAll_isTyped {limit : ℤ} {items : List Item} (h : IsWithin limit items)
    (hfault : (tagAll limit items).fault? = none) :
    EveryIn (fun frame _ ↦ frame.tagged.IsTyped) (tagAll limit items).value := by
  obtain ⟨hcheck, hbelow⟩ := Progress.fault?_guarded_eq_none.mp hfault
  rw [tagAll, changeAll, hcheck]
  have hevery := changeEach_every (q := fun frame ↦ frame.tagged.IsTyped)
    (fun frame items _ hlist _ ↦ ⟨Frame.holding_tag hlist, ?_⟩) h.every hbelow
  · exact hevery.mono fun _ _ hframe ↦ hframe.1
  · rw [Progress.value_done, Frame.tagged_tag]
    exact isTyped_tagMembers _

end Item

namespace Data

variable {limit : ℤ} {tree : Data} {tagged : List Item}

/-- The items of a tree with all transform properties under tags, as a collapse that merges
transforms goes on with them. A tree without items has none. -/
def taggedItems (limit : ℤ) (tree : Data) : Except Fault (List Item) := do
  tree.checkTreeDepth limit
  if !(← tree.mentions itemsKey) then return []
  match tree with
  | .obj members =>
    let listed ← (Item.listAll limit (Item.itemsOf members)).toExcept
    (Item.tagAll limit listed).toExcept
  | _ => .error .wrongType

/-- What has been made lists of without meeting a fault is within the limit. -/
theorem isWithin_of_checkTreeDepth {members : Members} {checked : Unit}
    (hdepth : (Data.obj members).checkTreeDepth limit = .ok checked)
    (hfault : (Item.listAll limit (Item.itemsOf members)).fault? = none) :
    Item.IsWithin limit (Item.listAll limit (Item.itemsOf members)).value := by
  have hexceeds : (Data.obj members).exceeds limit 0 = false := by
    by_contra hexceeds
    rw [checkTreeDepth, if_pos (by simpa using hexceeds)] at hdepth
    cases hdepth
  have hlimit : 0 ≤ limit := le_of_checkDepth (Progress.fault?_guarded_eq_none.mp hfault).1
  have hheight := Item.heightIn_itemsOf members 0 hexceeds hlimit
  rw [Int.zero_add] at hheight
  obtain ⟨listed, hlist, hwithin⟩ := Item.listAll_isWithin
    ((Item.everyIn_read members).mono fun _ _ hframe ↦ ⟨trivial, hframe.2⟩) hheight
  rw [hlist]
  exact hwithin

/-- Tagging that goes through makes typed tags, within the limit. -/
theorem taggedItems_isWithin (h : tree.taggedItems limit = .ok tagged) :
    Item.EveryIn (fun frame _ ↦ frame.tagged.IsTyped) tagged ∧
      (0 ≤ limit → Item.IsWithin limit tagged) := by
  unfold taggedItems at h
  obtain ⟨_, hdepth, h⟩ := Except.bind_eq_ok h
  obtain ⟨mentioned, hmentioned, h⟩ := Except.bind_eq_ok h
  cases tree with
  | obj members =>
    cases mentioned with
    | false =>
      cases h
      exact ⟨trivial, fun hlimit ↦ ⟨trivial, hlimit⟩⟩
    | true =>
      obtain ⟨listed, hlisted, htagged⟩ := Except.bind_eq_ok h
      obtain ⟨hlist, rfl⟩ := Progress.toExcept_eq_ok.mp hlisted
      obtain ⟨htag, rfl⟩ := Progress.toExcept_eq_ok.mp htagged
      have hwithin : Item.IsWithin limit (Item.listAll limit (Item.itemsOf members)).value :=
        isWithin_of_checkTreeDepth hdepth hlist
      have hkept : (Item.tagAll limit _).fault? = none →
          Item.IsWithin limit (Item.tagAll limit _).value :=
        (hwithin.changeAll (fun _ _ hlist ↦ Frame.holding_tag hlist)
          fun _ _ ↦ Progress.faultsIn_done _ _).2
      exact ⟨Item.tagAll_isTyped hwithin htag, fun _ ↦ hkept htag⟩
  | null | bool _ | num _ | str _ | list _ =>
    cases mentioned with
    | false =>
      cases h
      exact ⟨trivial, fun hlimit ↦ ⟨trivial, hlimit⟩⟩
    | true => cases h

/-- The tagged maps of a run are typed from the end of tagging on, those of the groups and those of
candidates, after each step of pushing, however far that gets. If it goes through, untagging
restores everything that is given, unless some number beside a binding cannot be written, which
stops it. -/
theorem taggedItems_isTyped (h : tree.taggedItems limit = .ok tagged) :
    Item.EveryIn (fun frame _ ↦ frame.tagged.IsTyped) tagged ∧
    (∀ map ∈ Item.mapsEach limit 0 (mayPush tagged []) [] tagged, map.IsTyped) ∧
    ∀ pushed, (Item.pushAll limit [] tagged).toExcept = .ok pushed →
      Item.EveryIn (fun frame _ ↦ frame.tagged.IsTyped) pushed.value ∧
      (Item.EveryIn (fun frame _ ↦ frame.tagged.IsWritable) pushed.value →
        ∃ restored, Item.untagAll limit pushed.value = .done restored ∧
          Item.BecameIn Frame.Restores pushed.value restored) ∧
      (¬ Item.EveryIn (fun frame _ ↦ frame.tagged.IsWritable) pushed.value →
        (Item.untagAll limit pushed.value).fault? = some .badValue) := by
  obtain ⟨htyped, hwithin⟩ := taggedItems_isWithin h
  refine ⟨htyped, Item.mapsEach_isTyped tagged 0 _ [] id Tagged.isTyped_nil htyped,
    fun pushed hpushed ↦ ?_⟩
  obtain ⟨hpush, rfl⟩ := Progress.toExcept_eq_ok.mp hpushed
  obtain ⟨hcheck, -⟩ := Progress.fault?_guarded_eq_none.mp hpush
  have hafter := ((hwithin (le_of_checkDepth hcheck)).pushAll []).2 hpush
  have hkept : Item.EveryIn (fun frame _ ↦ frame.tagged.IsTyped)
      (Item.pushAll limit [] tagged).value.value := by
    rw [Item.pushAll, hcheck]
    exact (Item.pushEach_isTyped tagged 0 _ [] id Tagged.isTyped_nil htyped).1
  exact ⟨hkept, Item.untagAll_restores hafter hkept, Item.untagAll_stops hafter hkept⟩

/-- A turn about a pivot around two shifts, one along the axis of a shift of its own. -/
def mixedShift : Data :=
  .obj [("items", .list [.obj [("type", .str "group"), ("rotation", .str "45"),
    ("pivotX", .str "$\x7bp + 1\x7d"), ("translateX", .str "$\x7b a \x7d"), ("items", .list [
      .obj [("type", .str "group"), ("translateX", .num (.int 5)),
        ("translateY", .str "$\x7by\x7d"), ("opacity", .null), ("items", .list [
          .obj [("type", .str "path")], .obj [("type", .str "path")]])]])]])]

theorem taggedItems_isTyped_mixed : ∃ tagged pushed restored,
    mixedShift.taggedItems 4 = .ok tagged ∧
    (Item.mapsEach 4 0 (mayPush tagged []) [] tagged).length = 26 ∧
    (∀ map ∈ Item.mapsEach 4 0 (mayPush tagged []) [] tagged, map.IsTyped) ∧
    (Item.pushAll 4 [] tagged).toExcept = .ok pushed ∧
    Item.untagAll 4 pushed.value = .done restored ∧
    Item.BecameIn Frame.Restores pushed.value restored ∧
    (Data.obj [("items", .list (Item.toList restored))]).transformTexts =
      ["$\x7ba+5\x7d", "$\x7by\x7d", "$\x7bp+1+(-5)\x7d", "$\x7b(-y)\x7d"] := by
  have hrun : (mixedShift.taggedItems 4).toOption.any (fun tagged ↦
      (Item.mapsEach 4 0 (mayPush tagged []) [] tagged).length = 26 &&
        (Item.pushAll 4 [] tagged).toExcept.toOption.any fun pushed ↦
          (Item.untagAll 4 pushed.value).toExcept.toOption.any fun restored ↦
            (Data.obj [("items", .list (Item.toList restored))]).transformTexts =
              ["$\x7ba+5\x7d", "$\x7by\x7d", "$\x7bp+1+(-5)\x7d", "$\x7b(-y)\x7d"]) = true := by
    decide +kernel
  obtain ⟨tagged, htagged, hrun⟩ := Except.exists_of_any hrun
  rw [Bool.and_eq_true, decide_eq_true_eq] at hrun
  obtain ⟨hlength, hrun⟩ := hrun
  obtain ⟨pushed, hpushed, hrun⟩ := Except.exists_of_any hrun
  obtain ⟨restored, hrestored, htexts⟩ := Except.exists_of_any hrun
  obtain ⟨hdone, rfl⟩ := Progress.toExcept_eq_ok.mp hrestored
  have hspec : Item.EveryIn (fun frame _ ↦ frame.tagged.IsTyped) tagged ∧
      (∀ map ∈ Item.mapsEach 4 0 (mayPush tagged []) [] tagged, map.IsTyped) ∧ _ :=
    taggedItems_isTyped htagged
  obtain ⟨-, hmaps, hpush⟩ := hspec
  obtain ⟨-, hrestores, hstops⟩ := hpush pushed hpushed
  -- Otherwise untagging would have been stopped.
  have hwritable : Item.EveryIn (fun frame _ ↦ frame.tagged.IsWritable) pushed.value := by
    by_contra hunwritable
    rw [hstops hunwritable] at hdone
    cases hdone
  obtain ⟨restored, hall, hbecame⟩ := hrestores hwritable
  refine ⟨tagged, pushed, restored, htagged, hlength, hmaps, hpushed, hall, hbecame, ?_⟩
  rw [hall] at htexts
  exact of_decide_eq_true htexts

/-- Whether of three groups in one another, with nothing under their tags that is NaN or empty, the
innermost one has a binding of its opacity there, and no opacity in the items after. -/
def losesOpacity : List Item → List Item → Bool
  | [.group outer [.group middle [.group inner _]]], [.group _ [.group _ [.group after _]]] =>
    [outer, middle, inner].all (fun frame ↦ frame.tagged.all fun entry ↦ entry.2.isGiven) &&
      Entries.contains inner.tagged ⟨.opacity, .binding⟩ &&
        !Entries.contains after.members "opacity"
  | _, _ => false

/-- A product of more digits than can be written ends up beside a binding. Nothing under these tags
is NaN or empty, and yet it is not restored. -/
theorem taggedItems_overlong : ∃ tagged pushed outer middle inner items,
    (Data.obj overlongMembers).taggedItems 256 = .ok tagged ∧
    (Item.pushAll 256 [] tagged).toExcept = .ok pushed ∧
    pushed.value = [.group outer [.group middle [.group inner items]]] ∧
    (∀ frame ∈ [outer, middle, inner], ∀ property, frame.tagged.IsGivenAt property) ∧
    ¬ Item.BecameIn Frame.Restores pushed.value (Item.untagAll 256 pushed.value).value := by
  have hrun : ((Data.obj overlongMembers).taggedItems 256).toOption.any (fun tagged ↦
      (Item.pushAll 256 [] tagged).toExcept.toOption.any fun pushed ↦
        losesOpacity pushed.value (Item.untagAll 256 pushed.value).value) = true := by
    decide +kernel
  obtain ⟨tagged, htagged, hrun⟩ := Except.exists_of_any hrun
  obtain ⟨pushed, hpushed, hrun⟩ := Except.exists_of_any hrun
  unfold losesOpacity at hrun
  split at hrun
  · rename_i outer middle inner items _ _ after _ hbefore hafter
    simp only [Bool.and_eq_true, Bool.not_eq_true'] at hrun
    obtain ⟨⟨hgiven, hbinding⟩, hmissing⟩ := hrun
    have hproviso : ∀ frame ∈ [outer, middle, inner], ∀ property, frame.tagged.IsGivenAt property :=
      fun frame hframe ↦ Tagged.isGivenAt_of_all (List.all_eq_true.mp hgiven frame hframe)
    refine ⟨tagged, pushed, outer, middle, inner, items, htagged, hpushed, hbefore, hproviso, ?_⟩
    rw [hafter, hbefore]
    -- The two innermost groups are related; the binding of the first has no place in the second.
    rintro ⟨_, _, houter, ⟨_, _, rfl, -, _, _, rfl, ⟨_, _, rfl, -, _, _, rfl,
      ⟨_, _, rfl, hrestores, -⟩, -⟩, -⟩, -⟩
    cases houter
    rw [Entries.contains_eq_isSome, Option.isSome_iff_exists] at hbinding
    obtain ⟨value, hget⟩ := hbinding
    obtain ⟨written, hwritten, -⟩ :=
      hrestores .opacity (hproviso inner (by simp) .opacity) .binding value hget
    rw [Entries.contains_eq_false_iff] at hmissing
    cases hmissing.symm.trans hwritten
  · cases hrun

end Data

end Motion
