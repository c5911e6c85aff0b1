import Motion.Proofs.Scene.Content
import Motion.Proofs.Scene.Kept

/-!
Conditions on the values of transform properties. A condition that holds of every number and of
every text that joining makes of values that satisfy it (`IsKept`) is kept by each stage of
collapsing: what the properties of the collapsed scene hold satisfies it, if what they held before
did (`Data.collapse_values`).
-/

set_option autoImplicit false
set_option relaxedAutoImplicit false

namespace Motion

/-- A condition on values, by the kind of the tag they are under, that merging keeps. -/
structure IsKept (P : Kind → Data → Prop) : Prop where
  number : ∀ n, P .numeric (.num n)
  joined : ∀ {operator kind current value text}, kind ≠ .special → P kind value →
    current = .null ∨ P .binding current → IsJoined operator current value text →
      P .binding (.str (Scalar.binding (String.ofList text)))

/-- Tags whose values satisfy a condition on values by their kind. -/
abbrev Tagged.Keeps (P : Kind → Data → Prop) (tags : Tagged) : Prop :=
  tags.Holds fun tag ↦ P tag.kind

namespace Progress

variable {α : Type}

/-- A step keeps what its outcome and what was there before have in common. -/
theorem ofExcept_keeps {q : α → Prop} {unchanged : α} {result : Except Fault α} (h : q unchanged)
    (hresult : ∀ value, result = .ok value → q value) : q (ofExcept unchanged result).value := by
  cases result with
  | error fault => exact h
  | ok value => exact hresult value rfl

end Progress

section Merging

variable {κ : Type} [DecidableEq κ] [HasFamily κ]

/-- Merging a number leaves the entries as they are or puts a number under the key. -/
theorem mergeNumber_cases {entries merged : Entries κ Data} {key : κ} {value : Data}
    {op : Option Operator} (h : mergeNumber entries key value op = .ok merged) :
    merged = entries ∨ ∃ n, merged = Entries.put entries key (.num n) := by
  have hstore (r : Option Number)
      (hr : ((inRange r).map fun n ↦ Entries.put entries key (.num n.normalize)) = .ok merged) :
      ∃ n, merged = Entries.put entries key (.num n) := by
    cases r with
    | none => cases hr
    | some n =>
      cases hr
      exact ⟨n.normalize, rfl⟩
  unfold mergeNumber at h
  dsimp only at h
  split at h
  · cases h
    exact Or.inl rfl
  · cases h
    exact Or.inl rfl
  · split at h
    · exact Or.inr (hstore _ h)
    · exact Or.inr (hstore _ h)
    · exact Or.inr (hstore _ h)
    · cases h
      exact Or.inl rfl

end Merging

section Keeping

variable {P : Kind → Data → Prop} {tags candidates merged : Tagged}

theorem mergeNumber_keeps (hP : IsKept P) (h : tags.Keeps P) {tag : Tag}
    (hkind : tag.kind = .numeric) {value : Data} {op : Option Operator}
    (hmerged : mergeNumber tags tag value op = .ok merged) : merged.Keeps P := by
  rcases mergeNumber_cases hmerged with rfl | ⟨n, rfl⟩
  · exact h
  · refine h.put ?_
    rw [hkind]
    exact hP.number n

theorem mergeText_keeps (hP : IsKept P) (h : tags.Keeps P) {tag : Tag}
    (htag : tag.kind = .binding) {kind : Kind} (hkind : kind ≠ .special) {value : Data}
    (hvalue : P kind value) {op : Option Operator}
    (hmerged : mergeText tags tag value op = .ok merged) : merged.Keeps P := by
  have hcurrent : (Entries.get? tags tag).getD .null = .null ∨
      P .binding ((Entries.get? tags tag).getD .null) := by
    cases hget : Entries.get? tags tag with
    | none => exact Or.inl rfl
    | some current =>
      have hheld := h.holds tag current hget
      rw [htag] at hheld
      exact Or.inr hheld
  rw [mergeText_eq hmerged]
  rcases joinText_cases tags tag value op with hsame | ⟨text, hput, hjoined⟩
  · rw [hsame]
    exact h
  · rw [hput]
    refine h.put ?_
    rw [htag]
    exact hP.joined hkind hvalue hcurrent hjoined

/-- Moving a pivot keeps the condition. -/
theorem mergeShift_keeps (hP : IsKept P) {child : Tagged} (hchild : child.Keeps P)
    (h : candidates.Keeps P) {tag : Tag} (htag : tag.kind ≠ .special)
    (hmerged : mergeShift child candidates tag = .ok merged) : merged.Keeps P := by
  unfold mergeShift at hmerged
  cases hget : Entries.get? child tag.shift with
  | none =>
    rw [hget] at hmerged
    cases hmerged
    exact h
  | some value =>
    rw [hget, Option.elim_some] at hmerged
    split_ifs at hmerged with hnumeric
    · exact mergeNumber_keeps hP h hnumeric hmerged
    · have hbinding : tag.kind = .binding := by
        cases hkind : tag.kind <;> simp_all
      exact mergeText_keeps hP h hbinding htag (hchild.holds tag.shift value hget) hmerged

/-- Moving some pivots one after the other keeps the condition. -/
theorem moveEach_keeps (hP : IsKept P) {child : Tagged} (hchild : child.Keeps P)
    (h : candidates.Keeps P) {pivots : List Tag} (hpivots : pivots ⊆ pivotTags) :
    (moveEach child candidates pivots).value.Keeps P := by
  induction pivots with
  | nil => exact h
  | cons tag rest ih =>
    obtain ⟨htag, hrest⟩ := List.cons_subset.mp hpivots
    rw [moveEach_cons]
    refine Progress.andThen_keeps (ih hrest) fun moved hmoved ↦ ?_
    exact Progress.ofExcept_keeps hmoved fun next hnext ↦
      mergeShift_keeps hP hchild hmoved (pivotTags_spec htag).2.1 hnext

theorem compensate_keeps (hP : IsKept P) {child : Tagged} (hchild : child.Keeps P)
    (h : candidates.Keeps P) : (compensate child candidates).value.Keeps P := by
  by_cases hpivotal : (candidates.any fun candidate ↦ candidate.1.isPivotal) = true
  · rw [compensate_eq child hpivotal]
    exact moveEach_keeps hP hchild h (List.Subset.refl _)
  · rw [compensate, if_neg hpivotal]
    exact h

theorem absorb_keeps (hP : IsKept P) : ∀ (candidates tags : Tagged), candidates.Keeps P →
    tags.Keeps P → (absorb tags candidates).value.Keeps P
  | [], tags, _, htags => htags
  | (⟨property, kind⟩, value) :: rest, tags, hcandidates, htags => by
    obtain ⟨hvalue, -, hrest⟩ := hcandidates.of_cons
    rw [absorb]
    refine Progress.andThen_keeps ?_ fun merged hmerged ↦ absorb_keeps hP rest merged hrest hmerged
    cases kind with
    | numeric =>
      exact Progress.ofExcept_keeps htags fun merged hok ↦ mergeNumber_keeps hP htags rfl hok
    | binding =>
      exact Progress.ofExcept_keeps htags fun merged hok ↦
        mergeText_keeps hP htags rfl (by simp) hvalue hok
    | special => exact htags.put hvalue

/-- A push keeps the condition in the child and in the candidates, wherever it stops. -/
theorem pushInto_keeps (hP : IsKept P) (htags : tags.Keeps P) (h : candidates.Keeps P) :
    (pushInto tags candidates).value.1.Keeps P ∧ (pushInto tags candidates).value.2.Keeps P := by
  have hmoved := compensate_keeps hP htags h
  have habsorbed := absorb_keeps hP _ tags hmoved htags
  unfold pushInto
  dsimp only
  split
  · exact ⟨htags, hmoved⟩
  · split
    · exact ⟨habsorbed, hmoved⟩
    · exact ⟨habsorbed.filter _, hmoved⟩

theorem untagValue?_keeps (hP : IsKept P) (h : tags.Keeps P) {property : Property} {value : Data}
    (hvalue : untagValue? tags property = .ok (some value)) : ∃ kind, P kind value := by
  unfold untagValue? at hvalue
  dsimp only at hvalue
  split at hvalue
  · rename_i number _ hnumber
    cases hmerged : mergeText tags ⟨property, .binding⟩ number none with
    | error fault =>
      rw [hmerged] at hvalue
      cases hvalue
    | ok merged =>
      rw [hmerged] at hvalue
      have hkept := mergeText_keeps hP h rfl (by simp) (h.holds _ number hnumber) hmerged
      exact ⟨.binding, hkept.holds ⟨property, .binding⟩ value (Except.ok.inj hvalue)⟩
  · rename_i hbinding _
    cases hvalue
    exact ⟨.binding, h.holds _ value hbinding⟩
  · rename_i _ hnumber
    cases hvalue
    exact ⟨.numeric, h.holds _ value hnumber⟩
  · exact ⟨.special, h.holds _ value (Except.ok.inj hvalue)⟩

end Keeping

namespace Item

variable {P : Kind → Data → Prop}

/-- Whether the tags of all groups hold values that satisfy a condition. -/
abbrev Keeps (P : Kind → Data → Prop) : Item → Prop :=
  Every fun frame _ ↦ frame.tagged.Keeps P

abbrev KeepsIn (P : Kind → Data → Prop) : List Item → Prop :=
  EveryIn fun frame _ ↦ frame.tagged.Keeps P

/-- What a group makes of candidates: it takes them in if they are pushed. -/
def received (push : Bool) (candidates : Tagged) (frame : Frame) : Progress (Tagged × Tagged) :=
  if push then pushInto frame.tagged candidates else .done (frame.tagged, candidates)

theorem received_keeps (hP : IsKept P) (push : Bool) {candidates : Tagged} {frame : Frame}
    (hcandidates : candidates.Keeps P) (hframe : frame.tagged.Keeps P) :
    (received push candidates frame).value.1.Keeps P ∧
      (received push candidates frame).value.2.Keeps P := by
  unfold received
  split_ifs
  · exact pushInto_keeps hP hframe hcandidates
  · exact ⟨hframe, hcandidates⟩

/-- Wherever pushing stops, a group has dropped some of the tags that it made of the candidates, and
its items are as they were or have been walked as well. -/
theorem pushBelow_group (limit depth : ℤ) (push : Bool) (candidates : Tagged) (frame : Frame)
    (items : List Item) :
    ∃ dropped after, (pushBelow limit depth push candidates (.group frame items)).value =
        (.group { frame with
          tags := some (without (received push candidates frame).value.1 dropped) } after,
          (received push candidates frame).value.2) ∧
      (after = items ∨ after = (pushEach limit (depth + 1)
        (mayPush items (inTagOrder (received push candidates frame).value.1))
        (inTagOrder (received push candidates frame).value.1) items).value.1) := by
  have hnone (tags : Tagged) : without tags [] = tags := List.filter_eq_self.mpr fun _ _ ↦ rfl
  rw [pushBelow, ← received]
  generalize received push candidates frame = received
  have hstay : ∃ dropped after, (Item.group { frame with tags := some received.value.1 } items,
      received.value.2) = (Item.group { frame with tags := some (without received.value.1 dropped) }
        after, received.value.2) ∧ (after = items ∨ after = (pushEach limit (depth + 1)
          (mayPush items (inTagOrder received.value.1)) (inTagOrder received.value.1)
            items).value.1) :=
    ⟨[], items, by rw [hnone], Or.inl rfl⟩
  dsimp only
  split
  · exact hstay
  · split
    · exact hstay
    · unfold Progress.guarded
      split
      · exact hstay
      · exact hstay
    · unfold Progress.guarded
      split
      · exact hstay
      · rw [Progress.value_map]
        split_ifs
        · exact ⟨_, _, rfl, Or.inr rfl⟩
        · exact ⟨[], _, by rw [hnone], Or.inr rfl⟩

mutual

theorem pushBelow_keeps (hP : IsKept P) (limit : Int) : ∀ (item : Item) (depth : Int) (push : Bool)
    (candidates : Tagged), candidates.Keeps P → Keeps P item →
      Keeps P (pushBelow limit depth push candidates item).value.1 ∧
        (pushBelow limit depth push candidates item).value.2.Keeps P
  | .leaf _, _, _, _, hcandidates, h => ⟨h, hcandidates⟩
  | .group frame items, depth, push, candidates, hcandidates, h => by
    obtain ⟨hframe, hitems⟩ := h
    obtain ⟨htags, hgiven⟩ := received_keeps hP push hcandidates hframe
    obtain ⟨dropped, after, hvalue, hafter⟩ :=
      pushBelow_group limit depth push candidates frame items
    rw [hvalue]
    refine ⟨⟨htags.filter _, ?_⟩, hgiven⟩
    rcases hafter with rfl | rfl
    · exact hitems
    · exact (pushEach_keeps hP limit items (depth + 1) _ _ htags.inTagOrder hitems).1

/-- Pushing keeps a condition on the values under tags, wherever it stops. -/
theorem pushEach_keeps (hP : IsKept P) (limit : Int) : ∀ (items : List Item) (depth : Int)
    (push : Bool) (candidates : Tagged), candidates.Keeps P → KeepsIn P items →
      KeepsIn P (pushEach limit depth push candidates items).value.1 ∧
        (pushEach limit depth push candidates items).value.2.Keeps P
  | [], _, _, _, hcandidates, _ => ⟨trivial, hcandidates⟩
  | item :: rest, depth, push, candidates, hcandidates, h => by
    obtain ⟨hfirst, hgiven⟩ := pushBelow_keeps hP limit item depth push candidates hcandidates h.1
    rw [pushEach]
    cases (pushBelow limit depth push candidates item).fault? with
    | some fault => exact ⟨⟨hfirst, h.2⟩, hgiven⟩
    | none =>
      obtain ⟨hrest, hlast⟩ := pushEach_keeps hP limit rest depth push _ hgiven h.2
      exact ⟨⟨hfirst, hrest⟩, hlast⟩

end

end Item

namespace Frame

variable {P : Kind → Data → Prop} {frame : Frame}

/-- A group of a document whose properties satisfy a condition once they are under tags. -/
structure Takes (P : Kind → Data → Prop) (frame : Frame) : Prop where
  group : frame.IsGroup
  values : ∀ property value, (Property.name property, value) ∈ frame.members →
    value.isNull = false → P value.kind value.tagged

/-- A group without transform properties among its members. -/
structure IsEmptied (frame : Frame) : Prop extends frame.IsShown where
  plain : ∀ member ∈ frame.members, isPlain member = true

theorem IsEmptied.with_tags (h : frame.IsEmptied) (tags : Option Tagged) :
    ({ frame with tags } : Frame).IsEmptied :=
  ⟨h.toIsShown.with_tags tags, h.plain⟩

/-- A group of a document whose properties satisfy a condition for some kind. -/
structure Gives (P : Kind → Data → Prop) (frame : Frame) : Prop where
  group : frame.IsGroup
  values : ∀ property value, (Property.name property, value) ∈ frame.members → ∃ kind, P kind value

theorem isEmptied_tag (h : frame.IsGroup) {items : List Item} (hlist : frame.HasList items) :
    (frame.tag items).IsEmptied where
  toIsShown := isShown_tag h hlist
  plain := by
    intro member hmember
    rw [members_tag, List.mem_filter, Bool.and_eq_true] at hmember
    exact hmember.2.1

/-- Tagging moves values that satisfy a condition under their tags. -/
theorem keeps_tag (h : frame.Takes P) (items : List Item) : (frame.tag items).tagged.Keeps P := by
  rw [tagged_tag]
  constructor
  · exact nodup_tagMembers _
  · intro tag value hget
    rw [get?_tagMembers] at hget
    obtain ⟨member, hmember, hkind, rfl⟩ := taggedValue?_eq_some hget
    have hmem := (List.mem_filter.mp (Entries.mem_of_get? hmember)).1
    obtain ⟨hmem, hpublic⟩ := List.mem_filter.mp hmem
    have hnull : member.isNull = false := by
      simpa [isPublic, isPrivate_name] using hpublic
    rw [← hkind]
    exact h.values tag.property member hmem hnull

/-- Untagging puts no other values among the members than merging makes. -/
theorem gives_untag (hP : IsKept P) (h : frame.IsEmptied) (htags : frame.tagged.Keeps P) :
    frame.untag.value.Gives P := by
  refine ⟨(kept_untag h.toIsShown).2.1.group, ?_⟩
  refine untag_induction (p := fun other ↦ ∀ property value,
    (Property.name property, value) ∈ other.members → ∃ kind, P kind value) frame ?_ ?_
  · intro property value hmember
    have hplain := h.plain _ hmember
    rw [isPlain_name] at hplain
    cases hplain
  · intro other property value hvalue hother second current hmember
    rcases mem_members_put hmember with heq | hmember
    · rw [(Prod.mk.inj heq).2]
      exact untagValue?_keeps hP htags hvalue
    · exact hother second current hmember

theorem takes_frameOf {members : Members} (hgroup : isGroup members = true)
    (h : ∀ property value, (Property.name property, value) ∈ members →
      value.isNull = false → P value.kind value.tagged) : (frameOf members).Takes P where
  group := Item.isGroup_frameOf hgroup
  values := by
    intro property value hmember
    refine h property value ?_
    rcases List.mem_append.mp hmember with hbefore | hafter
    · exact (List.takeWhile_sublist _).subset hbefore
    · exact ((List.drop_sublist _ _).trans (List.dropWhile_sublist _)).subset hafter

theorem mem_written {items : List Data} {property : Property} {value : Data}
    (h : (property.name, value) ∈ frame.written items) : (property.name, value) ∈ frame.members := by
  rw [written, List.mem_append, List.mem_append] at h
  rcases h with (hbefore | hitems) | hafter
  · exact List.mem_append_left _ hbefore
  · have hne : property.name ≠ itemsKey := property.name_ne (by decide)
    cases hholding : frame.holding <;> simp [Item.itemsMember, hholding, hne] at hitems
  · exact List.mem_append_right _ hafter

end Frame

namespace Item

variable {P : Kind → Data → Prop} {limit : Int} {items result : List Item}

theorem listAll_takes
    (h : EveryIn (fun frame items ↦ frame.Takes P ∧ (frame.holding = .absent → items = [])) items)
    (hfault : (listAll limit items).fault? = none) :
    EveryIn (fun frame items ↦ frame.Takes P ∧ frame.HasList items) (listAll limit items).value :=
  listAll_every (fun _ hframe ↦ ⟨hframe.group.listed, hframe.values⟩) h hfault

theorem tagAll_keeps (h : EveryIn (fun frame items ↦ frame.Takes P ∧ frame.HasList items) items)
    (hfault : (tagAll limit items).fault? = none) :
    EveryIn (fun frame items ↦ (frame.IsEmptied ∧ frame.tagged.Keeps P) ∧ frame.HasList items)
      (tagAll limit items).value := by
  obtain ⟨hcheck, hbelow⟩ := Progress.fault?_guarded_eq_none.mp hfault
  rw [tagAll, changeAll, hcheck]
  refine changeEach_every (fun frame items hframe hlist _ ↦ ?_) h hbelow
  exact ⟨Frame.holding_tag hlist, Frame.isEmptied_tag hframe.group hlist,
    Frame.keeps_tag hframe items⟩

theorem pushAll_keeps (hP : IsKept P) {candidates : Tagged} (hcandidates : candidates.Keeps P)
    (h : EveryIn (fun frame items ↦ (frame.IsEmptied ∧ frame.tagged.Keeps P) ∧ frame.HasList items)
      items) (hfault : (pushAll limit candidates items).fault? = none) :
    EveryIn (fun frame items ↦ (frame.IsEmptied ∧ frame.tagged.Keeps P) ∧ frame.HasList items)
      (pushAll limit candidates items).value.value := by
  obtain ⟨hcheck, hbelow⟩ := Progress.fault?_guarded_eq_none.mp hfault
  rw [pushAll, hcheck]
  obtain ⟨hevery, -⟩ := pushEach_leaves (fun _ tags hframe ↦ Frame.IsEmptied.with_tags hframe tags)
    (fun _ _ ↦ rfl : ∀ (frame : Frame) tags, Frame.own { frame with tags } = frame.own) limit items
    0 (mayPush items candidates) candidates (h.mono fun _ _ hframe ↦ ⟨hframe.1.1, hframe.2⟩) hbelow
  obtain ⟨hkept, -⟩ := pushEach_keeps hP limit items 0 (mayPush items candidates) candidates
    hcandidates (h.mono fun _ _ hframe ↦ hframe.1.2)
  exact (hevery.and hkept).mono fun _ _ hframe ↦ ⟨⟨hframe.1.1, hframe.2⟩, hframe.1.2⟩

theorem untagAll_gives (hP : IsKept P)
    (h : EveryIn (fun frame items ↦ (frame.IsEmptied ∧ frame.tagged.Keeps P) ∧ frame.HasList items)
      items) (hfault : (untagAll limit items).fault? = none) :
    EveryIn (fun frame items ↦ frame.Gives P ∧ frame.HasList items)
      (untagAll limit items).value := by
  obtain ⟨hcheck, hbelow⟩ := Progress.fault?_guarded_eq_none.mp hfault
  rw [untagAll, changeAll, hcheck]
  refine changeEach_every (fun frame items hframe _ _ ↦ ?_) h hbelow
  exact ⟨(Frame.kept_untag hframe.1.toIsShown).1, Frame.gives_untag hP hframe.1 hframe.2⟩

/-- Merging transforms keeps a condition on the values of the properties. -/
theorem mergeTransforms_gives (hP : IsKept P)
    (h : EveryIn (fun frame items ↦ frame.Takes P ∧ frame.HasList items) items)
    (hresult : mergeTransforms limit items = .ok result) :
    EveryIn (fun frame items ↦ frame.Gives P ∧ frame.HasList items) result := by
  obtain ⟨htag, hpush, huntag, rfl⟩ := mergeTransforms_eq_ok hresult
  exact untagAll_gives hP (pushAll_keeps hP Tagged.holds_nil (tagAll_keeps h htag) hpush) huntag

theorem collapseItems_gives (hP : IsKept P)
    (h : EveryIn (fun frame items ↦ frame.Takes P ∧ (frame.holding = .absent → items = [])) items)
    (hresult : collapseItems true limit items = .ok result) :
    EveryIn (fun frame items ↦ frame.Gives P ∧ frame.HasList items) result := by
  obtain ⟨hlist, merged, hmerged, hsplice, rfl⟩ := collapseItems_eq_ok hresult
  have hgives := mergeTransforms_gives hP (listAll_takes h hlist) hmerged
  exact (spliceAll_kept (fun _ hframe ↦ hframe.group) true hgives hsplice).1

end Item

namespace Data

/-- What the properties of a scene hold once its transforms are merged satisfies each condition that
merging keeps, if what they held before did under tags. -/
theorem collapse_values {P : Kind → Data → Prop} (hP : IsKept P) {limit : Int} {tree result : Data}
    (htree : ∀ members ∈ tree.groups, ∀ property value, (Property.name property, value) ∈ members →
      value.isNull = false → P value.kind value.tagged)
    (h : tree.collapse true limit = .ok result) :
    ∀ members ∈ result.groups, ∀ property value, (Property.name property, value) ∈ members →
      ∃ kind, P kind value := by
  rcases collapse_eq_ok h with ⟨rfl, -, hgroups⟩ | ⟨members, items, rfl, hitems, rfl⟩
  · simp [hgroups]
  · have hread : Item.EveryIn (fun frame items ↦ frame.Takes P ∧
        (frame.holding = .absent → items = [])) (Item.itemsOf members) :=
      Item.everyIn_frames fun other hother hgroup ↦ Frame.takes_frameOf hgroup (htree other hother)
    have hgives := Item.collapseItems_gives hP hread hitems
    rw [groups, groupsAmong_eq, heldItems_put]
    refine Item.groupsIn_toList (fun frame below hframe ↦ ⟨hframe.1.group, hframe.2, ?_⟩) items hgives
    exact fun property value hmember ↦ hframe.1.values property value (Frame.mem_written hmember)

end Data

end Motion
