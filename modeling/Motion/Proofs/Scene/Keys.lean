import Motion.Proofs.Data.Entries
import Motion.Scene.Shown

/-!
Tagged properties as entries of a map with keys from outside. Among such entries, where no key is
plain or stray, every step of a push does what it does among tagged properties: merging a value,
dropping what does not show, telling conflicts (`Key.accepts_ofTagged`), and receiving the
candidates of a parent (`ShownTags.receive_ofTagged`). Where all keys are plain, private ones are
stripped as they are from members.
-/

set_option autoImplicit false
set_option relaxedAutoImplicit false

namespace Motion

namespace Key

/-- The text of a tag names that tag. -/
theorem ofTagText_text (tag : Tag) : ofTagText tag.text = .ok (Key.tag tag) := by
  obtain ⟨property, kind⟩ := tag
  cases property <;> cases kind <;> decide +kernel

theorem entries_ofTagged (tags : Tagged) :
    entries ofTagText (members (ofTagged tags)) = .ok (ofTagged tags) := by
  induction tags with
  | nil => rfl
  | cons entry rest ih =>
    have hread : (do return (← ofTagText (text (.tag entry.1)), entry.2)) =
        (.ok (.tag entry.1, entry.2) : Except Fault (Key × Data)) := by
      rw [text, ofTagText_text]
      rfl
    change List.mapM _ ((text (.tag entry.1), entry.2) :: members (ofTagged rest)) = _
    rw [List.mapM_cons, hread]
    change (entries ofTagText (members (ofTagged rest)) >>= _) = _
    rw [ih]
    rfl

@[simp] theorem tagged_ofTagged (tags : Tagged) : tagged (ofTagged tags) = tags := by
  rw [tagged, ofTagged, List.filterMap_map]
  exact List.filterMap_some

theorem keys_ofTagged (tags : Tagged) :
    Entries.keys (ofTagged tags) = (Entries.keys tags).map Key.tag := by
  simp [Entries.keys, ofTagged]

theorem get?_ofTagged (tags : Tagged) (tag : Tag) :
    Entries.get? (ofTagged tags) (.tag tag) = Entries.get? tags tag := by
  simp [Entries.get?, ofTagged, List.find?_map, Function.comp_def]

theorem contains_ofTagged (tags : Tagged) (tag : Tag) :
    Entries.contains (ofTagged tags) (.tag tag) = Entries.contains tags tag := by
  rw [Entries.contains_eq_isSome, Entries.contains_eq_isSome, get?_ofTagged]

theorem put_ofTagged (tags : Tagged) (tag : Tag) (value : Data) :
    Entries.put (ofTagged tags) (.tag tag) value = ofTagged (Entries.put tags tag value) := by
  induction tags with
  | nil => rfl
  | cons entry rest ih =>
    by_cases h : entry.1 = tag
    · simp [ofTagged, Entries.put, h]
    · simpa [ofTagged, Entries.put, h] using ih

theorem filter_ofTagged (keep : Key × Data → Bool) (tags : Tagged) :
    (ofTagged tags).filter keep = ofTagged (tags.filter fun entry ↦ keep (.tag entry.1, entry.2)) :=
  List.filter_map

theorem any_ofTagged (p : Key × Data → Bool) (tags : Tagged) :
    (ofTagged tags).any p = tags.any fun entry ↦ p (.tag entry.1, entry.2) :=
  List.any_map

/-- A question that can be answered for every tag is answered for all of them. -/
theorem anyM_tags (ask : Key → Except Fault Bool) {answer : Tag → Bool}
    (h : ∀ tag, ask (.tag tag) = .ok (answer tag)) (tags : List Tag) :
    (tags.map Key.tag).anyM ask = .ok (tags.any answer) := by
  induction tags with
  | nil => rfl
  | cons tag rest ih =>
    rw [List.map_cons, List.anyM_cons, h, List.any_cons]
    cases answer tag
    · exact ih
    · rfl

/-- The candidate is asked first, and the other tag only if the candidate can conflict at all. -/
theorem conflicts_tag (candidate existing : Tag) :
    conflicts (.tag candidate) (.tag existing) = .ok (candidate.conflicts existing) := by
  by_cases h : candidate.isPivotal || decide (candidate.family = .clipPath)
  · exact if_pos h
  · have hnone : candidate.conflicts existing = false := by
      simp only [Bool.or_eq_true, not_or, Bool.not_eq_true] at h
      rw [Tag.conflicts, h.1, h.2]
      rfl
    rw [hnone]
    exact if_neg h

theorem accepts_ofTagged (candidates tags : Tagged) :
    accepts (Entries.keys (ofTagged candidates)) (Entries.keys (ofTagged tags)) =
      .ok (Motion.accepts candidates tags) := by
  rw [keys_ofTagged, keys_ofTagged]
  induction tags with
  | nil => rfl
  | cons entry rest ih =>
    have hconflict : ((Entries.keys candidates).map tag).anyM (conflicts · (.tag entry.1)) =
        .ok (candidates.any fun candidate ↦ candidate.1.conflicts entry.1) := by
      rw [anyM_tags (conflicts · (.tag entry.1)) fun candidate ↦ conflicts_tag candidate entry.1,
        Entries.keys, List.any_map]
      rfl
    have hspecial : Motion.accepts candidates (entry :: rest) =
        ((decide (entry.1.kind ≠ .special) &&
          !candidates.any fun candidate ↦ candidate.1.conflicts entry.1) &&
            Motion.accepts candidates rest) := by
      rw [List.not_any_eq_all_not]
      rfl
    rw [hspecial]
    change (if entry.1.kind = .special then _ else _) = _
    by_cases hkind : entry.1.kind = .special
    · rw [if_pos hkind, hkind]
      rfl
    · rw [if_neg hkind, hconflict, decide_eq_true hkind]
      cases candidates.any fun candidate ↦ candidate.1.conflicts entry.1
      · exact ih
      · rfl

end Key

/-! ### Merging values under tags -/

section Merging

theorem present?_ofTagged (tags : Tagged) (tag : Tag) :
    present? (Key.ofTagged tags) (.tag tag) = present? tags tag := by
  rw [present?, present?, Key.get?_ofTagged]

theorem mergeNumberAt_ofTagged (tags : Tagged) (tag : Tag) (value : Data) (op : Option Operator) :
    mergeNumberAt (Key.ofTagged tags) (.tag tag) value op =
      (mergeNumber tags tag value op).map Key.ofTagged := by
  have hstore (r : Option Number) :
      ((inRange r).map fun n ↦ Entries.put (Key.ofTagged tags) (.tag tag) (.num n.normalize)) =
        ((inRange r).map fun n ↦ Entries.put tags tag (.num n.normalize)).map Key.ofTagged := by
    cases r with
    | none => rfl
    | some n => exact congrArg Except.ok (Key.put_ofTagged tags tag _)
  have hoperator : mergeOperator (Key.tag tag) = mergeOperator tag := rfl
  unfold mergeNumberAt mergeNumber
  rw [present?_ofTagged, hoperator]
  simp only [Key.isStray, Bool.false_and, Bool.false_eq_true, if_false, hstore]
  split
  · rfl
  · rfl
  · split <;> rfl

theorem joinText_ofTagged (tags : Tagged) (tag : Tag) (value : Data) (op : Option Operator) :
    joinText (Key.ofTagged tags) (.tag tag) value op = Key.ofTagged (joinText tags tag value op) := by
  have hoperator : mergeOperator (Key.tag tag) = mergeOperator tag := rfl
  unfold joinText
  simp only [Key.get?_ofTagged, hoperator, Key.put_ofTagged]
  split_ifs <;> rfl

theorem mergeTextAt_ofTagged (tags : Tagged) (tag : Tag) (value : Data) (op : Option Operator) :
    mergeTextAt (Key.ofTagged tags) (.tag tag) value op =
      (mergeText tags tag value op).map Key.ofTagged := by
  unfold mergeTextAt mergeText
  rw [Key.get?_ofTagged, joinText_ofTagged]
  simp only [Key.isStray, Bool.false_and, Bool.false_eq_true, if_false]
  cases usable (isWritableOperand ((Entries.get? tags tag).getD .null) && isWritableOperand value) <;>
    rfl

theorem prune_ofTagged (tags : Tagged) : prune (Key.ofTagged tags) = Key.ofTagged (prune tags) := by
  have hneutral : (Key.ofTagged tags).filter (fun entry ↦ !isNeutral entry.1 entry.2) =
      Key.ofTagged (tags.filter fun entry ↦ !isNeutral entry.1 entry.2) := Key.filter_ofTagged _ _
  have hpivot : pivotUsed (Key.ofTagged tags) = pivotUsed tags := by
    rw [pivotUsed, pivotUsed, hneutral]
    exact Key.any_ofTagged _ _
  rw [prune, prune, hpivot]
  exact Key.filter_ofTagged _ _

theorem pruneAt_ofTagged (tags : Tagged) :
    pruneAt (Key.ofTagged tags) = .done (Key.ofTagged (prune tags)) := by
  have hstray : ((Key.ofTagged tags).any fun entry ↦ entry.1.isStray) = false := by
    rw [Key.any_ofTagged]
    simp [Key.isStray]
  rw [pruneAt, hstray, prune_ofTagged]
  rfl

theorem absorbAt_ofTagged (tags candidates : Tagged) :
    absorbAt (Key.ofTagged tags) (Key.ofTagged candidates) =
      ((absorb tags candidates).andThen fun absorbed ↦ .done (prune absorbed)).map Key.ofTagged := by
  induction candidates generalizing tags with
  | nil => exact pruneAt_ofTagged tags
  | cons entry rest ih =>
    obtain ⟨⟨property, kind⟩, value⟩ := entry
    have hnext {outcome : Except Fault (Entries Key Data)} (merged : Except Fault Tagged)
        (h : outcome = merged.map Key.ofTagged) :
        ((Progress.ofExcept (Key.ofTagged tags) outcome).andThen fun entries ↦
            absorbAt entries (Key.ofTagged rest)) =
          (((Progress.ofExcept tags merged).andThen fun tags ↦ absorb tags rest).andThen
            fun absorbed ↦ .done (prune absorbed)).map Key.ofTagged := by
      subst h
      cases merged with
      | ok merged => exact ih merged
      | error fault => rfl
    cases kind with
    | numeric => exact hnext _ (mergeNumberAt_ofTagged tags ⟨property, .numeric⟩ value none)
    | binding => exact hnext _ (mergeTextAt_ofTagged tags ⟨property, .binding⟩ value none)
    | special =>
      exact hnext (.ok (Entries.put tags ⟨property, .special⟩ value))
        (congrArg Except.ok (Key.put_ofTagged tags ⟨property, .special⟩ value))

theorem stripPrivateAt_plain (members : Members) :
    stripPrivateAt (members.map fun member ↦ (.plain member.1, member.2)) =
      .done ((stripPrivate members).map fun member ↦ (.plain member.1, member.2)) := by
  induction members with
  | nil => rfl
  | cons member rest ih =>
    obtain ⟨name, value⟩ := member
    rw [List.map_cons, stripPrivateAt, ih]
    cases hnull : value.isNull <;> cases hprivate : isPrivate name <;>
      simp [Progress.done, Progress.map, isPublic, stripPrivate, hnull, hprivate]

end Merging

namespace ShownTags

theorem ofMembers_eq {members : Members} {tags : Tagged}
    (h : Entries.get? members tagsKey = some (map (Key.ofTagged tags)).toData) :
    ofMembers members = .map (Key.ofTagged tags) := by
  rw [ofMembers, h]
  change ShownTags.map ((Key.entries Key.ofTagText (Key.members (Key.ofTagged tags))).toOption.getD []) =
    _
  rw [Key.entries_ofTagged]
  rfl

theorem toPush_ofTagged (tags : Tagged) :
    (map (Key.ofTagged tags)).toPush = .ok (inTagOrder tags) := by
  rw [toPush, Key.tagged_ofTagged]

theorem without_ofTagged (tags dropped : Tagged) :
    (map (Key.ofTagged tags)).without (Key.ofTagged dropped) =
      .map (Key.ofTagged (Motion.without tags dropped)) := by
  rw [without, Key.filter_ofTagged]
  simp only [Key.contains_ofTagged]
  rfl

theorem moved_ofTagged (child candidates : Tagged) :
    moved (Key.ofTagged child) (Key.ofTagged candidates) =
      (compensate child candidates).map Key.ofTagged := by
  have htags : ((Key.ofTagged candidates).all fun entry ↦ entry.1.tag?.isSome) = true := by
    simp [Key.ofTagged, Key.tag?]
  rw [moved, if_pos htags, Key.tagged_ofTagged, Key.tagged_ofTagged]

/-- Candidates are received under tags of properties as they are pushed into tagged properties. -/
theorem receive_ofTagged (tags candidates : Tagged) :
    (map (Key.ofTagged tags)).receive (Key.ofTagged candidates) =
      (pushInto tags candidates).map fun result ↦
        (map (Key.ofTagged result.1), Key.ofTagged result.2) := by
  have hpivotal := Key.anyM_tags Key.isPivotal (fun _ ↦ rfl) (Entries.keys candidates)
  rw [receive, Key.keys_ofTagged, hpivotal, pushInto]
  simp only [moved_ofTagged, Progress.map]
  cases hmoved : (compensate tags candidates).fault? with
  | some fault => rfl
  | none =>
    simp only [absorbAt_ofTagged]
    rw [Progress.andThen]
    cases habsorbed : (absorb tags (compensate tags candidates).value).fault? with
    | some fault => simp only [Progress.map, Progress.stopped, habsorbed]
    | none => rfl

end ShownTags

end Motion
