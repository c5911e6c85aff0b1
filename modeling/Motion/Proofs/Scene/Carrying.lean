import Motion.Proofs.Scene.Steady

/-!
What a scene mentions is still mentioned once it has been collapsed. Moving properties under tags
loses the pivots about which nothing turns or scales; a push and moving properties back lose nothing.
So what the items of a document mention is mentioned after collapsing, except in idle pivots
(`Data.mem_usedTokens_collapse`), as long as every binding keeps its tokens without its blanks.
-/

set_option autoImplicit false
set_option relaxedAutoImplicit false

namespace Motion

/-- The pivots among the members of a group about which nothing turns or scales. -/
def idlePivots (members : Members) : Members :=
  if pivotUsed (stripPrivate members) then []
  else members.filter fun member ↦ family? member.1 = some .pivot

namespace Data

/-- Whether a text keeps its tokens once it is under a tag, and can be joined to others: the
expression of a simple binding has more than blanks, and without its blanks it still has all tokens. -/
def keepsTokens (s : String) : Bool :=
  match bindingInterior? s.toList with
  | some expression =>
    !(Text.removeBlanks expression).isEmpty &&
      (tokensIn expression).all (tokensIn (Text.removeBlanks expression)).contains
  | none => true

variable {value : Data}

/-- The number that a value denotes is normalized and not NaN. -/
theorem isNaN_of_number? {n : Number} (h : value.number? = some n) :
    n.isNaN = false ∧ n.normalize = n := by
  have hnormal (m : Number) (hnan : m.isNaN = false) (hm : m.normalize = n) :
      n.isNaN = false ∧ n.normalize = n := by
    rw [← hm]
    exact ⟨Number.isNaN_normalize hnan, m.normalize_normalize⟩
  unfold number? at h
  split at h
  · split_ifs at h with hnan
    exact hnormal _ (by simpa using hnan) (Option.some_inj.mp h)
  · split at h
    · split_ifs at h with hnan
      exact hnormal _ (by simpa [Number.isNaN] using hnan) (Option.some_inj.mp h)
    · cases h
  · cases h

/-- Under a tag a value denotes the same number, or none. -/
theorem number?_tagged (value : Data) : value.tagged.number? = value.number? := by
  rcases value.tagged_cases with ⟨n, hnumber, -, htagged⟩ |
    ⟨s, expression, rfl, hinterior, -, htagged⟩ | ⟨-, -, -, htagged⟩
  · rw [htagged, hnumber]
    simp [number?, isNaN_of_number? hnumber]
  · rw [number?_eq_none htagged, number?_eq_none hinterior]
  · rw [htagged]

/-- Whether a text can be joined to others under a tag: the expression of a simple binding has more
than blanks. -/
def hasExpression (s : String) : Bool :=
  match bindingInterior? s.toList with
  | some expression => !(Text.removeBlanks expression).isEmpty
  | none => true

theorem hasExpression_of_keepsTokens {s : String} (h : keepsTokens s = true) :
    hasExpression s = true := by
  unfold keepsTokens at h
  unfold hasExpression
  cases hinterior : bindingInterior? s.toList with
  | none => rfl
  | some expression =>
    rw [hinterior] at h
    exact (Bool.and_eq_true_iff.mp h).1

/-- Under its tag a value that can be joined to others is steady. -/
theorem steadyUnder_tagged (h : ∀ s, value = .str s → hasExpression s = true)
    (property : Property) : SteadyUnder ⟨property, value.kind⟩ value.tagged := by
  rcases value.tagged_cases with ⟨n, hnumber, hkind, htagged⟩ |
    ⟨s, expression, rfl, hinterior, hkind, htagged⟩ | ⟨-, -, hkind, -⟩
  · rw [htagged, hkind]
    exact ⟨n, rfl, fun _ ↦ (isNaN_of_number? hnumber).1⟩
  · have hsome := h s rfl
    unfold hasExpression at hsome
    rw [show bindingInterior? s.toList = some expression from hinterior, Bool.not_eq_true',
      List.isEmpty_eq_false_iff] at hsome
    rw [hkind]
    exact ⟨_, htagged, removeBlanks_removeBlanks _, hsome⟩
  · rw [hkind]
    trivial

/-- Under its tag a value of a text that keeps its tokens mentions what it did. -/
theorem easingTokens_subset_tagged (h : ∀ s, value = .str s → keepsTokens s = true) :
    value.easingTokens ⊆ value.tagged.easingTokens := by
  rcases value.tagged_cases with ⟨n, hnumber, -, -⟩ |
    ⟨s, expression, rfl, hinterior, -, htagged⟩ | ⟨-, -, -, htagged⟩
  · rw [easingTokens_of_number? hnumber]
    exact List.nil_subset _
  · have hall := h s rfl
    unfold keepsTokens at hall
    rw [show bindingInterior? s.toList = some expression from hinterior, Bool.and_eq_true] at hall
    rw [easingTokens_of_interior? hinterior, easingTokens_of_interior? htagged]
    exact fun token htoken ↦ by simpa using List.all_eq_true.mp hall.2 token htoken
  · rw [htagged]
    exact List.Subset.refl _

end Data

section Tagging

variable {members : Members} {token : String}

/-- A value is neutral under a tag of its property if and only if it is so for the property. -/
theorem isNeutral_tagged {property : Property} (kind : Kind) (value : Data) :
    isNeutral (⟨property, kind⟩ : Tag) value.tagged = isNeutral property.name value := by
  unfold isNeutral
  rw [Data.number?_tagged, family?_name]
  rfl

/-- Members whose properties are there once each and can be joined to others under tags. -/
structure IsJoinable (members : Members) : Prop where
  nodup : (Entries.keys (propertiesOf members)).Nodup
  texts : ∀ property s, (Property.name property, .str s) ∈ members → Data.hasExpression s = true

theorem IsJoinable.filter (h : IsJoinable members) (keep : String × Data → Bool) :
    IsJoinable (members.filter keep) where
  nodup := by
    rw [propertiesOf, List.filter_comm]
    exact Entries.nodup_keys_filter h.nodup keep
  texts := fun property s hmember ↦ h.texts property s (List.mem_of_mem_filter hmember)

theorem IsJoinable.get?_of_mem (h : IsJoinable members) {property : Property} {value : Data}
    (hmember : (property.name, value) ∈ members) :
    Entries.get? members property.name = some value := by
  rw [← get?_propertiesOf]
  exact Entries.get?_of_mem h.nodup (mem_propertiesOf.mpr hmember)

/-- Under its tag the value of a member is steady. -/
theorem IsJoinable.tagged (h : IsJoinable members) {property : Property} {value : Data}
    (hmember : (property.name, value) ∈ members) :
    Entries.get? (tagMembers members) ⟨property, value.kind⟩ = some value.tagged ∧
      SteadyUnder ⟨property, value.kind⟩ value.tagged := by
  refine ⟨?_, Data.steadyUnder_tagged (fun s hs ↦ h.texts property s (hs ▸ hmember)) property⟩
  rw [get?_tagMembers, taggedValue?, h.get?_of_mem hmember, Option.bind_some, if_pos rfl]

/-- The pivot is used under tags where it was used among members. -/
theorem IsJoinable.pivotUsed (h : IsJoinable members) (hused : pivotUsed members = true) :
    Motion.pivotUsed (tagMembers members) = true := by
  obtain ⟨⟨key, value⟩, hmember, hturning, hneutral⟩ := pivotUsed_iff.mp hused
  have hfamily : (family? key).isSome = true := by
    rcases hturning with h | h <;> simp [h]
  obtain ⟨property, rfl⟩ := Property.exists_name_eq hfamily
  refine pivotUsed_of_get? (h.tagged hmember).1 ?_ ?_
  · rwa [IsTurning, family?_name] at hturning
  · rwa [isNeutral_tagged]

/-- The properties that show are steady under their tags. -/
theorem IsJoinable.isSteady (h : IsJoinable members) :
    (tagMembers (prune members)).IsSteady := by
  have hshown : IsJoinable (prune members) := h.filter _
  have hmember {tag : Tag} {value : Data}
      (hget : Entries.get? (tagMembers (prune members)) tag = some value) :
      ∃ member, (tag.property.name, member) ∈ prune members ∧ member.kind = tag.kind ∧
        member.tagged = value := by
    rw [get?_tagMembers] at hget
    obtain ⟨member, hmember, hkind, hvalue⟩ := taggedValue?_eq_some hget
    exact ⟨member, Entries.mem_of_get? hmember, hkind, hvalue⟩
  refine ⟨⟨nodup_tagMembers _, fun tag value hget ↦ ?_⟩,
    fun _ _ hget _ hkind ↦ get?_tagMembers_of_ne hget hkind, fun tag value hget ↦ ?_⟩
  · obtain ⟨member, hmem, hkind, rfl⟩ := hmember hget
    have hsteady := (hshown.tagged hmem).2
    rwa [hkind] at hsteady
  · obtain ⟨member, hmem, hkind, rfl⟩ := hmember hget
    have hshows := (List.mem_filter.mp hmem).2
    rw [shows, Bool.and_eq_true, Bool.not_eq_true', Bool.or_eq_true, Bool.not_eq_true',
      decide_eq_false_iff_not, family?_name] at hshows
    refine shows_iff.mpr ⟨?_, fun hpivot ↦ hshown.pivotUsed ?_⟩
    · rw [show tag = ⟨tag.property, tag.kind⟩ from rfl, isNeutral_tagged]
      exact hshows.1
    · rw [pivotUsed_prune]
      exact hshows.2.resolve_right fun hne ↦ hne hpivot

/-- Members whose properties are there once each and lose no tokens under tags. -/
structure KeepsTokens (members : Members) : Prop where
  nodup : (Entries.keys (propertiesOf members)).Nodup
  texts : ∀ property s, (Property.name property, .str s) ∈ members → Data.keepsTokens s = true

theorem KeepsTokens.isJoinable (h : KeepsTokens members) : IsJoinable members where
  nodup := h.nodup
  texts := fun property s hmember ↦
    Data.hasExpression_of_keepsTokens (h.texts property s hmember)

end Tagging

namespace Frame

variable {frame : Frame} {token : String}

/-- Whether a token occurs among the members of a group other than its items, or under its tags. -/
def Carries (token : String) (frame : Frame) : Prop :=
  token ∈ frame.tokens ∨ frame.tagged.Mentions token

/-- A token that a property mentions is mentioned under a tag, if it is not in an idle pivot. -/
theorem mentions_of_mem_tokens {members : Members} (h : KeepsTokens members) {property : Property}
    {value : Data} (hmember : (property.name, value) ∈ members)
    (htoken : token ∈ value.easingTokens)
    (hidle : token ∉ Data.tokensInMembers (idlePivots members)) :
    (tagMembers (prune (members.filter isPublic))).Mentions token := by
  have hnull : value.isNull = false := by
    cases value <;> simp_all [Data.isNull, Data.easingTokens]
  have hpublic : (property.name, value) ∈ members.filter isPublic := by
    refine List.mem_filter.mpr ⟨hmember, ?_⟩
    simp [isPublic, isPrivate_name, hnull]
  have hpivot (hfamily : family? property.name = some .pivot) :
      pivotUsed (members.filter isPublic) = true := by
    by_contra hunused
    refine hidle (Data.mem_tokensInMembers.mpr ⟨(property.name, value), ?_,
      isPrivate_name property, htoken⟩)
    rw [idlePivots, stripPrivate, if_neg hunused]
    exact List.mem_filter.mpr ⟨hmember, decide_eq_true hfamily⟩
  have hshown : (property.name, value) ∈ prune (members.filter isPublic) :=
    List.mem_filter.mpr ⟨hpublic, shows_of_mem_easingTokens htoken hpivot⟩
  have hget := (((h.isJoinable.filter _).filter _).tagged hshown).1
  have hsubset := Data.easingTokens_subset_tagged fun s hs ↦ h.texts property s (hs ▸ hmember)
  exact ⟨_, Tagged.tokensAt_of_some hget ▸ hsubset htoken⟩

/-- Tagging keeps what a group mentions but for its idle pivots. -/
theorem carries_tag (h : KeepsTokens frame.members) (items : List Item)
    (hidle : token ∉ Data.tokensInMembers (idlePivots frame.members))
    (htoken : token ∈ frame.tokens) : (frame.tag items).Carries token := by
  obtain ⟨⟨key, value⟩, hmember, hpublic, hvalue⟩ := mem_tokens.mp htoken
  cases hproperty : Property.ofName? key with
  | none =>
    refine Or.inl (mem_tokens.mpr ⟨(key, value), ?_, hpublic, hvalue⟩)
    rw [members_tag, List.mem_filter]
    refine ⟨hmember, ?_⟩
    cases value <;> simp_all [isPlain, isPublic, Data.isNull, Data.easingTokens]
  | some property =>
    have hname := Property.name_of_ofName? hproperty
    refine Or.inr ?_
    rw [tagged_tag]
    exact mentions_of_mem_tokens h (hname ▸ hmember) hvalue hidle

end Frame

section Untagging

variable {tags : Tagged} {token : String}

/-- What is mentioned under the tags of a property is mentioned once they are merged. -/
theorem exists_of_untagValue? (h : tags.IsSteady) {tag : Tag} {value? : Option Data}
    (hvalue : untagValue? tags tag.property = .ok value?) (htoken : token ∈ tags.tokensAt tag) :
    ∃ value, value? = some value ∧ token ∈ value.easingTokens := by
  obtain ⟨property, kind⟩ := tag
  obtain ⟨current, hget, hmem⟩ := Tagged.exists_of_mem_tokensAt htoken
  unfold untagValue? at hvalue
  cases kind with
  | numeric =>
    rw [Tagged.tokensAt_of_numeric h.toHolds rfl] at htoken
    exact absurd htoken List.not_mem_nil
  | binding =>
    simp only [hget] at hvalue
    cases hnumber : Entries.get? tags ⟨property, .numeric⟩ with
    | none =>
      simp only [hnumber] at hvalue
      exact ⟨current, (Except.ok.inj hvalue).symm, hmem⟩
    | some number =>
      simp only [hnumber] at hvalue
      have hdense := (h.holds _ number hnumber).isDense (by simp)
      cases hmerged : mergeText tags ⟨property, .binding⟩ number none with
      | error fault =>
        rw [hmerged] at hvalue
        cases hvalue
      | ok merged =>
        rw [hmerged] at hvalue
        rw [← Except.ok.inj hvalue, mergeText_eq hmerged]
        exact Tagged.exists_of_mem_tokensAt
          ((joinText_isSteadyMerge h.toHolds rfl hdense).tokens htoken)
  | special =>
    have halone := h.alone property current hget
    simp only [halone .numeric (by decide), halone .binding (by decide)] at hvalue
    exact ⟨current, (Except.ok.inj hvalue).symm.trans hget, hmem⟩

namespace Frame

variable {frame : Frame}

theorem untagProperty_eq_done {property : Property} {value? : Option Data}
    (h : untagValue? tags property = .ok value?) (frame : Frame) :
    ∃ after, untagProperty tags frame property = .done after ∧
      (value?.isSome → Entries.get? after.members property.name = value?) ∧
        ∀ other, other ≠ property →
          Entries.get? after.members (Property.name other) =
            Entries.get? frame.members other.name := by
  rw [untagProperty, h]
  cases value? with
  | none => exact ⟨frame, rfl, fun hsome ↦ (by cases hsome), fun _ _ ↦ rfl⟩
  | some value =>
    refine ⟨frame.put property.name value, rfl, fun _ ↦ ?_, fun other hne ↦ ?_⟩
    · rw [get?_members_put, if_pos rfl]
    · rw [get?_members_put, if_neg fun hname ↦ hne (Property.name_injective hname).symm]

/-- Each property that is taken from under its tags without a fault is among the members then. -/
theorem get?_untagEach : ∀ (order : List Property) (frame : Frame), order.Nodup →
    (untagEach tags (.done frame) order).fault? = none →
      (∀ property ∈ order, ∃ value?, untagValue? tags property = .ok value? ∧
        (value?.isSome → Entries.get? (untagEach tags (.done frame) order).value.members
          property.name = value?)) ∧
      ∀ property ∉ order, Entries.get? (untagEach tags (.done frame) order).value.members
        property.name = Entries.get? frame.members property.name
  | [], _, _, _ => ⟨fun _ hmem ↦ absurd hmem List.not_mem_nil, fun _ _ ↦ rfl⟩
  | first :: rest, frame, horder, hfault => by
    obtain ⟨hfirst, hrest⟩ := List.nodup_cons.mp horder
    rw [untagEach_cons] at hfault ⊢
    cases hvalue : untagValue? tags first with
    | error fault =>
      have hstopped : untagProperty tags frame first = .stopped frame fault := by
        rw [untagProperty, hvalue]
        rfl
      rw [hstopped, untagEach_stopped] at hfault
      cases hfault
    | ok value? =>
      obtain ⟨after, hafter, hhere, helse⟩ := untagProperty_eq_done hvalue frame
      rw [hafter] at hfault ⊢
      obtain ⟨hbelow, hother⟩ := get?_untagEach rest after hrest hfault
      refine ⟨fun property hmem ↦ ?_, fun property hmem ↦ ?_⟩
      · rcases List.mem_cons.mp hmem with rfl | hmem
        · exact ⟨value?, hvalue, fun hsome ↦ (hother _ hfirst).trans (hhere hsome)⟩
        · exact hbelow property hmem
      · have hne : property ≠ first := fun heq ↦ hmem (heq ▸ List.mem_cons_self)
        rw [hother property fun hrest ↦ hmem (List.mem_cons_of_mem _ hrest), helse property hne]

/-- Untagging keeps what a group mentions. -/
theorem mem_tokens_untag (h : frame.IsEmptied) (htags : frame.tagged.IsSteady)
    (hfault : frame.untag.fault? = none) (htoken : frame.Carries token) :
    token ∈ frame.untag.value.tokens := by
  rcases htoken with htoken | ⟨tag, htoken⟩
  · obtain ⟨member, hmember, hpublic, hvalue⟩ := mem_tokens.mp htoken
    have hplain : frame.untag.value.members.filter isPlain = frame.members.filter isPlain := by
      refine untag_induction (p := fun other ↦
        other.members.filter isPlain = frame.members.filter isPlain) frame rfl ?_
      intro other property value _ hother
      rw [filter_members_put (fun _ h ↦ h), hother]
    have hkept : member ∈ frame.members.filter isPlain :=
      List.mem_filter.mpr ⟨hmember, h.plain member hmember⟩
    rw [← hplain] at hkept
    exact mem_tokens.mpr ⟨member, List.mem_of_mem_filter hkept, hpublic, hvalue⟩
  · have horder : Property.all.Nodup := by decide
    rw [untag_eq] at hfault ⊢
    obtain ⟨value?, hvalue, hget⟩ := (get?_untagEach Property.all { frame with tags := none }
      horder hfault).1 tag.property tag.property.mem_all
    obtain ⟨value, rfl, hmem⟩ := exists_of_untagValue? htags hvalue htoken
    exact mem_tokens.mpr ⟨_, Entries.mem_of_get? (hget rfl), isPrivate_name _, hmem⟩

end Frame

end Untagging

section Pushing

variable {tags candidates given : Tagged} {token : String}

theorem Tagged.isSteady_nil : IsSteady [] :=
  ⟨holds_nil, fun _ _ h ↦ (by cases h), fun _ _ h ↦ (by cases h)⟩

theorem Tagged.IsSteady.inTagOrder (h : tags.IsSteady) : (Motion.inTagOrder tags).IsSteady where
  toHolds := h.toHolds.inTagOrder
  alone := by
    intro property value hget kind hkind
    rw [get?_inTagOrder] at hget ⊢
    exact h.alone property value hget kind hkind
  shown := by
    intro tag value hget
    rw [get?_inTagOrder] at hget
    obtain ⟨hneutral, hpivot⟩ := shows_iff.mp (h.shown tag value hget)
    refine shows_iff.mpr ⟨hneutral, fun hfamily ↦ ?_⟩
    obtain ⟨⟨key, current⟩, hmem, hturning, hshows⟩ := pivotUsed_iff.mp (hpivot hfamily)
    refine pivotUsed_of_get? ?_ hturning hshows
    rw [get?_inTagOrder]
    exact Entries.get?_of_mem h.nodup hmem

namespace Item

/-- Whether candidates that are pushed, if they are, may be pushed into items and are steady. -/
structure MayTake (push : Bool) (candidates : Tagged) (items : List Item) : Prop where
  may : push = true → mayPush items candidates = true
  steady : push = true → candidates.IsSteady

theorem mayTake_false (candidates : Tagged) (items : List Item) : MayTake false candidates items :=
  ⟨fun h ↦ (by cases h), fun h ↦ (by cases h)⟩

/-- What a group makes of candidates that are pushed into it, if they are, loses nothing that either
side mentions. -/
theorem isSteadyPush_received {push : Bool} {frame : Frame} {items : List Item}
    (h : MayTake push candidates [.group frame items]) (hframe : frame.tagged.IsSteady)
    (hreceived : (if push then pushInto frame.tagged candidates
      else .done (frame.tagged, candidates)) = Progress.done (tags, given)) :
    IsSteadyPush frame.tagged (if push then candidates else []) tags given := by
  cases push with
  | false =>
    cases hreceived
    refine ⟨hframe, fun token hmentions ↦ ?_, fun _ hcontains ↦ (by cases hcontains)⟩
    refine hmentions.resolve_right ?_
    rintro ⟨tag, htoken⟩
    rw [if_neg Bool.false_ne_true, Tagged.tokensAt_of_none rfl] at htoken
    exact absurd htoken List.not_mem_nil
  | true =>
    obtain ⟨_, _, hitems, hkinds, haccepts⟩ := mayPush_eq_true (h.may rfl)
    cases hitems
    rw [if_pos rfl] at hreceived ⊢
    have hsteady := pushInto_isSteadyPush hframe (h.steady rfl) hkinds haccepts
      (by rw [hreceived]; rfl)
    rwa [hreceived] at hsteady

/-- What pushing candidates into items, or none, and transforms downwards makes of the items if it
loses nothing that is mentioned. -/
structure IsCarried (push : Bool) (candidates : Tagged) (items after : List Item)
    (given : Tagged) : Prop where
  every : EveryIn (fun frame items ↦ frame.tagged.IsSteady ∧ frame.HasList items) after
  mentions : ∀ token, MentionsIn (Frame.Carries token) token items ∨
    (push = true ∧ candidates.Mentions token) → MentionsIn (Frame.Carries token) token after
  contains : push = true → ∀ tag, Entries.contains candidates tag = true →
    Entries.contains given tag = true

theorem isCarried_nil (candidates given : Tagged) : IsCarried false candidates [] [] given := by
  refine ⟨trivial, fun token hmentions ↦ ?_, fun hpush ↦ (by cases hpush)⟩
  exact hmentions.resolve_right fun hpushed ↦ by cases hpushed.1

/-- A group after a push, once what may be pushed further has been. -/
theorem isCarried_group {push may : Bool} {below : Tagged} {frame : Frame} {items after : List Item}
    (hafter : frame.HasList after)
    (hreceived : IsSteadyPush frame.tagged (if push then candidates else []) tags given)
    (hbelow : IsCarried may (inTagOrder tags) items after below) :
    IsCarried push candidates [.group frame items]
      [.group { frame with tags := some (if may then without tags below else tags) } after]
      given := by
  have hkept : may = true → without tags below = [] :=
    fun hmay ↦ without_inTagOrder_eq_nil (hbelow.contains hmay)
  have hunder (token : String) (hmentions : tags.Mentions token) :
      Mentions (Frame.Carries token) token
        (.group { frame with tags := some (if may then without tags below else tags) } after) := by
    cases may with
    | false => exact Or.inl (Or.inr hmentions)
    | true => exact Or.inr (hbelow.mentions token
        (Or.inr ⟨rfl, Tagged.mentions_inTagOrder hmentions⟩))
  refine ⟨⟨⟨⟨?_, hafter⟩, hbelow.every⟩, trivial⟩, fun token hmentions ↦ Or.inl ?_, fun hpush ↦ ?_⟩
  · cases may with
    | false => exact hreceived.steady
    | true => exact hkept rfl ▸ Tagged.isSteady_nil
  · rcases hmentions with (((htoken | htags) | hitems) | hnone) | ⟨rfl, hcandidates⟩
    · exact Or.inl (Or.inl htoken)
    · exact hunder token (hreceived.mentions token (Or.inl htags))
    · exact Or.inr (hbelow.mentions token (Or.inl hitems))
    · exact hnone.elim
    · exact hunder token (hreceived.mentions token (Or.inr hcandidates))
  · have hcontains := hreceived.contains
    rwa [if_pos hpush] at hcontains

/-- Items are pushed into one after the other. Only a single item is ever pushed into. -/
theorem IsCarried.cons {push : Bool} {last : Tagged} {item after : Item} {rest others : List Item}
    (hfirst : IsCarried push candidates [item] [after] given)
    (hrest : IsCarried false given rest others last)
    (hgiven : push = true → given = last) :
    IsCarried push candidates (item :: rest) (after :: others) last := by
  refine ⟨⟨hfirst.every.1, hrest.every⟩, fun token hmentions ↦ ?_, fun hpush ↦ ?_⟩
  · rcases hmentions with (hitem | hothers) | hcandidates
    · exact (hfirst.mentions token (Or.inl (Or.inl hitem))).imp_right fun h ↦ h.elim
    · exact Or.inr (hrest.mentions token (Or.inl hothers))
    · exact (hfirst.mentions token (Or.inr hcandidates)).imp_right fun h ↦ h.elim
  · exact hgiven hpush ▸ hfirst.contains hpush

variable {limit : ℤ}

mutual

theorem pushBelow_isCarried : ∀ (item : Item) (depth : ℤ) (push : Bool) (candidates : Tagged),
    Every (fun frame items ↦ frame.tagged.IsSteady ∧ frame.HasList items) item →
    MayTake push candidates [item] → (pushBelow limit depth push candidates item).fault? = none →
      IsCarried push candidates [item] [(pushBelow limit depth push candidates item).value.1]
        (pushBelow limit depth push candidates item).value.2
  | .leaf _, _, push, _, h, hmay, _ => by
    cases push with
    | false =>
      refine ⟨⟨h, trivial⟩, fun token hmentions ↦ ?_, fun hpush ↦ (by cases hpush)⟩
      exact hmentions.resolve_right fun hpushed ↦ by cases hpushed.1
    | true =>
      obtain ⟨_, _, hitems, -⟩ := mayPush_eq_true (hmay.may rfl)
      cases hitems
  | .group ⟨before, after, holding, tags⟩ items, depth, push, candidates, h, hmay, hfault => by
    obtain ⟨⟨hframe, hlist⟩, hitems⟩ := h
    rw [pushBelow] at hfault ⊢
    generalize hpush : (if push then pushInto (Frame.tagged ⟨before, after, holding, tags⟩) candidates
      else .done (Frame.tagged ⟨before, after, holding, tags⟩, candidates) :
        Progress (Tagged × Tagged)) = received at hfault ⊢
    cases hreceived : received.fault? with
    | some fault => simp [hreceived, Progress.stopped] at hfault
    | none =>
      have hsteady := isSteadyPush_received hmay hframe (hpush.trans (Progress.eq_done hreceived))
      simp only [hreceived] at hfault ⊢
      rcases hlist with rfl | ⟨rfl, rfl⟩
      · obtain ⟨hcheck, hbelow⟩ := Progress.fault?_guarded_eq_none.mp hfault
        rw [Progress.fault?_map] at hbelow
        have hcarried := pushEach_isCarried items (depth + 1)
          (mayPush items (inTagOrder received.value.1)) (inTagOrder received.value.1) hitems
          ⟨id, fun _ ↦ hsteady.steady.inTagOrder⟩ hbelow
        simp only [hcheck, Progress.guarded_none, Progress.value_map, hbelow, Option.isNone_none,
          Bool.and_true]
        exact isCarried_group (Or.inl rfl) hsteady hcarried
      · exact isCarried_group (Or.inr ⟨rfl, rfl⟩) hsteady (isCarried_nil _ received.value.1)

/-- A push downwards that meets no fault loses nothing that is mentioned. -/
theorem pushEach_isCarried : ∀ (items : List Item) (depth : ℤ) (push : Bool)
    (candidates : Tagged),
    EveryIn (fun frame items ↦ frame.tagged.IsSteady ∧ frame.HasList items) items →
    MayTake push candidates items → (pushEach limit depth push candidates items).fault? = none →
      IsCarried push candidates items (pushEach limit depth push candidates items).value.1
        (pushEach limit depth push candidates items).value.2
  | [], _, push, candidates, _, hmay, _ => by
    cases push with
    | false => exact isCarried_nil candidates candidates
    | true =>
      obtain ⟨_, _, hitems, -⟩ := mayPush_eq_true (hmay.may rfl)
      cases hitems
  | item :: rest, depth, push, candidates, h, hmay, hfault => by
    rw [pushEach] at hfault ⊢
    cases hfirst : (pushBelow limit depth push candidates item).fault? with
    | some fault => simp [hfirst, Progress.stopped] at hfault
    | none =>
      simp only [hfirst, Progress.fault?_map] at hfault ⊢
      cases push with
      | false =>
        have hitem := pushBelow_isCarried item depth false candidates h.1 (mayTake_false _ _) hfirst
        have hothers := pushEach_isCarried rest depth false _ h.2 (mayTake_false _ _) hfault
        exact hitem.cons hothers fun hpush ↦ (by cases hpush)
      | true =>
        obtain ⟨_, _, hitems, -⟩ := mayPush_eq_true (hmay.may rfl)
        obtain ⟨rfl, rfl⟩ := List.cons.inj hitems
        exact (pushBelow_isCarried _ depth true candidates h.1 hmay hfirst).cons
          (isCarried_nil _ _) fun _ ↦ rfl

end

mutual

/-- What a change keeps of one frame a walk keeps of all. -/
theorem changeBelow_mentions {change : Frame → List Item → Progress Frame} {p q q' : Frame → Prop}
    {token : String} (hchange : ∀ frame items, p frame → frame.HasList items →
      (change frame items).fault? = none → (change frame items).value.holding = frame.holding ∧
        (q frame → q' (change frame items).value)) : ∀ (item : Item) (depth : ℤ),
    Every (fun frame items ↦ p frame ∧ frame.HasList items) item →
    (changeBelow change limit depth item).fault? = none → Mentions q token item →
      Mentions q' token (changeBelow change limit depth item).value
  | .leaf _, _, _, _, hmentions => hmentions
  | .group frame items, depth, h, hfault, hmentions => by
    obtain ⟨⟨hframe, hlist⟩, hitems⟩ := h
    rw [changeBelow] at hfault ⊢
    obtain ⟨hchanged, hbelow⟩ := Progress.fault?_guarded_eq_none.mp hfault
    obtain ⟨hholding, hkept⟩ := hchange frame items hframe hlist hchanged
    rw [hchanged, Progress.guarded_none]
    rcases hlist with hlisted | ⟨habsent, rfl⟩
    · rw [hlisted] at hholding
      rw [hholding] at hbelow ⊢
      obtain ⟨hcheck, hbelow⟩ := Progress.fault?_guarded_eq_none.mp hbelow
      rw [hcheck]
      exact hmentions.imp hkept (changeEach_mentions hchange items (depth + 1) hitems hbelow)
    · rw [habsent] at hholding
      rw [hholding]
      exact hmentions.imp_left hkept

theorem changeEach_mentions {change : Frame → List Item → Progress Frame} {p q q' : Frame → Prop}
    {token : String} (hchange : ∀ frame items, p frame → frame.HasList items →
      (change frame items).fault? = none → (change frame items).value.holding = frame.holding ∧
        (q frame → q' (change frame items).value)) : ∀ (items : List Item) (depth : ℤ),
    EveryIn (fun frame items ↦ p frame ∧ frame.HasList items) items →
    (changeEach change limit depth items).fault? = none → MentionsIn q token items →
      MentionsIn q' token (changeEach change limit depth items).value
  | item :: rest, depth, h, hfault, hmentions => by
    obtain ⟨hfirst, hrest⟩ := Progress.fault?_cons_eq_none.mp hfault
    rw [changeEach, Progress.value_cons hfirst]
    exact hmentions.imp (changeBelow_mentions hchange item depth h.1 hfirst)
      (changeEach_mentions hchange rest depth h.2 hrest)

end

end Item

end Pushing

section Merging

variable {limit : ℤ} {items merged : List Item} {token : String}

/-- A group of a document whose properties keep their tokens under tags, and that does not mention a
token in an idle pivot. -/
structure Frame.Hands (token : String) (frame : Frame) : Prop where
  group : frame.IsGroup
  keeps : KeepsTokens frame.members
  idle : token ∉ Data.tokensInMembers (idlePivots frame.members)

/-- Merging transforms keeps what is mentioned but for idle pivots. -/
theorem Item.mentionsIn_mergeTransforms
    (h : EveryIn (fun frame items ↦ frame.Hands token ∧ frame.HasList items) items)
    (hmerged : mergeTransforms limit items = .ok merged)
    (hmentions : MentionsIn (fun frame ↦ token ∈ frame.tokens) token items) :
    MentionsIn (fun frame ↦ token ∈ frame.tokens) token merged := by
  obtain ⟨htag, hpush, huntag, rfl⟩ := mergeTransforms_eq_ok hmerged
  -- tagging
  obtain ⟨hcheck, hbelow⟩ := Progress.fault?_guarded_eq_none.mp htag
  have htagged : EveryIn (fun frame items ↦ (frame.IsEmptied ∧ frame.tagged.IsSteady) ∧
      frame.HasList items) (tagAll limit items).value := by
    rw [tagAll, changeAll, hcheck]
    refine changeEach_every (fun frame items hframe hlist _ ↦ ?_) h hbelow
    refine ⟨Frame.holding_tag hlist, Frame.isEmptied_tag hframe.group hlist, ?_⟩
    rw [Progress.value_done, Frame.tagged_tag]
    exact (hframe.keeps.isJoinable.filter _).isSteady
  have hcarried : MentionsIn (Frame.Carries token) token (tagAll limit items).value := by
    rw [tagAll, changeAll, hcheck]
    refine changeEach_mentions (fun frame items hframe hlist _ ↦ ?_) items 0 h hbelow hmentions
    exact ⟨Frame.holding_tag hlist, Frame.carries_tag hframe.keeps items hframe.idle⟩
  -- pushing
  obtain ⟨hcheck, hbelow⟩ := Progress.fault?_guarded_eq_none.mp hpush
  have hplain := (pushEach_leaves (fun _ tags hframe ↦ Frame.IsEmptied.with_tags hframe tags)
    (fun _ _ ↦ rfl : ∀ (frame : Frame) tags, Frame.own { frame with tags } = frame.own) limit _ 0 _ _
    (htagged.mono fun _ _ hframe ↦ ⟨hframe.1.1, hframe.2⟩) hbelow).1
  have hpushed := pushEach_isCarried _ 0 _ [] (htagged.mono fun _ _ hframe ↦ ⟨hframe.1.2, hframe.2⟩)
    ⟨id, fun _ ↦ Tagged.isSteady_nil⟩ hbelow
  -- untagging
  obtain ⟨hcheck', hbelow⟩ := Progress.fault?_guarded_eq_none.mp huntag
  rw [untagAll, changeAll, hcheck']
  rw [pushAll, hcheck] at hbelow ⊢
  refine changeEach_mentions (p := fun frame ↦ frame.IsEmptied ∧ frame.tagged.IsSteady)
    (fun frame items hframe _ hnone ↦ ?_) _ 0 ?_ hbelow (hpushed.mentions token (Or.inl hcarried))
  · exact ⟨(Frame.kept_untag hframe.1.toIsShown).1, Frame.mem_tokens_untag hframe.1 hframe.2 hnone⟩
  · exact (hplain.and hpushed.every).mono fun _ _ hframe ↦
      ⟨⟨hframe.1.1, hframe.2.1⟩, hframe.1.2⟩

end Merging

section Documents

variable {members others : Members} {token : String}

theorem propertiesOf_frameOf (members : Members) :
    propertiesOf (frameOf members).members = propertiesOf members := by
  have hreject (value : Data) : (!isPlain (itemsKey, value)) = false := by
    simp [isPlain, show Property.ofName? itemsKey = none by decide]
  induction members with
  | nil => rfl
  | cons member rest ih =>
    obtain ⟨key, value⟩ := member
    by_cases h : key = itemsKey
    · subst h
      simp [propertiesOf, Frame.members, frameOf, hreject]
    · have hmembers : (frameOf ((key, value) :: rest)).members =
          (key, value) :: (frameOf rest).members := by
        simp [Frame.members, frameOf, h]
      rw [hmembers, propertiesOf, propertiesOf, List.filter_cons, List.filter_cons,
        ← propertiesOf, ← propertiesOf, ih]

/-- Which pivots are idle depends on the properties alone. -/
theorem idlePivots_propertiesOf (members : Members) :
    idlePivots (propertiesOf members) = idlePivots members := by
  have hproperty (member : String × Data) (h : (family? member.1).isSome = true) :
      isPlain member = false := by
    obtain ⟨key, value⟩ := member
    obtain ⟨property, rfl⟩ := Property.exists_name_eq h
    exact isPlain_name property value
  have hused : pivotUsed (stripPrivate (propertiesOf members)) =
      pivotUsed (stripPrivate members) := by
    rw [Bool.eq_iff_iff, pivotUsed_iff, pivotUsed_iff]
    refine exists_congr fun member ↦ and_congr_left fun ⟨hturning, _⟩ ↦ ?_
    have hplain := hproperty member (by rcases hturning with h | h <;> simp [h])
    simp [stripPrivate, propertiesOf, List.mem_filter, hplain]
  have hpivots : (propertiesOf members).filter (fun member ↦ family? member.1 = some .pivot) =
      members.filter fun member ↦ family? member.1 = some .pivot := by
    rw [propertiesOf, List.filter_filter]
    refine List.filter_congr fun member _ ↦ ?_
    by_cases h : family? member.1 = some .pivot
    · simp [h, hproperty member (by simp [h])]
    · simp [h]
  rw [idlePivots, hused, hpivots, idlePivots]

theorem KeepsTokens.congr (h : KeepsTokens members)
    (heq : propertiesOf others = propertiesOf members) : KeepsTokens others where
  nodup := heq ▸ h.nodup
  texts := fun property s hmember ↦ h.texts property s ((mem_congr_propertiesOf heq).mp hmember)

namespace Data

variable {merge : Bool} {limit : ℤ} {result : Data}

/-- A collapsed document still uses the easings it used before but in idle pivots, as long as no
binding loses tokens with its blanks. -/
theorem mem_usedTokens_collapse
    (hgroups : merge = true → ∀ group ∈ (Data.obj members).groups,
      KeepsTokens group ∧ token ∉ tokensInMembers (idlePivots group))
    (h : (Data.obj members).collapse merge limit = .ok result)
    (htoken : token ∈ (Data.obj members).usedTokens) : token ∈ result.usedTokens := by
  rcases usedTokens_stages h with rfl | ⟨listed, merged, rfl, hlist, hmerged, hbefore, hafter⟩
  · exact htoken
  · rw [hbefore] at htoken
    rw [hafter]
    cases merge with
    | false =>
      cases hmerged
      exact htoken
    | true =>
      have hread : Item.EveryIn (fun frame items ↦ frame.Hands token ∧
          (frame.holding = .absent → items = [])) (Item.itemsOf members) := by
        refine Item.everyIn_frames fun other hother hgroup ↦ ?_
        obtain ⟨hkeeps, hidle⟩ := hgroups rfl other hother
        refine ⟨Item.isGroup_frameOf hgroup, hkeeps.congr (propertiesOf_frameOf other), ?_⟩
        rwa [← idlePivots_propertiesOf, propertiesOf_frameOf, idlePivots_propertiesOf]
      have hlisted := Item.listAll_every
        (fun _ hframe ↦ Frame.Hands.mk hframe.group.listed hframe.keeps hframe.idle) hread hlist
      exact Item.mentionsIn_mergeTransforms hlisted hmerged htoken

end Data

end Documents

end Motion
