import Motion.Proofs.Scene.Faults
import Motion.Proofs.Scene.Mentions

/-!
Which easings a scene mentions once it has been collapsed. Joining a value to a binding brings in no
token that neither of the two has, so merging transforms mentions no easing that was not mentioned
before, unless the blanks within a binding keep the parts of a token apart
(`Data.usedTokens_collapse`).
-/

set_option autoImplicit false
set_option relaxedAutoImplicit false

namespace Motion

theorem Number.tokensIn_textChars (n : Number) : tokensIn n.textChars = [] := by
  refine tokensIn_eq_nil fun hmem ↦ ?_
  exact absurd (n.isNumberCharacter_of_mem_textChars _ hmem) (by decide)

namespace Data

/-- A number, or a simple binding without blanks: what is joined as it stands. -/
def IsDense (value : Data) : Prop :=
  (∃ n, value = .num n) ∨ ∃ s, value.interior? = some s ∧ Text.removeBlanks s = s

variable {value current : Data}

theorem IsDense.isArithmetic (h : value.IsDense) : value.IsArithmetic := by
  rcases h with ⟨n, rfl⟩ | ⟨s, hs, -⟩
  · exact Or.inl ⟨n, rfl⟩
  · exact Or.inr ⟨s, hs⟩

/-- As an operand a value mentions what it does anyway. -/
theorem IsDense.tokensIn_operandText (h : value.IsDense) (op : Option Operator) :
    tokensIn (operandText value op) = value.easingTokens := by
  have hbare (s : List Char) (hs : bareExpression? value = some s) :
      tokensIn (Text.removeBlanks s) = value.easingTokens := by
    rcases h with ⟨n, rfl⟩ | ⟨interior, hinterior, hdense⟩
    · have htext : Text.removeBlanks n.textChars = n.textChars := removeBlanks_of_isDense
        fun c hc ↦ isDense_of_isNumberCharacter (n.isNumberCharacter_of_mem_textChars c hc)
      rw [eq_textChars hs, htext, n.tokensIn_textChars, easingTokens]
      all_goals simp
    · rw [bareExpression?_of_interior? hinterior, Option.some_inj] at hs
      rw [← hs, hdense, easingTokens_of_interior? hinterior]
  unfold operandText
  cases hs : bareExpression? value with
  | none =>
    rcases h with ⟨n, rfl⟩ | ⟨interior, hinterior, -⟩
    · simp [tokensIn, easingTokens]
    · rw [bareExpression?_of_interior? hinterior] at hs
      cases hs
  | some s =>
    dsimp only
    split_ifs
    · rw [tokensIn_parenthesis, hbare s hs]
    · exact hbare s hs

/-- A binding of a text made of the characters of bindings without blanks mentions what the text
does. -/
theorem easingTokens_binding {text : List Char} (h : ∀ c ∈ text, isDense c = true) :
    (Data.str (Scalar.binding (String.ofList text))).interior? = some text ∧
      Text.removeBlanks text = text ∧
        (Data.str (Scalar.binding (String.ofList text))).easingTokens = tokensIn text := by
  have hall : (String.ofList text).toList.all isBindingCharacter = true := by
    rw [String.toList_ofList, List.all_eq_true]
    intro c hc
    have hdense := h c hc
    rw [isDense, Bool.and_eq_true] at hdense
    exact hdense.1
  have hinterior := interior?_binding hall
  rw [String.toList_ofList] at hinterior
  exact ⟨hinterior, removeBlanks_of_isDense h, easingTokens_of_interior? hinterior⟩

end Data

section Joining

variable {operator : Operator} {current value : Data} {text : List Char}

theorem isSeam_symbol (operator : Operator) : ∃ c, operator.symbol.toList = [c] ∧ isSeam c = true := by
  cases operator <;> exact ⟨_, rfl, by decide⟩

/-- What is joined mentions what its operands do. -/
theorem tokensIn_joined (hcurrent : current.IsDense) (hvalue : value.IsDense) (operator : Operator) :
    tokensIn (operandText current (some operator) ++ operator.symbol.toList ++
      operandText value (some operator)) = current.easingTokens ++ value.easingTokens := by
  obtain ⟨c, hsymbol, hseam⟩ := isSeam_symbol operator
  rw [hsymbol, ← List.append_cons, tokensIn_append_cons hseam, hcurrent.tokensIn_operandText,
    hvalue.tokensIn_operandText]

theorem tokensIn_opposite (hvalue : value.IsDense) (op : Option Operator) :
    tokensIn ('-' :: operandText value op) = value.easingTokens := by
  rw [tokensIn_cons (by decide), hvalue.tokensIn_operandText]

/-- Joining brings in no token. -/
theorem IsJoined.tokensIn_subset (h : IsJoined operator current value text)
    (hvalue : value.IsDense) (hcurrent : current = .null ∨ current.IsDense) :
    tokensIn text ⊆ current.easingTokens ++ value.easingTokens := by
  cases h with
  | operand =>
    rw [hvalue.tokensIn_operandText]
    exact List.subset_append_right _ _
  | opposite =>
    rw [tokensIn_opposite hvalue]
    exact List.subset_append_right _ _
  | both hpresent =>
    rcases hcurrent with rfl | hcurrent
    · exact absurd rfl hpresent
    · rw [tokensIn_joined hcurrent hvalue]
      exact List.Subset.refl _

end Joining

section Avoiding

variable {token : String}

/-- What holds of the values under tags while no value mentions a token. -/
def AvoidsUnder (token : String) : Kind → Data → Prop
  | .numeric, value => ∃ n, value = .num n
  | .binding, value =>
    (∃ s, value.interior? = some s ∧ Text.removeBlanks s = s) ∧ token ∉ value.easingTokens
  | .special, value => token ∉ value.easingTokens

theorem AvoidsUnder.isDense {kind : Kind} {value : Data} (h : AvoidsUnder token kind value)
    (hkind : kind ≠ .special) : value.IsDense := by
  cases kind with
  | numeric => exact Or.inl h
  | binding => exact Or.inr h.1
  | special => exact absurd rfl hkind

theorem AvoidsUnder.notMem {kind : Kind} {value : Data} (h : AvoidsUnder token kind value) :
    token ∉ value.easingTokens := by
  cases kind with
  | numeric =>
    obtain ⟨n, rfl⟩ := h
    simp [Data.easingTokens]
  | binding => exact h.2
  | special => exact h

/-- Merging values that do not mention a token makes none that does. -/
theorem isKept_avoidsUnder (token : String) : IsKept (AvoidsUnder token) where
  number := fun n ↦ ⟨n, rfl⟩
  joined := by
    intro operator kind current value text hkind hvalue hcurrent hjoined
    have hdense : current = .null ∨ current.IsDense :=
      hcurrent.imp_right fun h ↦ h.isDense (by decide)
    have habsent : token ∉ current.easingTokens := by
      rcases hcurrent with rfl | hcurrent
      · simp [Data.easingTokens]
      · exact hcurrent.notMem
    obtain ⟨hinterior, hblanks, htokens⟩ := Data.easingTokens_binding
      (hjoined.isDense (hvalue.isDense hkind).isArithmetic
        (hdense.imp_right Data.IsDense.isArithmetic))
    refine ⟨⟨text, hinterior, hblanks⟩, fun hmem ↦ ?_⟩
    rw [htokens] at hmem
    rcases List.mem_append.mp (hjoined.tokensIn_subset (hvalue.isDense hkind) hdense hmem) with h | h
    · exact habsent h
    · exact hvalue.notMem h

end Avoiding

namespace Data

/-- Whether a text has no more tokens once it is under a tag: the blanks of a simple binding keep no
parts of a token apart. -/
def gainsNoToken (s : String) : Bool :=
  match bindingInterior? s.toList with
  | some expression =>
    (tokensIn (Text.removeBlanks expression)).all (tokensIn expression).contains
  | none => true

/-- A value that does not mention a token avoids it under a tag, if blanks make none. -/
theorem avoidsUnder_tagged {token : String} {value : Data} (h : token ∉ value.easingTokens)
    (hgains : ∀ s, value = .str s → gainsNoToken s = true) :
    AvoidsUnder token value.kind value.tagged := by
  rcases value.tagged_cases with ⟨n, -, hkind, htagged⟩ |
    ⟨s, expression, rfl, hinterior, hkind, htagged⟩ | ⟨-, -, hkind, htagged⟩
  · rw [htagged, hkind]
    exact ⟨n, rfl⟩
  · have hall := hgains s rfl
    unfold gainsNoToken at hall
    rw [show bindingInterior? s.toList = some expression from hinterior] at hall
    rw [easingTokens_of_interior? hinterior] at h
    rw [hkind]
    refine ⟨⟨_, htagged, removeBlanks_removeBlanks _⟩, fun hmem ↦ h ?_⟩
    rw [easingTokens_of_interior? htagged] at hmem
    simpa using List.all_eq_true.mp hall token hmem
  · rw [htagged, hkind]
    exact h

end Data

namespace Frame

/-- A group of a document whose properties have no more tokens once they are under tags. -/
structure GainsNoToken (frame : Frame) : Prop where
  group : frame.IsGroup
  texts : ∀ property s, (Property.name property, .str s) ∈ frame.members →
    Data.gainsNoToken s = true

theorem mem_of_mem_frameOf {members : Members} {member : String × Data}
    (h : member ∈ (frameOf members).members) : member ∈ members := by
  rcases List.mem_append.mp h with hbefore | hafter
  · exact (List.takeWhile_sublist _).subset hbefore
  · exact ((List.drop_sublist _ _).trans (List.dropWhile_sublist _)).subset hafter

theorem mem_tokens {frame : Frame} {token : String} : token ∈ frame.tokens ↔
    ∃ member ∈ frame.members, isPrivate member.1 = false ∧ token ∈ member.2.easingTokens :=
  Data.mem_tokensInMembers

/-- A group that does not mention a token avoids it under its tags. -/
theorem GainsNoToken.takes {frame : Frame} (h : frame.GainsNoToken) {token : String}
    (htoken : token ∉ frame.tokens) : frame.Takes (AvoidsUnder token) where
  group := h.group
  values := by
    intro property value hmember _
    refine Data.avoidsUnder_tagged (fun hmem ↦ htoken ?_) ?_
    · exact mem_tokens.mpr ⟨_, hmember, isPrivate_name property, hmem⟩
    · rintro s rfl
      exact h.texts property s hmember

theorem gainsNoToken_frameOf {members : Members} (hgroup : isGroup members = true)
    (h : ∀ property s, (Property.name property, .str s) ∈ members → Data.gainsNoToken s = true) :
    (frameOf members).GainsNoToken :=
  ⟨Item.isGroup_frameOf hgroup, fun property s hmember ↦ h property s (mem_of_mem_frameOf hmember)⟩

end Frame

namespace Item

variable {limit : ℤ} {items merged result : List Item} {token : String}

/-- Merging transforms brings in no members but transform properties. -/
theorem mergeTransforms_plain {r : String × Data → Prop}
    (h : EveryIn (fun frame items ↦ (frame.IsGroup ∧ ∀ member ∈ frame.members,
      isPlain member = true → r member) ∧ frame.HasList items) items)
    (hmerged : mergeTransforms limit items = .ok merged) :
    EveryIn (fun frame items ↦ (∀ member ∈ frame.members, isPlain member = true → r member) ∧
      frame.HasList items) merged := by
  obtain ⟨htag, hpush, huntag, rfl⟩ := mergeTransforms_eq_ok hmerged
  obtain ⟨hcheck, hbelow⟩ := Progress.fault?_guarded_eq_none.mp htag
  have htagged : EveryIn (fun frame items ↦ (∀ member ∈ frame.members, isPlain member = true →
      r member) ∧ frame.HasList items) (tagAll limit items).value := by
    rw [tagAll, changeAll, hcheck]
    refine changeEach_every (fun frame items hframe hlist _ ↦ ?_) h hbelow
    refine ⟨Frame.holding_tag hlist, fun member hmember hplain ↦ hframe.2 member ?_ hplain⟩
    rw [Progress.value_done, Frame.members_tag, List.mem_filter] at hmember
    exact hmember.1
  obtain ⟨hcheck, hbelow⟩ := Progress.fault?_guarded_eq_none.mp hpush
  have hpushed : EveryIn (fun frame items ↦ (∀ member ∈ frame.members, isPlain member = true →
      r member) ∧ frame.HasList items) (pushAll limit [] (tagAll limit items).value).value.value := by
    rw [pushAll, hcheck]
    exact (pushEach_leaves (fun _ _ hframe ↦ hframe) (fun _ _ ↦ rfl : ∀ (frame : Frame) tags,
      Frame.own { frame with tags } = frame.own) limit _ 0 _ _ htagged hbelow).1
  obtain ⟨hcheck, hbelow⟩ := Progress.fault?_guarded_eq_none.mp huntag
  rw [untagAll, changeAll, hcheck]
  refine changeEach_every (fun frame items hframe _ _ ↦ ⟨frame.holding_untag, ?_⟩) hpushed hbelow
  refine Frame.untag_induction (p := fun other ↦ ∀ member ∈ other.members,
    isPlain member = true → r member) frame hframe fun other property value _ hother ↦ ?_
  intro member hmember hplain
  rcases Frame.mem_members_put hmember with rfl | hmember
  · rw [isPlain_name] at hplain
    cases hplain
  · exact hother member hmember hplain

/-- Merging transforms mentions no token that was not mentioned before, if blanks make none. -/
theorem mentionsIn_of_mergeTransforms
    (h : EveryIn (fun frame items ↦ frame.GainsNoToken ∧ frame.HasList items) items)
    (hmerged : mergeTransforms limit items = .ok merged)
    (hmentions : MentionsIn (fun frame ↦ token ∈ frame.tokens) token merged) :
    MentionsIn (fun frame ↦ token ∈ frame.tokens) token items := by
  by_contra hnot
  have havoids := everyIn_of_not_mentionsIn items h hnot
  have htakes : EveryIn (fun frame items ↦ frame.Takes (AvoidsUnder token) ∧ frame.HasList items)
      items := havoids.mono fun _ _ hframe ↦ ⟨hframe.1.1.takes hframe.2, hframe.1.2⟩
  have hgives := mergeTransforms_gives (isKept_avoidsUnder token) htakes hmerged
  have hplain := mergeTransforms_plain
    (r := fun member ↦ isPrivate member.1 = false → token ∉ member.2.easingTokens)
    (havoids.mono fun frame _ hframe ↦ ⟨⟨hframe.1.1.group, fun member hmember _ hpublic hmem ↦
      hframe.2 (Frame.mem_tokens.mpr ⟨member, hmember, hpublic, hmem⟩)⟩, hframe.1.2⟩) hmerged
  have hnone : EveryIn (fun frame _ ↦ ¬ token ∈ frame.tokens) merged := by
    refine (hgives.and hplain).mono fun frame _ ⟨⟨hvalues, _⟩, hrest, _⟩ hmem ↦ ?_
    obtain ⟨⟨key, value⟩, hmember, hpublic, htoken⟩ := Frame.mem_tokens.mp hmem
    cases hproperty : Property.ofName? key with
    | none => exact hrest _ hmember (by simp [isPlain, hproperty]) hpublic htoken
    | some property =>
      have hname := Property.name_of_ofName? hproperty
      obtain ⟨kind, hkind⟩ := hvalues.values property value (hname ▸ hmember)
      exact hkind.notMem htoken
  obtain ⟨found, hfound, htoken⟩ : ∃ leaf ∈ leavesIn (Frame.kept true) merged,
      token ∈ leaf.value.easingTokens := exists_leaf_of_mentionsIn merged hmentions hnone
  have hgroups : EveryIn (fun frame items ↦ frame.IsGroup ∧ frame.HasList items) items :=
    h.mono fun _ _ hframe ↦ ⟨hframe.1.group, hframe.2⟩
  rw [(mergeTransforms_kept hgroups hmerged).2] at hfound
  exact hnot (mentionsIn_of_leaf items found hfound htoken)

/-- Making lists keeps what is mentioned. -/
theorem mentionsIn_listAll (hfault : (listAll limit items).fault? = none) :
    MentionsIn (fun frame ↦ token ∈ frame.tokens) token (listAll limit items).value ↔
      MentionsIn (fun frame ↦ token ∈ frame.tokens) token items := by
  obtain ⟨hcheck, hbelow⟩ := Progress.fault?_guarded_eq_none.mp hfault
  rw [listAll, hcheck]
  exact listEach_mentions (fun _ ↦ Iff.rfl) items 0 hbelow

theorem tokens_of_isRedundant {frame : Frame} (h : frame.IsGroup)
    (hredundant : isRedundant (.group frame items) = true) : frame.tokens = [] := by
  obtain ⟨value, hmembers⟩ := members_of_isRedundant h hredundant
  have hvalue : value = .str groupType := by
    have htype := Frame.isGroup_iff.mp h.type
    rwa [hmembers, Entries.get?_cons, if_pos rfl, Option.some_inj] at htype
  rw [Frame.tokens, hmembers, hvalue]
  decide

/-- Splicing keeps what is mentioned. -/
theorem mentionsIn_splice {p : Frame → Prop} (hp : ∀ frame, p frame → frame.IsGroup)
    (h : EveryIn (fun frame items ↦ p frame ∧ frame.HasList items) items)
    (hfault : (spliceAll limit items).fault? = none) :
    MentionsIn (fun frame ↦ token ∈ frame.tokens) token (spliceEach (spliceAll limit items).value) ↔
      MentionsIn (fun frame ↦ token ∈ frame.tokens) token items := by
  obtain ⟨hcheck, hbelow⟩ := Progress.fault?_guarded_eq_none.mp hfault
  have hidle (frame : Frame) (items : List Item) (hframe : p frame)
      (hredundant : isRedundant (.group frame items) = true) : ¬ token ∈ frame.tokens := by
    rw [tokens_of_isRedundant (hp frame hframe) hredundant]
    exact List.not_mem_nil
  have hevery := (spliceItems_leaves (fun _ ↦ ()) (fun _ ↦ false) (fun _ _ _ _ ↦ rfl) limit items 0
    h hbelow).1
  rw [spliceAll, hcheck, Progress.guarded_none, spliceEach_mentions hidle hevery,
    spliceItems_mentions hidle items 0 h hbelow]

end Item

namespace Data

variable {merge : Bool} {limit : ℤ} {members : Members} {result : Data}

/-- What a document uses before and after it is collapsed is what its items mention before and after
its transforms are merged. -/
theorem usedTokens_stages (h : (Data.obj members).collapse merge limit = .ok result) :
    result = .obj members ∨
      ∃ listed merged, listed = (Item.listAll limit (Item.itemsOf members)).value ∧
        (Item.listAll limit (Item.itemsOf members)).fault? = none ∧
        (if merge then Item.mergeTransforms limit listed else .ok listed) = .ok merged ∧
        (∀ token, token ∈ (Data.obj members).usedTokens ↔
          Item.MentionsIn (fun frame ↦ token ∈ frame.tokens) token listed) ∧
        ∀ token, token ∈ result.usedTokens ↔
          Item.MentionsIn (fun frame ↦ token ∈ frame.tokens) token merged := by
  rcases collapse_eq_ok h with ⟨rfl, -, -⟩ | ⟨others, items, hmembers, hitems, rfl⟩
  · exact Or.inl rfl
  · cases hmembers
    obtain ⟨hlist, merged, hmerged, hsplice, rfl⟩ := Item.collapseItems_eq_ok hitems
    refine Or.inr ⟨_, merged, rfl, hlist, hmerged, fun token ↦ ?_, fun token ↦ ?_⟩
    · rw [Item.mem_usedTokens, Item.mentionsIn_listAll hlist]
    · have hlisted := (Item.listAll_kept false (Item.everyIn_read members) hlist).1
      have hgroups : Item.EveryIn (fun frame items ↦ frame.IsGroup ∧ frame.HasList items) merged := by
        cases merge with
        | false =>
          cases hmerged
          exact hlisted
        | true =>
          exact (Item.mergeTransforms_kept hlisted hmerged).1.mono fun _ _ hframe ↦
            ⟨hframe.1.group, hframe.2⟩
      have hspliced := (Item.spliceAll_kept (fun _ hframe ↦ hframe) false hgroups hsplice).1
      rw [Item.mem_usedTokens_put (hspliced.mono fun _ _ hframe ↦ hframe.2),
        Item.mentionsIn_splice (fun _ hframe ↦ hframe) hgroups hsplice]

/-- A collapsed document uses no easings that it did not use before, unless transforms are merged and
the blanks within a binding keep the parts of a token apart. -/
theorem usedTokens_collapse
    (htexts : merge = true → ∀ s ∈ (Data.obj members).transformTexts, gainsNoToken s = true)
    (h : (Data.obj members).collapse merge limit = .ok result) :
    result.usedTokens ⊆ (Data.obj members).usedTokens := by
  intro token htoken
  rcases usedTokens_stages h with rfl | ⟨listed, merged, rfl, hlist, hmerged, hbefore, hafter⟩
  · exact htoken
  · rw [hafter] at htoken
    rw [hbefore]
    cases merge with
    | false =>
      cases hmerged
      exact htoken
    | true =>
      have hread : Item.EveryIn (fun frame items ↦ frame.GainsNoToken ∧
          (frame.holding = .absent → items = [])) (Item.itemsOf members) := by
        refine Item.everyIn_frames fun other hother hgroup ↦ ?_
        refine Frame.gainsNoToken_frameOf hgroup fun property s hmember ↦ htexts rfl s ?_
        exact mem_transformTexts.mpr ⟨other, hother, property, hmember⟩
      have hlisted := Item.listAll_every
        (fun _ hframe ↦ Frame.GainsNoToken.mk hframe.group.listed hframe.texts) hread hlist
      exact Item.mentionsIn_of_mergeTransforms hlisted hmerged htoken

end Data

end Motion
