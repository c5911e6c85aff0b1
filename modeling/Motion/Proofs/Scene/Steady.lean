import Motion.Proofs.Number.Neutral
import Motion.Proofs.Scene.Simple
import Motion.Proofs.Scene.Tokens

/-!
Pushing transforms without losing what they mention. As long as every binding has an expression and
every rotation and scale under a tag is a number or a binding (`SteadyUnder`), a merged value mentions
all that its parts did, a rotation or scale that is not neutral stays so where it is pushed, and no
pivot is dropped that has been in use (`pushInto_isSteadyPush`).
-/

set_option autoImplicit false
set_option relaxedAutoImplicit false

namespace Motion

section Pruning

variable {κ : Type} [DecidableEq κ] [HasFamily κ] {entries : Entries κ Data} {key : κ}

/-- Whether a key is that of a rotation or a scale. -/
def IsTurning (key : κ) : Prop :=
  family? key = some .rotation ∨ family? key = some .scale

instance : Decidable (IsTurning key) :=
  inferInstanceAs (Decidable (_ ∨ _))

omit [DecidableEq κ] in
theorem IsTurning.family?_ne (h : IsTurning key) : family? key ≠ some .pivot := by
  rcases h with h | h <;> simp [h]

omit [DecidableEq κ] in
/-- The pivot is used as soon as some rotation or scale is not neutral. -/
theorem pivotUsed_iff : pivotUsed entries = true ↔
    ∃ entry ∈ entries, IsTurning entry.1 ∧ isNeutral entry.1 entry.2 = false := by
  simp only [pivotUsed, usesPivot, List.any_eq_true, List.mem_filter, Bool.not_eq_true']
  refine exists_congr fun entry ↦ ?_
  rw [and_assoc, and_comm (a := isNeutral entry.1 entry.2 = false)]
  refine and_congr_right fun _ ↦ and_congr_left fun _ ↦ ?_
  unfold IsTurning
  split <;> simp_all

theorem pivotUsed_of_get? {value : Data} (hget : Entries.get? entries key = some value)
    (hturning : IsTurning key) (hneutral : isNeutral key value = false) :
    pivotUsed entries = true :=
  pivotUsed_iff.mpr ⟨_, Entries.mem_of_get? hget, hturning, hneutral⟩

omit [DecidableEq κ] in
/-- Pruning drops no rotation and no scale for whose sake the pivot is used. -/
theorem pivotUsed_prune : pivotUsed (prune entries) = pivotUsed entries := by
  rw [Bool.eq_iff_iff, pivotUsed_iff, pivotUsed_iff]
  constructor
  · rintro ⟨entry, hentry, hshows⟩
    exact ⟨entry, List.mem_of_mem_filter hentry, hshows⟩
  · rintro ⟨entry, hentry, hturning, hneutral⟩
    refine ⟨entry, List.mem_filter.mpr ⟨hentry, ?_⟩, hturning, hneutral⟩
    simp [shows, hneutral, hturning.family?_ne]

omit [DecidableEq κ] in
/-- What does not show is neutral, and so a number, or a pivot that is not used. -/
theorem shows_of_mem_easingTokens {value : Data} {token : String} {used : Bool}
    (htoken : token ∈ value.easingTokens) (hpivot : family? key = some .pivot → used = true) :
    shows used (key, value) = true := by
  have hneutral : isNeutral key value = false := by
    unfold isNeutral
    cases hnumber : value.number? with
    | none => cases (family? key).bind Family.neutral? <;> rfl
    | some n =>
      rw [Data.easingTokens_of_number? hnumber] at htoken
      exact absurd htoken List.not_mem_nil
  cases hused : used with
  | true => simp [shows, hneutral]
  | false =>
    have hfamily : family? key ≠ some .pivot := fun h ↦ by simp [hpivot h] at hused
    simp [shows, hneutral, hfamily]

end Pruning

/-- What holds of a value under a tag while nothing that is mentioned gets lost: a rotation or scale is
no NaN, and a binding has an expression without blanks. -/
def SteadyUnder (tag : Tag) (value : Data) : Prop :=
  match tag.kind with
  | .numeric => ∃ n, value = .num n ∧ (IsTurning tag → n.isNaN = false)
  | .binding => ∃ s, value.interior? = some s ∧ Text.removeBlanks s = s ∧ s ≠ []
  | .special => True

theorem SteadyUnder.isDense {tag : Tag} {value : Data} (h : SteadyUnder tag value)
    (hkind : tag.kind ≠ .special) : value.IsDense := by
  unfold SteadyUnder at h
  cases htag : tag.kind with
  | numeric =>
    rw [htag] at h
    obtain ⟨n, hn, -⟩ := h
    exact Or.inl ⟨n, hn⟩
  | binding =>
    rw [htag] at h
    obtain ⟨s, hs, hdense, -⟩ := h
    exact Or.inr ⟨s, hs, hdense⟩
  | special => exact absurd htag hkind

namespace Tagged

/-- The easing tokens of the value under a tag. -/
def tokensAt (tags : Tagged) (tag : Tag) : List String :=
  ((Entries.get? tags tag).getD .null).easingTokens

/-- Whether the value under some tag mentions a token. -/
def Mentions (tags : Tagged) (token : String) : Prop :=
  ∃ tag, token ∈ tags.tokensAt tag

variable {tags others : Tagged} {tag : Tag}

theorem tokensAt_congr (h : Entries.get? tags tag = Entries.get? others tag) :
    tags.tokensAt tag = others.tokensAt tag := by
  rw [tokensAt, h, tokensAt]

theorem tokensAt_of_some {value : Data} (h : Entries.get? tags tag = some value) :
    tags.tokensAt tag = value.easingTokens := by
  rw [tokensAt, h, Option.getD_some]

theorem tokensAt_of_none (h : Entries.get? tags tag = none) : tags.tokensAt tag = [] := by
  simp [tokensAt, h, Data.easingTokens]

theorem exists_of_mem_tokensAt {token : String} (h : token ∈ tags.tokensAt tag) :
    ∃ value, Entries.get? tags tag = some value ∧ token ∈ value.easingTokens := by
  cases hget : Entries.get? tags tag with
  | none =>
    rw [tokensAt_of_none hget] at h
    exact absurd h List.not_mem_nil
  | some value => exact ⟨value, rfl, tokensAt_of_some hget ▸ h⟩

/-- Numbers have no tokens. -/
theorem tokensAt_of_numeric (h : tags.Holds SteadyUnder) (hkind : tag.kind = .numeric) :
    tags.tokensAt tag = [] := by
  cases hget : Entries.get? tags tag with
  | none => exact tokensAt_of_none hget
  | some value =>
    have hsteady := h.holds tag value hget
    unfold SteadyUnder at hsteady
    rw [hkind] at hsteady
    obtain ⟨n, rfl, -⟩ := hsteady
    simp [tokensAt_of_some hget, Data.easingTokens]

theorem mentions_inTagOrder {token : String} (h : tags.Mentions token) :
    (inTagOrder tags).Mentions token := by
  obtain ⟨tag, htoken⟩ := h
  exact ⟨tag, tokensAt_congr (get?_inTagOrder tags tag) ▸ htoken⟩

end Tagged

section Merging

variable {tags merged : Tagged} {tag : Tag} {value : Data} {op : Option Operator}

/-- What merging a value under a tag makes of tags if it loses nothing that they mention. -/
structure IsSteadyMerge (tags : Tagged) (tag : Tag) (merged : Tagged) : Prop where
  holds : merged.Holds SteadyUnder
  other : ∀ other, other ≠ tag → Entries.get? merged other = Entries.get? tags other
  tokens : tags.tokensAt tag ⊆ merged.tokensAt tag
  contains : Entries.contains tags tag = true → Entries.contains merged tag = true

theorem isSteadyMerge_self (h : tags.Holds SteadyUnder) : IsSteadyMerge tags tag tags :=
  ⟨h, fun _ _ ↦ rfl, List.Subset.refl _, id⟩

theorem isSteadyMerge_put (h : tags.Holds SteadyUnder) (hvalue : SteadyUnder tag value)
    (htokens : tags.tokensAt tag ⊆ value.easingTokens) :
    IsSteadyMerge tags tag (Entries.put tags tag value) where
  holds := h.put hvalue
  other := fun _ hother ↦ Entries.get?_put_of_ne (Ne.symm hother) tags value
  tokens := by
    rw [Tagged.tokensAt_of_some (Entries.get?_put_self tags tag value)]
    exact htokens
  contains := fun _ ↦ by simp [Entries.contains_put]

theorem mergeNumber_isSteadyMerge (h : tags.Holds SteadyUnder) (hkind : tag.kind = .numeric)
    (hturning : ¬ IsTurning tag) (hmerged : mergeNumber tags tag value op = .ok merged) :
    IsSteadyMerge tags tag merged := by
  rcases mergeNumber_cases hmerged with rfl | ⟨n, rfl⟩
  · exact isSteadyMerge_self h
  · refine isSteadyMerge_put h ?_ ?_
    · unfold SteadyUnder
      rw [hkind]
      exact ⟨n, rfl, fun hcontra ↦ absurd hcontra hturning⟩
    · rw [Tagged.tokensAt_of_numeric h hkind]
      exact List.nil_subset _

/-- A rotation or scale that is not neutral is kept as it is where there is none yet. -/
theorem mergeNumber_turning {n : Number} (hnone : Entries.get? tags tag = none)
    (hturning : IsTurning tag) (hnan : n.isNaN = false)
    (hneutral : isNeutral tag (.num n) = false) :
    mergeNumber tags tag (.num n) none = .ok (Entries.put tags tag (.num n.normalize)) := by
  have hnormal := Number.isNaN_normalize hnan
  have hnumber : (Data.num n).number? = some n.normalize := by simp [Data.number?, hnan]
  have hpresent : present? tags tag = none := by rw [present?, hnone]
  have hstore {stored : Option Number} (hstored : stored = some n.normalize) :
      (inRange stored).map (fun m ↦ Entries.put tags tag (.num m.normalize)) =
        .ok (Entries.put tags tag (.num n.normalize)) := by
    rw [hstored, inRange, Except.map, Number.normalize_normalize]
  unfold isNeutral at hneutral
  rw [hnumber] at hneutral
  rw [mergeNumber, hpresent, hnumber]
  rcases hturning with hfamily | hfamily
  · have hzero : n.normalize.same (.int 0) = false := by
      simpa [hfamily, Family.neutral?] using hneutral
    simpa [mergeOperator, hfamily, Family.isMultiplicative] using
      hstore (Number.add_zero_left hnormal hzero)
  · simpa [mergeOperator, hfamily, Family.isMultiplicative] using
      hstore (Number.mul_one_left hnormal)

theorem joinText_of_empty (h : operandText value (some (op.getD (mergeOperator tag))) = []) :
    joinText tags tag value op = tags := by
  simp [joinText, h]

theorem joinText_of_none (hnone : Entries.get? tags tag = none)
    (h : operandText value (some (op.getD (mergeOperator tag))) ≠ []) :
    joinText tags tag value op = Entries.put tags tag (.str (Scalar.binding (String.ofList
      (if op.getD (mergeOperator tag) = .sub then
        '-' :: operandText value (some (op.getD (mergeOperator tag)))
      else operandText value (some (op.getD (mergeOperator tag))))))) := by
  have hnull : (Data.null).isTruthy = false := rfl
  unfold joinText
  simp only [hnone, Option.getD_none, hnull, Bool.false_and, Bool.or_false, List.isEmpty_iff,
    if_neg h, Bool.false_eq_true, if_false]
  split_ifs <;> rfl

theorem joinText_of_some {current : Data} (hget : Entries.get? tags tag = some current)
    (htruthy : current.isTruthy = true)
    (hpresent : operandText current (some (op.getD (mergeOperator tag))) ≠ [])
    (h : operandText value (some (op.getD (mergeOperator tag))) ≠ []) :
    joinText tags tag value op = Entries.put tags tag (.str (Scalar.binding (String.ofList
      (operandText current (some (op.getD (mergeOperator tag))) ++
        (op.getD (mergeOperator tag)).symbol.toList ++
          operandText value (some (op.getD (mergeOperator tag))))))) := by
  unfold joinText
  simp [hget, htruthy, h, hpresent]

theorem operandText_ne_nil {s : List Char} (hinterior : value.interior? = some s)
    (hdense : Text.removeBlanks s = s) (hne : s ≠ []) (operator : Option Operator) :
    operandText value operator ≠ [] := by
  rw [operandText, Data.bareExpression?_of_interior? hinterior]
  dsimp only
  rw [hdense]
  split_ifs
  · simp
  · exact hne

/-- A text that is not empty under the tag of a binding. -/
theorem steadyUnder_binding {text : List Char} (hkind : tag.kind = .binding)
    (hdense : ∀ c ∈ text, isDense c = true) (hne : text ≠ []) :
    SteadyUnder tag (.str (Scalar.binding (String.ofList text))) := by
  obtain ⟨hinterior, hblanks, -⟩ := Data.easingTokens_binding hdense
  unfold SteadyUnder
  rw [hkind]
  exact ⟨text, hinterior, hblanks, hne⟩

/-- Joining a value that is written to a binding keeps what both mention. -/
theorem joinText_eq_put (h : tags.Holds SteadyUnder) (hkind : tag.kind = .binding)
    (hvalue : value.IsDense)
    (hne : operandText value (some (op.getD (mergeOperator tag))) ≠ []) :
    ∃ made, joinText tags tag value op = Entries.put tags tag made ∧ SteadyUnder tag made ∧
      made.easingTokens = tags.tokensAt tag ++ value.easingTokens := by
  have hoperand := hvalue.isArithmetic.isDense_operandText
    (some (op.getD (mergeOperator tag)))
  have hmade {text : List Char} (hdense : ∀ c ∈ text, isDense c = true) (hne : text ≠ [])
      (htokens : tokensIn text = tags.tokensAt tag ++ value.easingTokens) :
      SteadyUnder tag (.str (Scalar.binding (String.ofList text))) ∧
        (Data.str (Scalar.binding (String.ofList text))).easingTokens =
          tags.tokensAt tag ++ value.easingTokens :=
    ⟨steadyUnder_binding hkind hdense hne, (Data.easingTokens_binding hdense).2.2.trans htokens⟩
  cases hget : Entries.get? tags tag with
  | none =>
    refine ⟨_, joinText_of_none hget hne, hmade ?_ ?_ ?_⟩
    · split_ifs
      · exact List.forall_mem_cons.mpr ⟨by decide, hoperand⟩
      · exact hoperand
    · split_ifs
      · exact List.cons_ne_nil _ _
      · exact hne
    · rw [Tagged.tokensAt_of_none hget, List.nil_append]
      split_ifs
      · exact tokensIn_opposite hvalue _
      · exact hvalue.tokensIn_operandText _
  | some current =>
    have hcurrent := h.holds tag current hget
    have hdense := hcurrent.isDense (by rw [hkind]; decide)
    unfold SteadyUnder at hcurrent
    rw [hkind] at hcurrent
    obtain ⟨s, hinterior, hblanks, hsome⟩ := hcurrent
    have hpresent := operandText_ne_nil hinterior hblanks hsome
      (some (op.getD (mergeOperator tag)))
    refine ⟨_, joinText_of_some hget (Data.isTruthy_of_interior? hinterior) hpresent hne,
      hmade ?_ (by simp [hne]) ?_⟩
    · have hsymbol : ∀ c ∈ (op.getD (mergeOperator tag)).symbol.toList, isDense c = true := by
        cases op.getD (mergeOperator tag) <;> exact List.all_eq_true.mp (by decide)
      exact List.forall_mem_append.mpr ⟨List.forall_mem_append.mpr
        ⟨hdense.isArithmetic.isDense_operandText _, hsymbol⟩, hoperand⟩
    · rw [tokensIn_joined hdense hvalue, Tagged.tokensAt_of_some hget]

theorem joinText_isSteadyMerge (h : tags.Holds SteadyUnder) (hkind : tag.kind = .binding)
    (hvalue : value.IsDense) : IsSteadyMerge tags tag (joinText tags tag value op) := by
  by_cases hne : operandText value (some (op.getD (mergeOperator tag))) = []
  · rw [joinText_of_empty hne]
    exact isSteadyMerge_self h
  · obtain ⟨made, hput, hmade, htokens⟩ := joinText_eq_put h hkind hvalue hne
    rw [hput]
    refine isSteadyMerge_put h hmade ?_
    rw [htokens]
    exact List.subset_append_left _ _

end Merging

section Absorbing

variable {tags candidates merged : Tagged} {tag : Tag} {value : Data}

theorem absorb_cons_fault? {rest : Tagged} (hkind : tag.kind ≠ .special)
    (h : (absorb tags ((tag, value) :: rest)).fault? = none) :
    ∃ first, (if tag.kind = .numeric then mergeNumber tags tag value none
        else mergeText tags tag value none) = .ok first ∧
      absorb tags ((tag, value) :: rest) = absorb first rest := by
  rw [absorb_cons_eq hkind] at h ⊢
  cases hmerge : (if tag.kind = .numeric then mergeNumber tags tag value none
      else mergeText tags tag value none) with
  | error fault =>
    rw [hmerge] at h
    cases h
  | ok first => exact ⟨first, rfl, rfl⟩

/-- A rotation or scale that is not neutral is not neutral under its tag, where there was none. -/
theorem mergeNumber_isSteadyMerge_turning {n : Number} (htags : tags.Holds SteadyUnder)
    (hkind : tag.kind = .numeric) (hnone : Entries.get? tags tag = none) (hturning : IsTurning tag)
    (hnan : n.isNaN = false) (hneutral : isNeutral tag (.num n) = false)
    (hmerged : mergeNumber tags tag (.num n) none = .ok merged) :
    IsSteadyMerge tags tag merged ∧
      ∃ now, Entries.get? merged tag = some now ∧ isNeutral tag now = false := by
  rw [mergeNumber_turning hnone hturning hnan hneutral] at hmerged
  cases hmerged
  have hnormal := Number.isNaN_normalize hnan
  refine ⟨isSteadyMerge_put htags ?_ ?_, _, Entries.get?_put_self tags tag _, ?_⟩
  · unfold SteadyUnder
    rw [hkind]
    exact ⟨_, rfl, fun _ ↦ hnormal⟩
  · rw [Tagged.tokensAt_of_none hnone]
    exact List.nil_subset _
  · have hsame : (Data.num n.normalize).number? = (Data.num n).number? := by
      simp [Data.number?, hnan, hnormal, Number.normalize_normalize]
    unfold isNeutral at hneutral ⊢
    rwa [hsame]

/-- A binding is not neutral, and what is joined to one is mentioned by it. -/
theorem joinText_isSteadyMerge_binding (htags : tags.Holds SteadyUnder)
    (hvalue : SteadyUnder tag value) (hkind : tag.kind = .binding) :
    IsSteadyMerge tags tag (joinText tags tag value none) ∧
      value.easingTokens ⊆ Tagged.tokensAt (joinText tags tag value none) tag ∧
        ∃ now, Entries.get? (joinText tags tag value none) tag = some now ∧
          isNeutral tag now = false := by
  have hdense := hvalue.isDense (by rw [hkind]; decide)
  unfold SteadyUnder at hvalue
  rw [hkind] at hvalue
  obtain ⟨s, hinterior, hblanks, hne⟩ := hvalue
  have hoperand := operandText_ne_nil hinterior hblanks hne
    (some ((none : Option Operator).getD (mergeOperator tag)))
  obtain ⟨made, hput, hmade, htokens⟩ := joinText_eq_put htags hkind hdense hoperand
  have hget := Entries.get?_put_self tags tag made
  refine ⟨joinText_isSteadyMerge htags hkind hdense, ?_, ?_⟩
  · rw [hput, Tagged.tokensAt_of_some hget, htokens]
    exact List.subset_append_right _ _
  · refine ⟨made, hput ▸ hget, ?_⟩
    unfold SteadyUnder at hmade
    rw [hkind] at hmade
    obtain ⟨text, htext, -⟩ := hmade
    unfold isNeutral
    rw [Data.number?_eq_none htext]
    cases (family? tag).bind Family.neutral? <;> rfl

/-- A candidate that is merged under its tag is mentioned there, and a rotation or scale that is not
neutral is not neutral there. -/
theorem merge_isSteadyMerge (htags : tags.Holds SteadyUnder) (hvalue : SteadyUnder tag value)
    (hkind : tag.kind ≠ .special) (hturning : IsTurning tag →
      isNeutral tag value = false ∧ Entries.get? tags tag = none)
    (hmerged : (if tag.kind = .numeric then mergeNumber tags tag value none
      else mergeText tags tag value none) = .ok merged) :
    IsSteadyMerge tags tag merged ∧ value.easingTokens ⊆ merged.tokensAt tag ∧
      (IsTurning tag → ∃ now, Entries.get? merged tag = some now ∧ isNeutral tag now = false) := by
  by_cases hnumeric : tag.kind = .numeric
  · rw [if_pos hnumeric] at hmerged
    unfold SteadyUnder at hvalue
    rw [hnumeric] at hvalue
    obtain ⟨n, rfl, hnan⟩ := hvalue
    have htokens : (Data.num n).easingTokens ⊆ merged.tokensAt tag := by
      simp [Data.easingTokens]
    by_cases hturn : IsTurning tag
    · obtain ⟨hneutral, hnone⟩ := hturning hturn
      obtain ⟨hsteady, hnow⟩ := mergeNumber_isSteadyMerge_turning htags hnumeric hnone hturn
        (hnan hturn) hneutral hmerged
      exact ⟨hsteady, htokens, fun _ ↦ hnow⟩
    · exact ⟨mergeNumber_isSteadyMerge htags hnumeric hturn hmerged, htokens,
        fun hcontra ↦ absurd hcontra hturn⟩
  · have hbinding : tag.kind = .binding := by
      cases hcases : tag.kind <;> simp_all
    rw [if_neg hnumeric] at hmerged
    rw [mergeText_eq hmerged]
    obtain ⟨hsteady, htokens, hnow⟩ := joinText_isSteadyMerge_binding htags hvalue hbinding
    exact ⟨hsteady, htokens, fun _ ↦ hnow⟩

/-- What absorbing candidates makes of tags if it loses nothing that is mentioned on either side. -/
structure IsAbsorption (tags candidates merged : Tagged) : Prop where
  holds : merged.Holds SteadyUnder
  other : ∀ tag, Entries.get? candidates tag = none →
    Entries.get? merged tag = Entries.get? tags tag
  tokens : ∀ tag, tags.tokensAt tag ++ candidates.tokensAt tag ⊆ merged.tokensAt tag
  turning : ∀ tag value, IsTurning tag → Entries.get? candidates tag = some value →
    ∃ now, Entries.get? merged tag = some now ∧ isNeutral tag now = false

/-- One candidate is merged, and then the rest is absorbed. -/
theorem IsAbsorption.cons {first rest : Tagged} (hmerge : IsSteadyMerge tags tag first)
    (htokens : value.easingTokens ⊆ first.tokensAt tag)
    (hturned : IsTurning tag → ∃ now, Entries.get? first tag = some now ∧ isNeutral tag now = false)
    (habsent : Entries.get? rest tag = none) (hrest : IsAbsorption first rest merged) :
    IsAbsorption tags ((tag, value) :: rest) merged := by
  have hfirst : Entries.get? ((tag, value) :: rest) tag = some value := by
    rw [Entries.get?_cons, if_pos rfl]
  have hothers (other : Tag) (hne : other ≠ tag) :
      Entries.get? ((tag, value) :: rest) other = Entries.get? rest other := by
    rw [Entries.get?_cons, if_neg (Ne.symm hne)]
  refine ⟨hrest.holds, fun other hother ↦ ?_, fun other ↦ ?_, fun other current hturn hget ↦ ?_⟩
  · have hne : other ≠ tag := by
      rintro rfl
      rw [hfirst] at hother
      cases hother
    rw [hothers other hne] at hother
    rw [hrest.other other hother, hmerge.other other hne]
  · by_cases hne : other = tag
    · subst hne
      have hleft := (List.append_subset.mp (hrest.tokens other)).1
      rw [Tagged.tokensAt_of_some hfirst]
      exact List.append_subset.mpr
        ⟨List.Subset.trans hmerge.tokens hleft, List.Subset.trans htokens hleft⟩
    · rw [← Tagged.tokensAt_congr (hmerge.other other hne),
        Tagged.tokensAt_congr (hothers other hne)]
      exact hrest.tokens other
  · by_cases hne : other = tag
    · subst hne
      rw [hrest.other other habsent]
      exact hturned hturn
    · exact hrest.turning other current hturn ((hothers other hne).symm.trans hget)

theorem absorb_isAbsorption : ∀ (candidates tags : Tagged), tags.Holds SteadyUnder →
    candidates.Holds SteadyUnder → (∀ entry ∈ candidates, entry.1.kind ≠ .special) →
    (∀ tag value, IsTurning tag → Entries.get? candidates tag = some value →
      isNeutral tag value = false ∧ Entries.get? tags tag = none) →
    (absorb tags candidates).fault? = none →
      IsAbsorption tags candidates (absorb tags candidates).value
  | [], tags, htags, _, _, _, _ => by
    refine ⟨htags, fun _ _ ↦ rfl, fun tag ↦ ?_, fun _ _ _ hget ↦ by cases hget⟩
    have hnone : Tagged.tokensAt [] tag = [] := Tagged.tokensAt_of_none rfl
    rw [hnone, List.append_nil]
    exact List.Subset.refl _
  | (tag, value) :: rest, tags, htags, hcandidates, hkinds, hturning, hfault => by
    obtain ⟨hvalue, habsent, hrest⟩ := hcandidates.of_cons
    have hkind := hkinds _ List.mem_cons_self
    obtain ⟨first, hmerged, heq⟩ := absorb_cons_fault? hkind hfault
    rw [heq] at hfault ⊢
    obtain ⟨hmerge, htokens, hturned⟩ := merge_isSteadyMerge htags hvalue hkind
      (fun hturn ↦ hturning tag value hturn (by rw [Entries.get?_cons, if_pos rfl])) hmerged
    refine .cons hmerge htokens hturned habsent (absorb_isAbsorption rest first hmerge.holds hrest
      (fun entry hentry ↦ hkinds entry (List.mem_cons_of_mem _ hentry)) ?_ hfault)
    intro other current hturn hget
    have hne : tag ≠ other := by
      rintro rfl
      rw [habsent] at hget
      cases hget
    rw [hmerge.other other hne.symm]
    exact hturning other current hturn (by rw [Entries.get?_cons, if_neg hne, hget])

end Absorbing

section Compensating

variable {child candidates moved : Tagged}

theorem IsTurning.notMem_pivotTags {tag : Tag} (h : IsTurning tag) : tag ∉ pivotTags := by
  intro hmem
  simp only [pivotTags, List.mem_cons, List.not_mem_nil, or_false] at hmem
  rcases hmem with rfl | rfl | rfl | rfl <;> revert h <;> decide

/-- What compensation makes of candidates if it loses nothing that they mention. -/
structure IsCompensation (candidates moved : Tagged) : Prop where
  holds : moved.Holds SteadyUnder
  other : ∀ tag, tag ∉ pivotTags → Entries.get? moved tag = Entries.get? candidates tag
  tokens : ∀ tag, candidates.tokensAt tag ⊆ moved.tokensAt tag
  contains : ∀ tag, Entries.contains candidates tag = true → Entries.contains moved tag = true

theorem isCompensation_self (h : candidates.Holds SteadyUnder) :
    IsCompensation candidates candidates :=
  ⟨h, fun _ _ ↦ rfl, fun _ ↦ List.Subset.refl _, fun _ ↦ id⟩

/-- A merge under the tag of a pivot goes on with a compensation. -/
theorem IsCompensation.merge (h : IsCompensation candidates moved) {tag : Tag}
    (htag : tag ∈ pivotTags) {next : Tagged} (hmerge : IsSteadyMerge moved tag next) :
    IsCompensation candidates next where
  holds := hmerge.holds
  other := by
    intro other hother
    have hne : other ≠ tag := fun heq ↦ hother (heq ▸ htag)
    rw [hmerge.other other hne, h.other other hother]
  tokens := by
    intro other
    refine List.Subset.trans (h.tokens other) ?_
    by_cases hne : other = tag
    · exact hne ▸ hmerge.tokens
    · rw [Tagged.tokensAt_congr (hmerge.other other hne)]
      exact List.Subset.refl _
  contains := by
    intro other hother
    have hmoved := h.contains other hother
    by_cases hne : other = tag
    · subst hne
      exact hmerge.contains hmoved
    · rwa [Entries.contains_congr (hmerge.other other hne)]

theorem mergeShift_isSteadyMerge (hchild : child.Holds SteadyUnder)
    (h : moved.Holds SteadyUnder) {tag : Tag} (htag : tag ∈ pivotTags) {next : Tagged}
    (hmerged : mergeShift child moved tag = .ok next) : IsSteadyMerge moved tag next := by
  unfold mergeShift at hmerged
  cases hget : Entries.get? child tag.shift with
  | none =>
    rw [hget] at hmerged
    cases hmerged
    exact isSteadyMerge_self h
  | some value =>
    rw [hget, Option.elim_some] at hmerged
    have hkind := (pivotTags_spec htag).2.1
    split_ifs at hmerged with hnumeric
    · have hturning : ¬ IsTurning tag := fun hturning ↦ hturning.notMem_pivotTags htag
      exact mergeNumber_isSteadyMerge h hnumeric hturning hmerged
    · have hbinding : tag.kind = .binding := by
        cases hcases : tag.kind <;> simp_all
      rw [mergeText_eq hmerged]
      exact joinText_isSteadyMerge h hbinding ((hchild.holds tag.shift value hget).isDense hkind)

theorem compensate_isCompensation (hchild : child.Holds SteadyUnder)
    (h : candidates.Holds SteadyUnder) :
    IsCompensation candidates (compensate child candidates).value := by
  have hmove (pivots : List Tag) (hpivots : pivots ⊆ pivotTags) :
      IsCompensation candidates (moveEach child candidates pivots).value := by
    induction pivots with
    | nil => exact isCompensation_self h
    | cons tag rest ih =>
      obtain ⟨htag, hrest⟩ := List.cons_subset.mp hpivots
      rw [moveEach_cons]
      refine Progress.andThen_keeps (ih hrest) fun moved hmoved ↦ ?_
      exact Progress.ofExcept_keeps hmoved fun next hnext ↦
        hmoved.merge htag (mergeShift_isSteadyMerge hchild hmoved.holds htag hnext)
  by_cases hpivotal : (candidates.any fun candidate ↦ candidate.1.isPivotal) = true
  · rw [compensate_eq child hpivotal]
    exact hmove pivotTags (List.Subset.refl _)
  · rw [compensate, if_neg hpivotal]
    exact isCompensation_self h

end Compensating

/-- Tags that lose nothing where they are pushed or put back: their values are steady, a special value
is the only one of its property, and all of them show. -/
structure Tagged.IsSteady (tags : Tagged) : Prop extends Tagged.Holds SteadyUnder tags where
  alone : ∀ property value, Entries.get? tags ⟨property, .special⟩ = some value →
    ∀ kind, kind ≠ .special → Entries.get? tags ⟨property, kind⟩ = none
  shown : ∀ tag value, Entries.get? tags tag = some value →
    shows (pivotUsed tags) (tag, value) = true

section Pushing

variable {tags candidates moved absorbed : Tagged} {tag : Tag}

theorem IsTurning.isPivotal (h : IsTurning tag) : tag.isPivotal = true := by
  rcases h with h | h <;> simp [Tag.isPivotal, Option.some_inj.mp h, Family.isPivotal]

/-- What shows is not neutral, and no pivot unless the pivot is used. -/
theorem shows_iff {value : Data} {used : Bool} : shows used (tag, value) = true ↔
    isNeutral tag value = false ∧ (family? tag = some .pivot → used = true) := by
  cases used <;> simp [shows]

/-- Pruned tags are steady if their values are and none is special. -/
theorem isSteady_prune (h : tags.Holds SteadyUnder)
    (hkinds : ∀ entry ∈ tags, entry.1.kind ≠ .special) : Tagged.IsSteady (prune tags) where
  toHolds := h.filter _
  alone := by
    intro property value hget
    have hmem := List.mem_of_mem_filter (Entries.mem_of_get? hget)
    exact absurd rfl (hkinds _ hmem)
  shown := by
    intro tag value hget
    rw [pivotUsed_prune]
    rw [prune, Entries.get?_filter h.nodup] at hget
    exact (Option.filter_eq_some_iff.mp hget).2

/-- Candidates whose pivots have been moved are of the same kinds. -/
theorem IsCompensation.kind_ne (h : IsCompensation candidates moved)
    (hkinds : ∀ entry ∈ candidates, entry.1.kind ≠ .special) :
    ∀ entry ∈ moved, entry.1.kind ≠ .special := by
  intro entry hentry hspecial
  have hget := Entries.get?_of_mem h.holds.nodup hentry
  rw [h.other _ fun hmem ↦ (pivotTags_spec hmem).2.1 hspecial] at hget
  exact hkinds _ (Entries.mem_of_get? hget) hspecial

/-- What tags absorb is of the kinds of both sides. -/
theorem IsAbsorption.kind_ne (h : IsAbsorption tags candidates absorbed)
    (htags : ∀ entry ∈ tags, entry.1.kind ≠ .special)
    (hkinds : ∀ entry ∈ candidates, entry.1.kind ≠ .special) :
    ∀ entry ∈ absorbed, entry.1.kind ≠ .special := by
  intro entry hentry hspecial
  have hget := Entries.get?_of_mem h.holds.nodup hentry
  cases hcandidate : Entries.get? candidates entry.1 with
  | some value => exact hkinds _ (Entries.mem_of_get? hcandidate) hspecial
  | none =>
    rw [h.other _ hcandidate] at hget
    exact htags _ (Entries.mem_of_get? hget) hspecial

theorem pushInto_fault?_eq_none (h : (pushInto tags candidates).fault? = none) :
    (absorb tags (compensate tags candidates).value).fault? = none ∧
      (pushInto tags candidates).value =
        (prune (absorb tags (compensate tags candidates).value).value,
          (compensate tags candidates).value) := by
  unfold pushInto at h ⊢
  dsimp only at h ⊢
  cases hmoved : (compensate tags candidates).fault? with
  | some fault => simp [hmoved, Progress.stopped] at h
  | none =>
    cases habsorbed : (absorb tags (compensate tags candidates).value).fault? with
    | some fault => simp [hmoved, habsorbed, Progress.stopped] at h
    | none => exact ⟨rfl, rfl⟩

/-- A rotation or scale of the candidates is not neutral, and the child that accepts it has none. -/
theorem turning_of_accepts (hcandidates : candidates.IsSteady)
    (haccepts : accepts candidates tags = true) (hmoved : IsCompensation candidates moved)
    {value : Data} (hturning : IsTurning tag) (hget : Entries.get? moved tag = some value) :
    isNeutral tag value = false ∧ Entries.get? tags tag = none := by
  rw [hmoved.other tag hturning.notMem_pivotTags] at hget
  refine ⟨(shows_iff.mp (hcandidates.shown tag value hget)).1, ?_⟩
  exact get?_of_accepts haccepts (Entries.mem_of_get? hget)
    (by simp [Tag.conflicts, hturning.isPivotal])

/-- Where the pivot is in use on one side of an absorption, it is in use afterwards. -/
theorem pivotUsed_of_isAbsorption (htags : tags.IsSteady) (hcandidates : candidates.IsSteady)
    (haccepts : accepts candidates tags = true) (hmoved : IsCompensation candidates moved)
    (habsorbed : IsAbsorption tags moved absorbed)
    (hused : pivotUsed tags = true ∨ pivotUsed candidates = true) : pivotUsed absorbed = true := by
  rcases hused with hused | hused
  · obtain ⟨⟨tag, value⟩, hentry, hturning, hneutral⟩ := pivotUsed_iff.mp hused
    have hget := Entries.get?_of_mem htags.nodup hentry
    have hnone : Entries.get? moved tag = none := by
      by_contra hsome
      obtain ⟨current, hcurrent⟩ := Option.ne_none_iff_exists'.mp hsome
      have hfree := (turning_of_accepts hcandidates haccepts hmoved hturning hcurrent).2
      exact absurd (hget.symm.trans hfree) (by simp)
    refine pivotUsed_of_get? ?_ hturning hneutral
    rw [habsorbed.other tag hnone]
    exact hget
  · obtain ⟨⟨tag, value⟩, hentry, hturning, hneutral⟩ := pivotUsed_iff.mp hused
    have hget := Entries.get?_of_mem hcandidates.nodup hentry
    obtain ⟨now, hnow, hkept⟩ := habsorbed.turning tag value hturning
      ((hmoved.other tag hturning.notMem_pivotTags).trans hget)
    exact pivotUsed_of_get? hnow hturning hkept

/-- What is absorbed is mentioned even after neutral values and unused pivots are gone. -/
theorem mentions_prune_of_isAbsorption (htags : tags.IsSteady) (hcandidates : candidates.IsSteady)
    (haccepts : accepts candidates tags = true) (hmoved : IsCompensation candidates moved)
    (habsorbed : IsAbsorption tags moved absorbed) {token : String}
    (htoken : token ∈ tags.tokensAt tag ∨ token ∈ candidates.tokensAt tag) :
    Tagged.Mentions (prune absorbed) token := by
  have hpivot (hfamily : family? tag = some .pivot) : pivotUsed absorbed = true := by
    refine pivotUsed_of_isAbsorption htags hcandidates haccepts hmoved habsorbed ?_
    refine htoken.imp (fun hmem ↦ ?_) fun hmem ↦ ?_
    · obtain ⟨value, hget, _⟩ := Tagged.exists_of_mem_tokensAt hmem
      exact (shows_iff.mp (htags.shown tag value hget)).2 hfamily
    · obtain ⟨value, hget, _⟩ := Tagged.exists_of_mem_tokensAt hmem
      exact (shows_iff.mp (hcandidates.shown tag value hget)).2 hfamily
  have hkept : token ∈ absorbed.tokensAt tag :=
    habsorbed.tokens tag (List.mem_append.mpr (htoken.imp_right (hmoved.tokens tag ·)))
  obtain ⟨value, hget, hmem⟩ := Tagged.exists_of_mem_tokensAt hkept
  have hfiltered : Entries.get? (prune absorbed) tag = some value :=
    Entries.get?_filter_of_accepts hget (shows_of_mem_easingTokens hmem hpivot)
  refine ⟨tag, ?_⟩
  rw [Tagged.tokensAt_of_some hfiltered]
  exact hmem

/-- What a push of candidates into the tags of a child makes of the child if it loses nothing that is
mentioned on either side. -/
structure IsSteadyPush (tags candidates merged moved : Tagged) : Prop where
  steady : merged.IsSteady
  mentions : ∀ token, tags.Mentions token ∨ candidates.Mentions token → merged.Mentions token
  contains : ∀ tag, Entries.contains candidates tag = true → Entries.contains moved tag = true

/-- A push that is allowed and meets no fault loses nothing that is mentioned. -/
theorem pushInto_isSteadyPush (htags : tags.IsSteady) (hcandidates : candidates.IsSteady)
    (hkinds : ∀ candidate ∈ candidates, candidate.1.kind ≠ .special)
    (haccepts : accepts candidates tags = true)
    (hfault : (pushInto tags candidates).fault? = none) :
    IsSteadyPush tags candidates (pushInto tags candidates).value.1
      (pushInto tags candidates).value.2 := by
  obtain ⟨habsorb, hvalue⟩ := pushInto_fault?_eq_none hfault
  rw [hvalue]
  have hmoved := compensate_isCompensation htags.toHolds hcandidates.toHolds
  have hmovedkinds := hmoved.kind_ne hkinds
  have habsorbed := absorb_isAbsorption _ tags htags.toHolds hmoved.holds hmovedkinds
    (fun tag value hturning hget ↦
      turning_of_accepts hcandidates haccepts hmoved hturning hget) habsorb
  have htagkinds (entry : Tag × Data) (hentry : entry ∈ tags) : entry.1.kind ≠ .special := by
    have haccepted := List.all_eq_true.mp haccepts entry hentry
    rw [Bool.and_eq_true] at haccepted
    exact of_decide_eq_true haccepted.1
  refine ⟨isSteady_prune habsorbed.holds (habsorbed.kind_ne htagkinds hmovedkinds),
    fun token hmentions ↦ ?_, hmoved.contains⟩
  rcases hmentions with ⟨tag, htoken⟩ | ⟨tag, htoken⟩
  · exact mentions_prune_of_isAbsorption htags hcandidates haccepts hmoved habsorbed (Or.inl htoken)
  · exact mentions_prune_of_isAbsorption htags hcandidates haccepts hmoved habsorbed (Or.inr htoken)

end Pushing

end Motion
