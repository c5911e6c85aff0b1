import Motion.Proofs.Scene.Carrying

/-!
Merging the transforms of a group into its child, to the letter. Where numbers are integers and no
binding is empty (`WholeUnder`), absorbing candidates adds or multiplies the numbers and joins the
expressions under each tag (`absorb_isWholeAbsorption`), after the shift of the child has been taken off
the pivots (`compensate_isWholeCompensation`). Neither meets a fault. A joined expression has what it was
made of as its operands (`IsOperandOf`).
-/

set_option autoImplicit false
set_option relaxedAutoImplicit false

namespace Motion

section Joining

/-- An expression as an operand, in parentheses where the operator needs them. -/
def enclosed (op : Operator) (expression : List Char) : List Char :=
  if needsParentheses (some op) expression then '(' :: expression ++ [')'] else expression

/-- The expression that joining one to another makes. An empty one is not given; taking an expression
off nothing gives its opposite. -/
def joined (op : Operator) (left right : List Char) : List Char :=
  if right = [] then left
  else if left = [] then (if op = .sub then '-' :: enclosed op right else enclosed op right)
  else enclosed op left ++ op.symbol.toList ++ enclosed op right

/-- Whether an expression is an operand of a text, which is made of it by enclosing it and by writing
operators with other texts next to it. -/
inductive IsOperandOf (expression : List Char) : List Char → Prop
  | itself : IsOperandOf expression expression
  | enclosed (op : Operator) {text : List Char} (h : IsOperandOf expression text) :
      IsOperandOf expression (enclosed op text)
  | left (op : Operator) (right : List Char) {text : List Char} (h : IsOperandOf expression text) :
      IsOperandOf expression (Motion.enclosed op text ++ op.symbol.toList ++ right)
  | right (op : Operator) (left : List Char) {text : List Char} (h : IsOperandOf expression text) :
      IsOperandOf expression (left ++ op.symbol.toList ++ Motion.enclosed op text)

variable {op : Operator} {expression left right : List Char}

/-- What an expression is taken off remains an operand. -/
theorem IsOperandOf.joined_left (h : IsOperandOf expression left) (hne : left ≠ []) :
    IsOperandOf expression (joined op left right) := by
  unfold joined
  split_ifs
  · exact h
  · exact h.left op _

/-- What is joined by addition or multiplication becomes an operand. -/
theorem IsOperandOf.joined_right (h : IsOperandOf expression right) (hne : right ≠ [])
    (hop : op ≠ .sub) : IsOperandOf expression (joined op left right) := by
  rw [joined, if_neg hne, if_neg hop]
  split_ifs
  · exact h.enclosed op
  · exact h.right op _

theorem enclosed_ne_nil (hne : expression ≠ []) : enclosed op expression ≠ [] := by
  unfold enclosed
  split_ifs
  · exact List.cons_ne_nil _ _
  · exact hne

/-- An expression that is not empty is no operand of an empty text. -/
theorem IsOperandOf.ne_nil {text : List Char} (h : IsOperandOf expression text)
    (hne : expression ≠ []) : text ≠ [] := by
  induction h with
  | itself => exact hne
  | enclosed op _ ih => exact enclosed_ne_nil ih
  | left op right _ ih => simp [enclosed_ne_nil ih]
  | right op left _ ih => simp [enclosed_ne_nil ih]

theorem isDense_enclosed (h : ∀ c ∈ expression, isDense c = true) :
    ∀ c ∈ enclosed op expression, isDense c = true := by
  unfold enclosed
  split_ifs
  · exact List.forall_mem_append.mpr ⟨List.forall_mem_cons.mpr ⟨by decide, h⟩,
      List.forall_mem_cons.mpr ⟨by decide, List.forall_mem_nil _⟩⟩
  · exact h

theorem isDense_joined (hleft : ∀ c ∈ left, isDense c = true)
    (hright : ∀ c ∈ right, isDense c = true) : ∀ c ∈ joined op left right, isDense c = true := by
  have hsymbol : ∀ c ∈ op.symbol.toList, isDense c = true := by
    cases op <;> exact List.all_eq_true.mp (by decide)
  unfold joined
  split_ifs
  · exact hleft
  · exact List.forall_mem_cons.mpr ⟨by decide, isDense_enclosed hright⟩
  · exact isDense_enclosed hright
  · exact List.forall_mem_append.mpr
      ⟨List.forall_mem_append.mpr ⟨isDense_enclosed hleft, hsymbol⟩, isDense_enclosed hright⟩

theorem joined_ne_nil (h : left ≠ [] ∨ right ≠ []) : joined op left right ≠ [] := by
  unfold joined
  split_ifs with hright hleft
  · exact h.resolve_right fun hne ↦ hne hright
  · exact List.cons_ne_nil _ _
  · exact enclosed_ne_nil hright
  · simp [enclosed_ne_nil hright]

end Joining

/-- What holds of a value under a tag where no push loses any: it is an integer, or a binding of an
expression without blanks that is not empty. -/
def WholeUnder (tag : Tag) (value : Data) : Prop :=
  match tag.kind with
  | .numeric => ∃ i : ℤ, value = .num (.int i)
  | .binding => ∃ s, value.interior? = some s ∧ (∀ c ∈ s, isDense c = true) ∧ s ≠ []
  | .special => True

theorem WholeUnder.exists_int {tag : Tag} {value : Data} (h : WholeUnder tag value)
    (hkind : tag.kind = .numeric) : ∃ i : ℤ, value = .num (.int i) := by
  unfold WholeUnder at h
  rwa [hkind] at h

theorem WholeUnder.exists_expression {tag : Tag} {value : Data} (h : WholeUnder tag value)
    (hkind : tag.kind = .binding) :
    ∃ s, value.interior? = some s ∧ (∀ c ∈ s, isDense c = true) ∧ s ≠ [] := by
  unfold WholeUnder at h
  rwa [hkind] at h

theorem wholeUnder_int {tag : Tag} (hkind : tag.kind = .numeric) (i : ℤ) :
    WholeUnder tag (.num (.int i)) := by
  unfold WholeUnder
  rw [hkind]
  exact ⟨i, rfl⟩

theorem wholeUnder_expression {tag : Tag} {value : Data} {s : List Char} (hkind : tag.kind = .binding)
    (hinterior : value.interior? = some s) (hdense : ∀ c ∈ s, isDense c = true) (hne : s ≠ []) :
    WholeUnder tag value := by
  unfold WholeUnder
  rw [hkind]
  exact ⟨s, hinterior, hdense, hne⟩

namespace Tagged

/-- The number under a tag. Where there is none, it is that which changes nothing. -/
def numberAt (tags : Tagged) (tag : Tag) : ℤ :=
  match Entries.get? tags tag with
  | some (.num (.int i)) => i
  | _ => if mergeOperator tag = .mul then 1 else 0

/-- The expression of the binding under a tag; empty where there is none. -/
def expressionAt (tags : Tagged) (tag : Tag) : List Char :=
  ((Entries.get? tags tag).bind Data.interior?).getD []

variable {tags others : Tagged} {tag : Tag}

theorem numberAt_congr (h : Entries.get? tags tag = Entries.get? others tag) :
    tags.numberAt tag = others.numberAt tag := by
  rw [numberAt, h, numberAt]

theorem expressionAt_congr (h : Entries.get? tags tag = Entries.get? others tag) :
    tags.expressionAt tag = others.expressionAt tag := by
  rw [expressionAt, h, expressionAt]

theorem numberAt_of_some {i : ℤ} (h : Entries.get? tags tag = some (.num (.int i))) :
    tags.numberAt tag = i := by
  rw [numberAt, h]

theorem numberAt_of_none (h : Entries.get? tags tag = none) :
    tags.numberAt tag = if mergeOperator tag = .mul then 1 else 0 := by
  rw [numberAt, h]

theorem expressionAt_of_some {value : Data} {s : List Char} (h : Entries.get? tags tag = some value)
    (hinterior : value.interior? = some s) : tags.expressionAt tag = s := by
  rw [expressionAt, h, Option.bind_some, hinterior, Option.getD_some]

theorem expressionAt_of_none (h : Entries.get? tags tag = none) : tags.expressionAt tag = [] := by
  rw [expressionAt, h]
  rfl

end Tagged

section Merging

variable {tags others merged : Tagged} {tag source : Tag} {value : Data} {op : Option Operator}

theorem WholeUnder.congr (h : WholeUnder tag value) (hkind : source.kind = tag.kind) :
    WholeUnder source value := by
  unfold WholeUnder at h ⊢
  rwa [hkind]

theorem mergeOperator_ne_sub (tag : Tag) : mergeOperator tag ≠ .sub := by
  rcases mergeOperator_eq tag with ⟨h, -⟩ | ⟨h, -⟩ <;> simp [h]

/-- What merging into one tag what is under another makes of whole tags. -/
structure IsWholeMerge (op : Operator) (tags : Tagged) (tag : Tag) (others : Tagged) (source : Tag)
    (merged : Tagged) : Prop where
  holds : merged.Holds WholeUnder
  other : ∀ other, other ≠ tag → Entries.get? merged other = Entries.get? tags other
  contains : Entries.contains tags tag = true → Entries.contains merged tag = true
  number : tag.kind = .numeric →
    merged.numberAt tag = op.exact (tags.numberAt tag) (others.numberAt source)
  expression : tag.kind = .binding →
    merged.expressionAt tag = joined op (tags.expressionAt tag) (others.expressionAt source)

/-- A number merges into a number, or into what changes nothing. -/
theorem mergeNumber_eq_put (htags : tags.Holds WholeUnder) (hkind : tag.kind = .numeric)
    (hop : Fits op tag) (i : ℤ) : mergeNumber tags tag (.num (.int i)) op =
      .ok (Entries.put tags tag
        (.num (.int ((op.getD (mergeOperator tag)).exact (tags.numberAt tag) i)))) := by
  cases hget : Entries.get? tags tag with
  | none =>
    have hdefault : (if op.getD (mergeOperator tag) = .mul then 1 else 0 : ℤ) =
        if mergeOperator tag = .mul then 1 else 0 := by
      have hfits := (Fits.neutral_eq hop).symm.trans (Fits.neutral_eq (Or.inl rfl))
      exact_mod_cast hfits
    rw [mergeNumber_absent hget hop.ne_div, Tagged.numberAt_of_none hget, hdefault]
  | some current =>
    obtain ⟨j, rfl⟩ := (htags.holds tag current hget).exists_int hkind
    rw [mergeNumber_present hget hop.ne_div, Tagged.numberAt_of_some hget]

theorem operandText_eq_enclosed {s : List Char} (hinterior : value.interior? = some s)
    (hdense : ∀ c ∈ s, isDense c = true) (operator : Operator) :
    operandText value (some operator) = enclosed operator s := by
  rw [operandText, Data.bareExpression?_of_interior? hinterior]
  dsimp only
  rw [removeBlanks_of_isDense hdense, enclosed]

/-- An expression is joined to the one under a tag, or to none. -/
theorem mergeText_eq_put (htags : tags.Holds WholeUnder) (hkind : tag.kind = .binding)
    {s : List Char} (hinterior : value.interior? = some s) (hdense : ∀ c ∈ s, isDense c = true)
    (hne : s ≠ []) : mergeText tags tag value op = .ok (Entries.put tags tag (.str (Scalar.binding
      (String.ofList (joined (op.getD (mergeOperator tag)) (tags.expressionAt tag) s))))) := by
  have husable (h : isWritableOperand ((Entries.get? tags tag).getD .null) = true) :
      mergeText tags tag value op = .ok (joinText tags tag value op) := by
    rw [mergeText, h, Data.isWritableOperand_of_interior? hinterior]
    rfl
  have hoperand := operandText_eq_enclosed hinterior hdense (op.getD (mergeOperator tag))
  have hsome : operandText value (some (op.getD (mergeOperator tag))) ≠ [] := by
    rw [hoperand]
    exact enclosed_ne_nil hne
  rw [joined, if_neg hne]
  cases hget : Entries.get? tags tag with
  | none =>
    rw [husable (by rw [hget]; rfl), joinText_of_none hget hsome, hoperand,
      Tagged.expressionAt_of_none hget, if_pos rfl]
  | some current =>
    obtain ⟨t, htext, hblanks, hpresent⟩ := (htags.holds tag current hget).exists_expression hkind
    have hcurrent := operandText_eq_enclosed htext hblanks (op.getD (mergeOperator tag))
    have hthere : operandText current (some (op.getD (mergeOperator tag))) ≠ [] := by
      rw [hcurrent]
      exact enclosed_ne_nil hpresent
    rw [husable (by rw [hget]; exact Data.isWritableOperand_of_interior? htext),
      joinText_of_some hget (Data.isTruthy_of_interior? htext) hthere hsome, hoperand, hcurrent,
      Tagged.expressionAt_of_some hget htext, if_neg hpresent]

theorem Tagged.isDense_expressionAt (htags : tags.Holds WholeUnder) (hkind : tag.kind = .binding) :
    ∀ c ∈ tags.expressionAt tag, isDense c = true := by
  cases hget : Entries.get? tags tag with
  | none =>
    rw [expressionAt_of_none hget]
    exact List.forall_mem_nil _
  | some current =>
    obtain ⟨s, hinterior, hdense, -⟩ := (htags.holds tag current hget).exists_expression hkind
    rwa [expressionAt_of_some hget hinterior]

theorem isWholeMerge_put (htags : tags.Holds WholeUnder) {made : Data} (hmade : WholeUnder tag made)
    {operator : Operator} (hnumber : tag.kind = .numeric →
      Tagged.numberAt (Entries.put tags tag made) tag =
        operator.exact (tags.numberAt tag) (others.numberAt source))
    (hexpression : tag.kind = .binding → Tagged.expressionAt (Entries.put tags tag made) tag =
      joined operator (tags.expressionAt tag) (others.expressionAt source)) :
    IsWholeMerge operator tags tag others source (Entries.put tags tag made) where
  holds := htags.put hmade
  other := fun _ hother ↦ Entries.get?_put_of_ne (Ne.symm hother) tags made
  contains := fun _ ↦ by simp [Entries.contains_put]
  number := hnumber
  expression := hexpression

/-- A whole value of the kind of a tag merges into what is under it, or into nothing. -/
theorem merge_isWholeMerge (htags : tags.Holds WholeUnder) (hvalue : WholeUnder tag value)
    (hkind : tag.kind ≠ .special) (hget : Entries.get? others source = some value)
    (hop : Fits op tag) :
    ∃ merged, (if tag.kind = .numeric then mergeNumber tags tag value op
        else mergeText tags tag value op) = .ok merged ∧
      IsWholeMerge (op.getD (mergeOperator tag)) tags tag others source merged := by
  cases htag : tag.kind with
  | numeric =>
    obtain ⟨i, rfl⟩ := hvalue.exists_int htag
    refine ⟨_, by rw [if_pos rfl, mergeNumber_eq_put htags htag hop], ?_⟩
    refine isWholeMerge_put htags (wholeUnder_int htag _) (fun _ ↦ ?_)
      fun hbinding ↦ (by simp [htag] at hbinding)
    rw [Tagged.numberAt_of_some (Entries.get?_put_self ..), Tagged.numberAt_of_some hget]
  | binding =>
    obtain ⟨s, hinterior, hdense, hne⟩ := hvalue.exists_expression htag
    have hall : ∀ c ∈ joined (op.getD (mergeOperator tag)) (tags.expressionAt tag) s,
        isDense c = true := isDense_joined (Tagged.isDense_expressionAt htags htag) hdense
    obtain ⟨hmade, -⟩ := Data.easingTokens_binding hall
    refine ⟨_, by rw [if_neg (by decide), mergeText_eq_put htags htag hinterior hdense hne], ?_⟩
    refine isWholeMerge_put htags (wholeUnder_expression htag hmade hall (joined_ne_nil (Or.inr hne)))
      (fun hnumeric ↦ (by simp [htag] at hnumeric)) fun _ ↦ ?_
    rw [Tagged.expressionAt_of_some (Entries.get?_put_self ..) hmade,
      Tagged.expressionAt_of_some hget hinterior]
  | special => exact absurd htag hkind

/-- Where there is nothing to merge, a whole merge leaves the tags as they are. -/
theorem isWholeMerge_self (htags : tags.Holds WholeUnder) {operator : Operator}
    (hnone : Entries.get? others source = none)
    (hidentity : operator.exact (tags.numberAt tag) (others.numberAt source) = tags.numberAt tag) :
    IsWholeMerge operator tags tag others source tags where
  holds := htags
  other := fun _ _ ↦ rfl
  contains := id
  number := fun _ ↦ hidentity.symm
  expression := fun _ ↦ by rw [Tagged.expressionAt_of_none hnone, joined, if_pos rfl]

end Merging

section Absorbing

variable {tags candidates merged : Tagged} {tag : Tag} {value : Data}

/-- What absorbing candidates makes of whole tags. -/
structure IsWholeAbsorption (tags candidates merged : Tagged) : Prop where
  holds : merged.Holds WholeUnder
  number : ∀ tag : Tag, tag.kind = .numeric → merged.numberAt tag =
    (mergeOperator tag).exact (tags.numberAt tag) (candidates.numberAt tag)
  expression : ∀ tag : Tag, tag.kind = .binding → merged.expressionAt tag =
    joined (mergeOperator tag) (tags.expressionAt tag) (candidates.expressionAt tag)

theorem exact_numberAt_of_none (h : Entries.get? candidates tag = none) (i : ℤ) :
    (mergeOperator tag).exact i (candidates.numberAt tag) = i := by
  rw [Tagged.numberAt_of_none h]
  rcases mergeOperator_eq tag with ⟨hop, -⟩ | ⟨hop, -⟩ <;> simp [hop, Operator.exact]

theorem joined_expressionAt_of_none (h : Entries.get? candidates tag = none) (op : Operator)
    (left : List Char) : joined op left (candidates.expressionAt tag) = left := by
  rw [Tagged.expressionAt_of_none h, joined, if_pos rfl]

/-- One candidate is merged, and then the rest is absorbed. -/
theorem IsWholeAbsorption.cons {first rest : Tagged} (habsent : Entries.get? rest tag = none)
    (hmerge : IsWholeMerge (mergeOperator tag) tags tag ((tag, value) :: rest) tag first)
    (hrest : IsWholeAbsorption first rest merged) : IsWholeAbsorption tags ((tag, value) :: rest) merged := by
  have hothers (other : Tag) (hne : other ≠ tag) :
      Entries.get? ((tag, value) :: rest) other = Entries.get? rest other := by
    rw [Entries.get?_cons, if_neg (Ne.symm hne)]
  refine ⟨hrest.holds, fun other hkind ↦ ?_, fun other hkind ↦ ?_⟩
  · rw [hrest.number other hkind]
    by_cases hne : other = tag
    · subst hne
      rw [exact_numberAt_of_none habsent, hmerge.number hkind]
    · rw [Tagged.numberAt_congr (hmerge.other other hne), Tagged.numberAt_congr (hothers other hne)]
  · rw [hrest.expression other hkind]
    by_cases hne : other = tag
    · subst hne
      rw [joined_expressionAt_of_none habsent, hmerge.expression hkind]
    · rw [Tagged.expressionAt_congr (hmerge.other other hne),
        Tagged.expressionAt_congr (hothers other hne)]

/-- Absorbing whole candidates merges them into the tags one by one. -/
theorem absorb_isWholeAbsorption : ∀ (candidates tags : Tagged), tags.Holds WholeUnder →
    candidates.Holds WholeUnder → (∀ entry ∈ candidates, entry.1.kind ≠ .special) →
      ∃ merged, absorb tags candidates = .done merged ∧ IsWholeAbsorption tags candidates merged
  | [], tags, htags, _, _ => ⟨tags, rfl, htags,
      fun _ _ ↦ (exact_numberAt_of_none rfl _).symm,
      fun _ _ ↦ (joined_expressionAt_of_none rfl _ _).symm⟩
  | (tag, value) :: rest, tags, htags, hcandidates, hkinds => by
    obtain ⟨hvalue, habsent, hrest⟩ := hcandidates.of_cons
    have hkind := hkinds _ List.mem_cons_self
    have hget : Entries.get? ((tag, value) :: rest) tag = some value := by
      rw [Entries.get?_cons, if_pos rfl]
    obtain ⟨first, hfirst, hmerge⟩ := merge_isWholeMerge htags hvalue hkind hget (Or.inl rfl)
    obtain ⟨merged, hdone, habsorbed⟩ := absorb_isWholeAbsorption rest first hmerge.holds hrest
      fun entry hentry ↦ hkinds entry (List.mem_cons_of_mem _ hentry)
    refine ⟨merged, ?_, habsorbed.cons habsent hmerge⟩
    rw [absorb_cons_eq hkind, hfirst]
    exact hdone

end Absorbing

section Compensating

variable {child candidates moved : Tagged} {pivots : List Tag}

/-- Whether compensation moves what candidates have under a tag: some candidate acts about the pivot,
and the tag is that of a pivot. -/
def IsMovable (candidates : Tagged) (tag : Tag) : Prop :=
  candidates.isPivotal = true ∧ tag ∈ pivotTags

instance (candidates : Tagged) (tag : Tag) : Decidable (IsMovable candidates tag) :=
  inferInstanceAs (Decidable (_ ∧ _))

/-- What compensation makes of whole candidates if it moves some pivots. -/
structure IsWholeMove (child candidates : Tagged) (pivots : List Tag) (moved : Tagged) : Prop where
  holds : moved.Holds WholeUnder
  other : ∀ tag, tag ∉ pivots → Entries.get? moved tag = Entries.get? candidates tag
  contains : ∀ tag, Entries.contains candidates tag = true → Entries.contains moved tag = true
  number : ∀ tag ∈ pivots, tag.kind = .numeric →
    moved.numberAt tag = candidates.numberAt tag - child.numberAt tag.shift
  expression : ∀ tag ∈ pivots, tag.kind = .binding → moved.expressionAt tag =
    joined .sub (candidates.expressionAt tag) (child.expressionAt tag.shift)

theorem isWholeMove_nil (h : candidates.Holds WholeUnder) :
    IsWholeMove child candidates [] candidates where
  holds := h
  other := fun _ _ ↦ rfl
  contains := fun _ ↦ id
  number := fun _ hmem ↦ absurd hmem List.not_mem_nil
  expression := fun _ hmem ↦ absurd hmem List.not_mem_nil

/-- One more pivot is moved by merging the shift into it. -/
theorem IsWholeMove.move (h : IsWholeMove child candidates pivots moved) {tag : Tag}
    (hnew : tag ∉ pivots) {next : Tagged}
    (hmerge : IsWholeMerge .sub moved tag child tag.shift next) :
    IsWholeMove child candidates (tag :: pivots) next where
  holds := hmerge.holds
  other := by
    intro other hmem
    rw [List.mem_cons, not_or] at hmem
    rw [hmerge.other other hmem.1, h.other other hmem.2]
  contains := by
    intro other hother
    have hmoved := h.contains other hother
    by_cases hne : other = tag
    · subst hne
      exact hmerge.contains hmoved
    · rwa [Entries.contains_congr (hmerge.other other hne)]
  number := by
    intro other hmem hkind
    by_cases hne : other = tag
    · subst hne
      rw [hmerge.number hkind, Tagged.numberAt_congr (h.other other hnew)]
      rfl
    · rw [Tagged.numberAt_congr (hmerge.other other hne)]
      exact h.number other ((List.mem_cons.mp hmem).resolve_left hne) hkind
  expression := by
    intro other hmem hkind
    by_cases hne : other = tag
    · subst hne
      rw [hmerge.expression hkind, Tagged.expressionAt_congr (h.other other hnew)]
    · rw [Tagged.expressionAt_congr (hmerge.other other hne)]
      exact h.expression other ((List.mem_cons.mp hmem).resolve_left hne) hkind

/-- The shift of a whole child is merged into a pivot, if there is one. -/
theorem mergeShift_isWholeMerge (hchild : child.Holds WholeUnder) (hmoved : moved.Holds WholeUnder)
    {tag : Tag} (htag : tag ∈ pivotTags) :
    ∃ next, mergeShift child moved tag = .ok next ∧
      IsWholeMerge .sub moved tag child tag.shift next := by
  obtain ⟨-, hkind, -, hneutral, hshift⟩ := pivotTags_spec htag
  unfold mergeShift
  cases hget : Entries.get? child tag.shift with
  | none =>
    have hnumber : child.numberAt tag.shift = 0 := by
      rw [Tagged.numberAt_of_none hget]
      have hdefault := (@Fits.neutral_eq _ _ tag.shift none (Or.inl rfl)).symm.trans hshift
      exact_mod_cast hdefault
    refine ⟨moved, rfl, isWholeMerge_self hmoved hget ?_⟩
    rw [hnumber]
    exact sub_zero _
  | some value =>
    exact merge_isWholeMerge hmoved ((hchild.holds tag.shift value hget).congr rfl) hkind hget
      (Or.inr ⟨rfl, hneutral⟩)

/-- What compensation makes of whole candidates: a shift of the child is taken off each pivot. -/
structure IsWholeCompensation (child candidates moved : Tagged) : Prop where
  holds : moved.Holds WholeUnder
  contains : ∀ tag, Entries.contains candidates tag = true → Entries.contains moved tag = true
  number : ∀ tag : Tag, tag.kind = .numeric → moved.numberAt tag = candidates.numberAt tag -
    if IsMovable candidates tag then child.numberAt tag.shift else 0
  expression : ∀ tag : Tag, tag.kind = .binding → moved.expressionAt tag =
    joined .sub (candidates.expressionAt tag)
      (if IsMovable candidates tag then child.expressionAt tag.shift else [])

theorem compensate_isWholeCompensation (hchild : child.Holds WholeUnder)
    (hcandidates : candidates.Holds WholeUnder) :
    ∃ moved, compensate child candidates = .done moved ∧ IsWholeCompensation child candidates moved := by
  by_cases hpivotal : candidates.isPivotal = true
  · obtain ⟨moved, hmoved, hspec⟩ := moveEach_eq_done (isWholeMove_nil hcandidates)
      fun tag rest moved htag hnew (h : IsWholeMove child candidates rest moved) ↦ by
        obtain ⟨next, hnext, hmerge⟩ := mergeShift_isWholeMerge hchild h.holds htag
        exact ⟨next, hnext, h.move hnew hmerge⟩
    refine ⟨moved, (compensate_eq child hpivotal).trans hmoved, hspec.holds, hspec.contains,
      fun tag hkind ↦ ?_, fun tag hkind ↦ ?_⟩
    · by_cases htag : tag ∈ pivotTags
      · rw [if_pos ⟨hpivotal, htag⟩, hspec.number tag htag hkind]
      · rw [if_neg fun h ↦ htag h.2, sub_zero, Tagged.numberAt_congr (hspec.other tag htag)]
    · by_cases htag : tag ∈ pivotTags
      · rw [if_pos ⟨hpivotal, htag⟩, hspec.expression tag htag hkind]
      · rw [if_neg fun h ↦ htag h.2, joined, if_pos rfl,
          Tagged.expressionAt_congr (hspec.other tag htag)]
  · refine ⟨candidates, ?_, hcandidates, fun _ ↦ id, fun tag _ ↦ ?_, fun tag _ ↦ ?_⟩
    · exact if_neg hpivotal
    · rw [if_neg fun h ↦ hpivotal h.1, sub_zero]
    · rw [if_neg fun h ↦ hpivotal h.1, joined, if_pos rfl]

end Compensating

end Motion
