import Motion.Proofs.Scene.Amount
import Motion.Proofs.Scene.Walk

/-!
What merging does to the readings of a map. A number merges into numbers and a number or binding
into bindings; the result amounts to what the operator makes of the old reading and the new value
(`IsMergeOf`), and its size is at most the product of both sizes. No merge fails, except that an
integer with too many digits is not written into a binding.
-/

set_option autoImplicit false
set_option relaxedAutoImplicit false

namespace Motion

/-- The operation of an operator on integers; there is none for division. -/
def Operator.exact : Operator → ℤ → ℤ → ℤ
  | .add, i, j => i + j
  | .sub, i, j => i - j
  | .mul, i, j => i * j
  | .div, i, _ => i

theorem Operator.cast_exact {op : Operator} (h : op ≠ .div) (i j : ℤ) :
    (op.exact i j : ℚ) = op.apply i j := by
  cases op with
  | add => exact Int.cast_add i j
  | sub => exact Int.cast_sub i j
  | mul => exact Int.cast_mul i j
  | div => exact absurd rfl h

/-- One more than a magnitude grows at most by multiplication. -/
theorem Operator.natAbs_exact {op : Operator} (h : op ≠ .div) (i j : ℤ) :
    (op.exact i j).natAbs + 1 ≤ (i.natAbs + 1) * (j.natAbs + 1) := by
  have hproduct : (i.natAbs + 1) * (j.natAbs + 1) =
      i.natAbs * j.natAbs + i.natAbs + j.natAbs + 1 := by ring
  rw [hproduct]
  cases op with
  | add =>
    have hsum := Int.natAbs_add_le i j
    rw [exact]
    omega
  | sub =>
    have hdifference := Int.natAbs_sub_le i j
    rw [exact]
    omega
  | mul =>
    rw [exact, Int.natAbs_mul]
    omega
  | div => exact absurd rfl h

section Merging

variable {κ : Type} [DecidableEq κ] [HasFamily κ] {entries : Entries κ Data} {key : κ}

/-- An operator fits a key where it is that of the key, or where it takes a value off something that
counts as zero where nothing is given. -/
def Fits (op : Option Operator) (key : κ) : Prop :=
  op = none ∨ op = some .sub ∧ neutral key = 0

/-- What merging a value into the one under a key makes. -/
structure IsMergeOf (entries : Entries κ Data) (key : κ) (op : Option Operator) (kind : Kind)
    (value merged : Data) : Prop where
  isOf : merged.IsOf kind
  amount : ∀ env, merged.amount env =
    (op.getD (mergeOperator key)).apply (reading env entries key) (value.amount env)
  size : merged.size ≤ sizeAt entries key * value.size

omit [DecidableEq κ] in
theorem Fits.ne_div {op : Option Operator} (h : Fits op key) :
    op.getD (mergeOperator key) ≠ .div := by
  rcases h with rfl | ⟨rfl, -⟩
  · rcases mergeOperator_eq key with ⟨hop, -⟩ | ⟨hop, -⟩ <;> simp [hop]
  · simp

theorem mergeNumber_present {i j : ℤ} (h : Entries.get? entries key = some (.num (.int j)))
    {op : Option Operator} (hop : op.getD (mergeOperator key) ≠ .div) :
    mergeNumber entries key (.num (.int i)) op =
      .ok (Entries.put entries key (.num (.int ((op.getD (mergeOperator key)).exact j i)))) := by
  rw [mergeNumber, present?, h]
  generalize op.getD (mergeOperator key) = operator at hop ⊢
  cases operator with
  | div => exact absurd rfl hop
  | _ => rfl

theorem mergeNumber_absent {i : ℤ} (h : Entries.get? entries key = none) {op : Option Operator}
    (hop : op.getD (mergeOperator key) ≠ .div) :
    mergeNumber entries key (.num (.int i)) op =
      .ok (Entries.put entries key (.num (.int ((op.getD (mergeOperator key)).exact
        (if op.getD (mergeOperator key) = .mul then 1 else 0) i)))) := by
  rw [mergeNumber, present?, h]
  generalize op.getD (mergeOperator key) = operator at hop ⊢
  cases operator with
  | div => exact absurd rfl hop
  | _ => rfl

omit [DecidableEq κ] in
theorem Fits.neutral_eq {op : Option Operator} (h : Fits op key) :
    neutral key = ((if op.getD (mergeOperator key) = .mul then 1 else 0 : ℤ) : ℚ) := by
  rcases h with rfl | ⟨rfl, hneutral⟩
  · rcases mergeOperator_eq key with ⟨hop, hneutral⟩ | ⟨hop, hneutral⟩ <;> simp [hop, hneutral]
  · simp [hneutral]

/-- A number merges into a number or into nothing. -/
theorem mergeNumber_eq_ok {value : Data}
    (hcurrent : ∀ current, Entries.get? entries key = some current → current.IsOf .numeric)
    (hvalue : value.IsOf .numeric) {op : Option Operator} (hop : Fits op key) :
    ∃ merged, mergeNumber entries key value op = .ok (Entries.put entries key merged) ∧
      IsMergeOf entries key op .numeric value merged := by
  obtain ⟨i, rfl⟩ := hvalue
  have hdiv := hop.ne_div
  have hamount (k : ℤ) (env : Assignment) : (Data.num (.int k)).amount env = k :=
    Data.amount_of_expression? (Data.expression?_of_number? (Data.number?_int k)) env
  have hsize (k : ℤ) : (Data.num (.int k)).size = k.natAbs + 1 :=
    Data.size_of_number? (Data.number?_int k)
  cases hget : Entries.get? entries key with
  | none =>
    refine ⟨_, mergeNumber_absent hget hdiv, ⟨_, rfl⟩, fun env ↦ ?_, ?_⟩
    · rw [hamount, hamount, reading_of_none hget, hop.neutral_eq, Operator.cast_exact hdiv]
    · rw [hsize, hsize, sizeAt, hget, Option.elim_none, one_mul]
      generalize op.getD (mergeOperator key) = operator at hdiv ⊢
      cases operator with
      | div => exact absurd rfl hdiv
      | _ => simp [Operator.exact]
  | some current =>
    obtain ⟨j, rfl⟩ := hcurrent current hget
    refine ⟨_, mergeNumber_present hget hdiv, ⟨_, rfl⟩, fun env ↦ ?_, ?_⟩
    · rw [hamount, hamount, reading_of_some hget rfl, hamount, Operator.cast_exact hdiv]
    · rw [hsize, hsize, sizeAt, hget, Option.elim_some, hsize]
      exact Operator.natAbs_exact hdiv j i

theorem Data.IsOf.isWritableOperand {value : Data} (h : value.IsOf .binding) :
    isWritableOperand value = true := by
  obtain ⟨e, s, hs, -⟩ := h
  exact isWritableOperand_of_interior? hs

/-- A value that can be written merges into a binding or into nothing. -/
theorem mergeText_eq_ok {value : Data}
    (hcurrent : ∀ current, Entries.get? entries key = some current → current.IsOf .binding)
    {kind : Kind} (hvalue : value.IsOf kind) (hkind : kind ≠ .special)
    (hwritable : isWritableOperand value = true) {op : Option Operator} (hop : Fits op key) :
    ∃ merged, mergeText entries key value op = .ok (Entries.put entries key merged) ∧
      IsMergeOf entries key op .binding value merged := by
  have hstands := hvalue.standsFor hkind
  have hsize (merged : Data) (e : Expression) (hmerged : merged.IsBindingOf e) :
      merged.size ≤ sizeAt entries key * value.size := by
    rw [hmerged.size]
    exact Nat.mul_pos (one_le_sizeAt entries key) value.one_le_size
  have husable (h : isWritableOperand ((Entries.get? entries key).getD .null) = true) :
      mergeText entries key value op = .ok (joinText entries key value op) := by
    rw [mergeText, h, hwritable]
    rfl
  cases hget : Entries.get? entries key with
  | none =>
    obtain ⟨merged, e, hjoin, hmerged, heval⟩ :=
      joinText_absent (present?_of_get?_eq_none hget) hstands op
    refine ⟨merged, ?_, ⟨e, hmerged⟩, fun env ↦ ?_, hsize merged e hmerged⟩
    · rw [husable (by rw [hget]; rfl), hjoin]
    · rw [Data.amount_of_expression? hmerged.expression?, heval, reading_of_none hget]
      rcases hop with rfl | ⟨rfl, hneutral⟩
      · have hsub : mergeOperator key ≠ .sub := by
          rcases mergeOperator_eq key with ⟨hop, -⟩ | ⟨hop, -⟩ <;> simp [hop]
        rw [Option.getD_none, if_neg hsub, apply_neutral_left]
      · rw [Option.getD_some, if_pos rfl, hneutral]
        exact (zero_sub _).symm
  | some current =>
    have hbinding := hcurrent current hget
    obtain ⟨left, hleft⟩ := hcurrent current hget
    obtain ⟨merged, e, hjoin, hmerged, heval⟩ := joinText_present hget hleft hstands hop.ne_div
    refine ⟨merged, ?_, ⟨e, hmerged⟩, fun env ↦ ?_, hsize merged e hmerged⟩
    · rw [husable (by rw [hget]; exact hbinding.isWritableOperand), hjoin]
    · rw [Data.amount_of_expression? hmerged.expression?, heval,
        reading_of_some hget hbinding.isNull, Data.amount_of_expression? hleft.expression?]

end Merging

/-- Tags that take part in merging: each is there once, and it holds a number or a binding. -/
structure Tagged.IsMergeable (tags : Tagged) : Prop where
  nodup : (Entries.keys tags).Nodup
  isOf : ∀ tag value, Entries.get? tags tag = some value → value.IsOf tag.kind
  kind : ∀ tag value, Entries.get? tags tag = some value → tag.kind ≠ .special

section Absorbing

variable {tags : Tagged}

theorem Tagged.IsMergeable.put (h : IsMergeable tags) {tag : Tag} {value : Data}
    (hvalue : value.IsOf tag.kind) (hkind : tag.kind ≠ .special) :
    IsMergeable (Entries.put tags tag value) where
  nodup := Entries.nodup_keys_put h.nodup tag value
  isOf := by
    intro other current hget
    rw [Entries.get?_put] at hget
    split_ifs at hget with hother
    · cases hget
      rwa [← hother]
    · exact h.isOf other current hget
  kind := by
    intro other current hget
    rw [Entries.get?_put] at hget
    split_ifs at hget with hother
    · rwa [← hother]
    · exact h.kind other current hget

/-- The first of some mergeable tags, and the others. -/
theorem Tagged.IsMergeable.of_cons {tag : Tag} {value : Data} {rest : Tagged}
    (h : IsMergeable ((tag, value) :: rest)) :
    value.IsOf tag.kind ∧ tag.kind ≠ .special ∧ Entries.get? rest tag = none ∧ IsMergeable rest := by
  have hfirst : Entries.get? ((tag, value) :: rest) tag = some value := by
    rw [Entries.get?_cons, if_pos rfl]
  obtain ⟨habsent, hnodup, hrest⟩ := Entries.of_nodup_cons h.nodup
  exact ⟨h.isOf tag value hfirst, h.kind tag value hfirst, habsent, hnodup,
    fun other current hget ↦ h.isOf other current (hrest other current hget),
    fun other current hget ↦ h.kind other current (hrest other current hget)⟩

theorem reading_cons {env : Assignment} {tag : Tag} {value : Data} (hnull : value.isNull = false)
    (rest : Tagged) (other : Tag) : reading env ((tag, value) :: rest) other =
      if tag = other then value.amount env else reading env rest other := by
  have hget := Entries.get?_cons (tag, value) rest other
  split_ifs with h
  · rw [if_pos h] at hget
    exact reading_of_some hget hnull
  · rw [if_neg h] at hget
    exact reading_congr hget

theorem sizeAt_cons (tag : Tag) (value : Data) (rest : Tagged) (other : Tag) :
    sizeAt ((tag, value) :: rest) other = if tag = other then value.size else sizeAt rest other := by
  rw [sizeAt, Entries.get?_cons]
  split_ifs
  · rfl
  · rfl

/-- Absorbing goes on with the first candidate merged into the tags. -/
theorem absorb_cons (htags : tags.IsMergeable) {tag : Tag} {value : Data}
    (hvalue : value.IsOf tag.kind) (hkind : tag.kind ≠ .special) (rest : Tagged) :
    ∃ merged, absorb tags ((tag, value) :: rest) = absorb (Entries.put tags tag merged) rest ∧
      IsMergeOf tags tag none tag.kind value merged := by
  obtain ⟨property, kind⟩ := tag
  cases kind with
  | numeric =>
    obtain ⟨merged, hok, hmerged⟩ :=
      mergeNumber_eq_ok (htags.isOf ⟨property, .numeric⟩) hvalue (Or.inl rfl)
    exact ⟨merged, by rw [absorb, hok]; rfl, hmerged⟩
  | binding =>
    obtain ⟨merged, hok, hmerged⟩ := mergeText_eq_ok (htags.isOf ⟨property, .binding⟩) hvalue hkind
      hvalue.isWritableOperand (Or.inl rfl)
    exact ⟨merged, by rw [absorb, hok]; rfl, hmerged⟩
  | special => exact absurd rfl hkind

/-- What absorbing candidates makes of the tags. -/
structure IsAbsorbed (tags candidates merged : Tagged) : Prop where
  mergeable : merged.IsMergeable
  reading : ∀ env tag, reading env merged tag =
    (mergeOperator tag).apply (reading env tags tag) (reading env candidates tag)
  contains : ∀ tag, Entries.contains merged tag =
    (Entries.contains tags tag || Entries.contains candidates tag)
  size : ∀ tag, sizeAt merged tag ≤ sizeAt tags tag * sizeAt candidates tag

/-- Absorbing candidates merges them into the tags key by key. -/
theorem absorb_eq_done : ∀ (candidates tags : Tagged), tags.IsMergeable → candidates.IsMergeable →
    ∃ merged, absorb tags candidates = .done merged ∧ IsAbsorbed tags candidates merged
  | [], tags, htags, _ => by
    refine ⟨tags, rfl, htags, fun env tag ↦ ?_, fun tag ↦ ?_, fun tag ↦ ?_⟩
    · have hnone : reading env ([] : Tagged) tag = neutral tag := reading_of_none rfl
      rw [hnone, apply_neutral_right]
    · exact (Bool.or_false _).symm
    · exact (Nat.mul_one _).ge
  | (tag, value) :: rest, tags, htags, hcandidates => by
    obtain ⟨hvalue, hkind, habsent, hrest⟩ := hcandidates.of_cons
    obtain ⟨first, hfirst, hmerge⟩ := absorb_cons htags hvalue hkind rest
    obtain ⟨merged, hdone, habsorbed⟩ :=
      absorb_eq_done rest _ (htags.put hmerge.isOf hkind) hrest
    refine ⟨merged, hfirst.trans hdone, habsorbed.mergeable, fun env other ↦ ?_, fun other ↦ ?_,
      fun other ↦ ?_⟩
    · rw [habsorbed.reading, reading_put hmerge.isOf.isNull, reading_cons hvalue.isNull]
      split_ifs with h
      · subst h
        rw [hmerge.amount, reading_of_none habsent, apply_neutral_right]
        rfl
      · rfl
    · rw [habsorbed.contains, Entries.contains_put, Entries.contains, Entries.contains,
        Entries.contains, List.any_cons]
      by_cases h : tag = other <;> simp [h]
    · have hother := habsorbed.size other
      rw [sizeAt_put] at hother
      rw [sizeAt_cons]
      split_ifs at hother ⊢ with h
      · subst h
        rw [sizeAt_of_none habsent, Nat.mul_one] at hother
        exact hother.trans hmerge.size
      · exact hother

end Absorbing

section Compensating

/-- The tag of the shift that moves a pivot. -/
def Tag.shift (tag : Tag) : Tag :=
  ⟨if tag.property = .pivotX then .translateX else .translateY, tag.kind⟩

/-- Both pivots, as numbers and as bindings. -/
def pivotTags : List Tag :=
  [⟨.pivotY, .binding⟩, ⟨.pivotY, .numeric⟩, ⟨.pivotX, .binding⟩, ⟨.pivotX, .numeric⟩]

/-- What holds of the pivots: neither they nor the shifts that move them take part in products. -/
theorem pivotTags_spec {tag : Tag} (h : tag ∈ pivotTags) :
    tag.isPivotal = true ∧ tag.kind ≠ .special ∧ tag.property ≠ .clipPath ∧
      neutral tag = 0 ∧ neutral tag.shift = 0 := by
  simp only [pivotTags, List.mem_cons, List.not_mem_nil, or_false] at h
  rcases h with rfl | rfl | rfl | rfl <;> exact ⟨rfl, by decide, by decide, rfl, rfl⟩

variable {child candidates moved : Tagged} {pivots : List Tag}

/-- Takes the shift of a child, if it has one under the tag, off a pivot of the candidates. -/
def mergeShift (child candidates : Tagged) (tag : Tag) : Except Fault Tagged :=
  (Entries.get? child tag.shift).elim (.ok candidates) fun value ↦
    if tag.kind = .numeric then mergeNumber candidates tag value (some .sub)
    else mergeText candidates tag value (some .sub)

/-- Goes on with a compensation by moving pivots, the last of the list first. -/
def moveEach (child candidates : Tagged) (pivots : List Tag) : Progress Tagged :=
  pivots.foldr (fun tag walk ↦ walk.andThen fun moved ↦ .ofExcept moved (mergeShift child moved tag))
    (.done candidates)

theorem moveEach_cons (child candidates : Tagged) (tag : Tag) (rest : List Tag) :
    moveEach child candidates (tag :: rest) = (moveEach child candidates rest).andThen fun moved ↦
      .ofExcept moved (mergeShift child moved tag) :=
  rfl

theorem compensateAxis_eq (child candidates : Tagged) {pivot translate : Property}
    (h : ∀ kind, (⟨pivot, kind⟩ : Tag).shift = ⟨translate, kind⟩) :
    compensateAxis child candidates pivot translate =
      (Progress.ofExcept candidates (mergeShift child candidates ⟨pivot, .numeric⟩)).andThen
        fun moved ↦ .ofExcept moved (mergeShift child moved ⟨pivot, .binding⟩) := by
  unfold compensateAxis mergeShift
  rw [h, h]
  cases Entries.get? child ⟨translate, .numeric⟩ <;>
    cases Entries.get? child ⟨translate, .binding⟩ <;> rfl

/-- Where some candidate acts about the pivot, compensation moves all pivots. -/
theorem compensate_eq (child : Tagged)
    (hpivotal : (candidates.any fun candidate ↦ candidate.1.isPivotal) = true) :
    compensate child candidates = moveEach child candidates pivotTags := by
  have hsecond (moved : Tagged) : compensateAxis child moved .pivotY .translateY =
      (Progress.ofExcept moved (mergeShift child moved ⟨.pivotY, .numeric⟩)).andThen
        fun moved ↦ .ofExcept moved (mergeShift child moved ⟨.pivotY, .binding⟩) :=
    compensateAxis_eq child moved fun _ ↦ rfl
  rw [compensate, if_pos hpivotal, compensateAxis_eq child candidates fun _ ↦ rfl]
  simp only [hsecond]
  exact Progress.andThen_assoc _ _ _

/-- Candidates some of whose pivots have been moved by the shifts of a child. -/
structure IsShifted (child candidates : Tagged) (pivots : List Tag) (moved : Tagged) : Prop where
  other : ∀ tag, tag ∉ pivots → Entries.get? moved tag = Entries.get? candidates tag
  size : ∀ tag, tag ∈ pivots → sizeAt moved tag ≤ sizeAt candidates tag * sizeAt child tag.shift
  contains : ∀ tag, Entries.contains candidates tag = true → Entries.contains moved tag = true

theorem isShifted_nil (child candidates : Tagged) : IsShifted child candidates [] candidates where
  other := fun _ _ ↦ rfl
  size := fun _ htag ↦ absurd htag List.not_mem_nil
  contains := fun _ h ↦ h

/-- One more pivot is moved by what touches nothing else. -/
theorem IsShifted.step (h : IsShifted child candidates pivots moved) {tag : Tag}
    (hnew : tag ∉ pivots) {next : Tagged}
    (hother : ∀ other, other ≠ tag → Entries.get? next other = Entries.get? moved other)
    (hsize : sizeAt next tag ≤ sizeAt moved tag * sizeAt child tag.shift)
    (hcontains : Entries.contains moved tag = true → Entries.contains next tag = true) :
    IsShifted child candidates (tag :: pivots) next where
  other := by
    intro other hmem
    rw [List.mem_cons, not_or] at hmem
    rw [hother other hmem.1, h.other other hmem.2]
  size := by
    intro other hmem
    by_cases htag : other = tag
    · rwa [htag, ← sizeAt_congr (h.other tag hnew)]
    · rw [sizeAt_congr (hother other htag)]
      exact h.size other ((List.mem_cons.mp hmem).resolve_left htag)
  contains := by
    intro other hmem
    have hmoved := h.contains other hmem
    by_cases htag : other = tag
    · subst htag
      exact hcontains hmoved
    · rwa [Entries.contains_congr (hother other htag)]

/-- Candidates some of whose pivots have been moved, and what they amount to. -/
structure IsMoved (child candidates : Tagged) (pivots : List Tag) (moved : Tagged) : Prop
    extends IsShifted child candidates pivots moved where
  mergeable : moved.IsMergeable
  reading : ∀ tag, tag ∈ pivots → ∀ env,
    reading env moved tag = reading env candidates tag - reading env child tag.shift

theorem isMoved_nil (h : candidates.IsMergeable) : IsMoved child candidates [] candidates where
  toIsShifted := isShifted_nil child candidates
  mergeable := h
  reading := fun _ htag ↦ absurd htag List.not_mem_nil

/-- A pivot without a shift stays where it is. -/
theorem IsMoved.stay (h : IsMoved child candidates pivots moved) {tag : Tag} (hnew : tag ∉ pivots)
    (hshift : Entries.get? child tag.shift = none) (hneutral : neutral tag.shift = 0) :
    IsMoved child candidates (tag :: pivots) moved where
  toIsShifted := h.toIsShifted.step hnew (fun _ _ ↦ rfl)
    (Nat.le_mul_of_pos_right _ (one_le_sizeAt child _)) id
  mergeable := h.mergeable
  reading := by
    intro other hother env
    rcases List.mem_cons.mp hother with rfl | hother
    · rw [reading_of_none hshift, hneutral, sub_zero]
      exact reading_congr (h.other other hnew)
    · exact h.reading other hother env

/-- A pivot is moved by merging the shift into it. -/
theorem IsMoved.move (h : IsMoved child candidates pivots moved) {tag : Tag} (hnew : tag ∉ pivots)
    (hkind : tag.kind ≠ .special) {value merged : Data}
    (hshift : Entries.get? child tag.shift = some value) (hnull : value.isNull = false)
    (hmerge : IsMergeOf moved tag (some .sub) tag.kind value merged) :
    IsMoved child candidates (tag :: pivots) (Entries.put moved tag merged) where
  toIsShifted := by
    refine h.toIsShifted.step hnew (fun other hother ↦ ?_) ?_ fun _ ↦ ?_
    · exact Entries.get?_put_of_ne (Ne.symm hother) _ _
    · rw [sizeAt_put, if_pos rfl, sizeAt_of_some hshift]
      exact hmerge.size
    · simp [Entries.contains_put]
  mergeable := h.mergeable.put hmerge.isOf hkind
  reading := by
    intro other hother env
    rw [reading_put hmerge.isOf.isNull]
    split_ifs with htag
    · subst htag
      rw [hmerge.amount, reading_of_some hshift hnull, reading_congr (h.other tag hnew)]
      rfl
    · rcases List.mem_cons.mp hother with rfl | hother
      · exact absurd rfl htag
      · exact h.reading other hother env

theorem IsMoved.step (h : IsMoved child candidates pivots moved) (hchild : child.IsMergeable)
    {tag : Tag} (htag : tag ∈ pivotTags) (hnew : tag ∉ pivots) :
    ∃ next, mergeShift child moved tag = .ok next ∧ IsMoved child candidates (tag :: pivots) next := by
  obtain ⟨-, hkind, -, hpivot, hshift⟩ := pivotTags_spec htag
  unfold mergeShift
  cases hget : Entries.get? child tag.shift with
  | none => exact ⟨moved, rfl, h.stay hnew hget hshift⟩
  | some value =>
    have hvalue : value.IsOf tag.kind := hchild.isOf tag.shift value hget
    have hfits : Fits (some .sub) tag := Or.inr ⟨rfl, hpivot⟩
    have hcurrent := h.mergeable.isOf tag
    rw [Option.elim_some]
    by_cases hnumeric : tag.kind = .numeric
    · rw [hnumeric] at hvalue hcurrent
      obtain ⟨merged, hok, hmerge⟩ := mergeNumber_eq_ok hcurrent hvalue hfits
      rw [if_pos hnumeric]
      exact ⟨_, hok, h.move hnew hkind hget hvalue.isNull (hnumeric ▸ hmerge)⟩
    · have hbinding : tag.kind = .binding := by
        cases hcases : tag.kind <;> simp_all
      rw [hbinding] at hvalue hcurrent
      obtain ⟨merged, hok, hmerge⟩ :=
        mergeText_eq_ok hcurrent hvalue (by decide) hvalue.isWritableOperand hfits
      rw [if_neg hnumeric]
      exact ⟨_, hok, h.move hnew hkind hget hvalue.isNull (hbinding ▸ hmerge)⟩

/-- Where each pivot can be moved, all can, one after the other. -/
theorem moveEach_eq_done {q : List Tag → Tagged → Prop} (hnil : q [] candidates)
    (hstep : ∀ tag rest moved, tag ∈ pivotTags → tag ∉ rest → q rest moved →
      ∃ next, mergeShift child moved tag = .ok next ∧ q (tag :: rest) next) :
    ∃ moved, moveEach child candidates pivotTags = .done moved ∧ q pivotTags moved := by
  have hall (order : List Tag) (hnodup : order.Nodup) (hsubset : order ⊆ pivotTags) :
      ∃ moved, moveEach child candidates order = .done moved ∧ q order moved := by
    induction order with
    | nil => exact ⟨candidates, rfl, hnil⟩
    | cons tag rest ih =>
      obtain ⟨hnew, hnodup⟩ := List.nodup_cons.mp hnodup
      obtain ⟨htag, hsubset⟩ := List.cons_subset.mp hsubset
      obtain ⟨moved, hmoved, hrest⟩ := ih hnodup hsubset
      obtain ⟨next, hnext, hq⟩ := hstep tag rest moved htag hnew hrest
      refine ⟨next, ?_, hq⟩
      rw [moveEach_cons, hmoved, Progress.andThen_done, hnext]
      rfl
  exact hall pivotTags (by decide) (List.Subset.refl _)

/-- Where some candidate acts about the pivot, compensation moves all pivots by the shifts. -/
theorem compensate_eq_done (hchild : child.IsMergeable) (hcandidates : candidates.IsMergeable)
    (hpivotal : (candidates.any fun candidate ↦ candidate.1.isPivotal) = true) :
    ∃ moved, compensate child candidates = .done moved ∧
      IsMoved child candidates pivotTags moved := by
  rw [compensate_eq child hpivotal]
  exact moveEach_eq_done (isMoved_nil hcandidates) fun _ _ _ htag hnew h ↦ h.step hchild htag hnew

end Compensating

end Motion
