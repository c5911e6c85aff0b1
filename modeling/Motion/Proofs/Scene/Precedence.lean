import Motion.Proofs.Data.Entries
import Motion.Proofs.Scene.Operand

/-!
Merging texts respects precedence. What is under a key, a well-formed binding or nothing, stands for
an amount (`Underlies`); merging an integer or a well-formed binding into it leaves a well-formed
binding that stands for the sum, difference or product of both amounts, and every other key as it was
(`mergeText_joins`). The result underlies the next merge in turn. The one merge that fails is that of an
integer with more digits than are written.

Under a key may also stand a number, and then the binding is joined to that (`mergeText_intoInteger`). Only
a zero is not seen: it does not count as given, so that a product with it is the other factor.
-/

set_option autoImplicit false
set_option relaxedAutoImplicit false

namespace Motion

section Merging

variable {κ : Type} [DecidableEq κ] [HasFamily κ] {entries : Entries κ Data} {key : κ}

/-- What nothing counts as next to an operator: one in a product, zero in a sum or a difference. -/
def Operator.absent (op : Operator) : ℚ :=
  if op = .mul then 1 else 0

/-- What is under a key, nothing or a binding with a well-formed expression, stands for an amount next
to an operator. -/
def Underlies (entries : Entries κ Data) (key : κ) (op : Operator) (amount : Assignment → ℚ) : Prop :=
  (present? entries key = none ∧ ∀ env, amount env = op.absent) ∨
    ∃ current e, Entries.get? entries key = some current ∧ current.IsBindingOf e ∧
      ∀ env, amount env = e.eval env

/-- A value is an integer with more digits than are written. -/
def Data.IsUnwritable (value : Data) : Prop :=
  ∃ i : ℤ, value = .num (.int i) ∧ 10 ^ Numeral.digitLimit ≤ i.natAbs

omit [DecidableEq κ] in
theorem mergeOperator_ne_div (key : κ) : mergeOperator key ≠ .div := by
  rw [mergeOperator]
  split_ifs <;> decide

omit [DecidableEq κ] in
theorem getD_mergeOperator_ne_div {op : Option Operator} (h : op ≠ some .div) :
    op.getD (mergeOperator key) ≠ .div := by
  cases op with
  | none => exact mergeOperator_ne_div key
  | some operator => exact fun hdiv ↦ h (congrArg some hdiv)

theorem Data.IsBindingOf.isWritableOperand {value : Data} {e : Expression} (h : value.IsBindingOf e) :
    Motion.isWritableOperand value = true := by
  obtain ⟨s, hs, -⟩ := h
  exact isWritableOperand_of_interior? hs

theorem isWritableOperand_int_eq_false_iff (i : ℤ) :
    isWritableOperand (.num (.int i)) = false ↔ 10 ^ Numeral.digitLimit ≤ i.natAbs := by
  rw [isWritableOperand, Number.isWritable, decide_eq_false_iff_not, Nat.pow_eq]
  generalize 10 ^ Numeral.digitLimit = bound
  exact not_lt

theorem Data.IsUnwritable.isWritableOperand {value : Data} (h : value.IsUnwritable) :
    Motion.isWritableOperand value = false := by
  obtain ⟨i, rfl, hi⟩ := h
  exact (isWritableOperand_int_eq_false_iff i).mpr hi

/-- What stands for a number and is not overlong can be written. -/
theorem Data.StandsFor.isWritableOperand {value : Data} {amount : Assignment → ℚ}
    (h : value.StandsFor amount) (hshort : ¬ value.IsUnwritable) :
    Motion.isWritableOperand value = true := by
  rcases h with ⟨i, rfl, -⟩ | ⟨e, he, -⟩
  · rw [← Bool.not_eq_false]
    exact fun hfalse ↦ hshort ⟨i, rfl, (isWritableOperand_int_eq_false_iff i).mp hfalse⟩
  · exact he.isWritableOperand

omit [HasFamily κ] in
theorem Underlies.isWritableOperand {op : Operator} {amount : Assignment → ℚ}
    (h : Underlies entries key op amount) :
    Motion.isWritableOperand ((Entries.get? entries key).getD .null) = true := by
  rcases h with ⟨habsent, -⟩ | ⟨current, e, hget, hcurrent, -⟩
  · rw [getD_of_present?_eq_none habsent]
    rfl
  · rw [hget]
    exact hcurrent.isWritableOperand

/-- Taking an amount off nothing negates it; adding it to nothing or multiplying nothing by it gives
the amount. -/
theorem Operator.apply_absent {op : Operator} (h : op ≠ .div) (x : ℚ) :
    op.apply op.absent x = if op = .sub then -x else x := by
  cases op with
  | add => exact zero_add x
  | sub => exact zero_sub x
  | mul => exact one_mul x
  | div => exact absurd rfl h

/-- Joining a value to what underlies it. -/
theorem Underlies.joinText {value : Data} {op : Option Operator} {before amount : Assignment → ℚ}
    (hop : op ≠ some .div) (hbefore : Underlies entries key (op.getD (mergeOperator key)) before)
    (hvalue : value.StandsFor amount) : ∃ merged e,
      Motion.joinText entries key value op = Entries.put entries key merged ∧
        merged.IsBindingOf e ∧
          ∀ env, e.eval env = (op.getD (mergeOperator key)).apply (before env) (amount env) := by
  have hdiv : op.getD (mergeOperator key) ≠ .div := getD_mergeOperator_ne_div hop
  rcases hbefore with ⟨habsent, hneutral⟩ | ⟨current, left, hget, hcurrent, hleft⟩
  · obtain ⟨merged, e, hjoin, hmerged, heval⟩ := joinText_absent habsent hvalue op
    refine ⟨merged, e, hjoin, hmerged, fun env ↦ ?_⟩
    rw [heval, hneutral, Operator.apply_absent hdiv]
  · obtain ⟨merged, e, hjoin, hmerged, heval⟩ := joinText_present hget hcurrent hvalue hdiv
    refine ⟨merged, e, hjoin, hmerged, fun env ↦ ?_⟩
    rw [heval, hleft]

/-- Merging an integer or a well-formed binding, by a sum, a difference or a product, into a well-formed
binding or into nothing. Read with the usual precedence, the entry stands for what the operator makes
of both, and the other entries are as they were. Only an integer with too many digits is refused. -/
theorem mergeText_joins {value : Data} {op : Option Operator} {before amount : Assignment → ℚ}
    (hop : op ≠ some .div) (hbefore : Underlies entries key (op.getD (mergeOperator key)) before)
    (hvalue : value.StandsFor amount) :
    (¬ value.IsUnwritable → ∃ after, mergeText entries key value op = .ok after ∧
      (∃ merged e, Entries.get? after key = some merged ∧ merged.IsBindingOf e ∧
        ∀ env, e.eval env = (op.getD (mergeOperator key)).apply (before env) (amount env)) ∧
      ∀ other, other ≠ key → Entries.get? after other = Entries.get? entries other) ∧
    (value.IsUnwritable → mergeText entries key value op = .error .badValue) := by
  refine ⟨fun hshort ↦ ?_, fun hlong ↦ ?_⟩
  · obtain ⟨merged, e, hjoin, hmerged, heval⟩ := hbefore.joinText hop hvalue
    refine ⟨Entries.put entries key merged, ?_, ⟨merged, e, Entries.get?_put_self .., hmerged, heval⟩,
      fun other hother ↦ Entries.get?_put_of_ne hother.symm entries merged⟩
    rw [mergeText, hbefore.isWritableOperand, hvalue.isWritableOperand hshort, hjoin]
    rfl
  · rw [mergeText, hlong.isWritableOperand, Bool.and_false]
    rfl

end Merging

/-- Two translations, one of them a difference of a quotient and a product. -/
def translations : Members :=
  [("translateX", .str (Scalar.binding "a/-b-2*c")), ("translateY", .num (.int 7))]

/-- A difference with a call in it, which begins with a sign. -/
def shiftedBack : Data :=
  .str (Scalar.binding "-f(a - 1e2) + d")

theorem mergeText_joins_nested : ∃ left right after merged e,
    (Data.str (Scalar.binding "a/-b-2*c")).IsBindingOf left ∧ shiftedBack.IsBindingOf right ∧
      ¬ shiftedBack.IsUnwritable ∧ some Operator.sub ≠ some .div ∧
      mergeText translations "translateX" shiftedBack (some .sub) = .ok after ∧
      Entries.get? after "translateX" = some merged ∧ merged.IsBindingOf e ∧
      (∀ env, e.eval env = left.eval env - right.eval env) ∧
      Entries.get? after "translateY" = some (.num (.int 7)) := by
  have hleft : ∃ left, (Data.str (Scalar.binding "a/-b-2*c")).IsBindingOf left :=
    ⟨_, _, rfl, rfl⟩
  have hright : ∃ right, shiftedBack.IsBindingOf right :=
    ⟨_, _, rfl, rfl⟩
  obtain ⟨left, hleft⟩ := hleft
  obtain ⟨right, hright⟩ := hright
  have hshort : ¬ shiftedBack.IsUnwritable := by
    rintro ⟨i, hi, -⟩
    cases hi
  have hminus : some Operator.sub ≠ some .div := by decide
  have hbefore : Underlies translations "translateX" .sub fun env ↦ left.eval env :=
    Or.inr ⟨_, left, rfl, hleft, fun _ ↦ rfl⟩
  obtain ⟨after, hok, ⟨merged, e, hmerged, hbinding, heval⟩, hothers⟩ :=
    (mergeText_joins hminus hbefore hright.standsFor).1 hshort
  exact ⟨left, right, after, merged, e, hleft, hright, hshort, hminus, hok, hmerged, hbinding,
    heval, hothers "translateY" (by decide)⟩

/-- A power of ten with one digit more than is written. -/
def overlongFactor : Data :=
  .num (.int (10 ^ Numeral.digitLimit))

/-- An overlong factor stands for a number, and the merge into a binding fails nevertheless. -/
theorem mergeText_overlong : (∃ e, (Data.str (Scalar.binding "x")).IsBindingOf e) ∧
    overlongFactor.StandsFor (fun _ ↦ 10 ^ Numeral.digitLimit) ∧
      ¬ ∃ after, mergeText [("opacity", .str (Scalar.binding "x"))] "opacity" overlongFactor
        (some .mul) = .ok after := by
  refine ⟨⟨_, _, rfl, rfl⟩, Or.inl ⟨_, rfl, fun _ ↦ ?_⟩, ?_⟩
  · push_cast
    rfl
  · rintro ⟨after, hok⟩
    have hfails : (mergeText [("opacity", .str (Scalar.binding "x"))] "opacity" overlongFactor
        (some .mul)).toOption.isNone = true := by
      decide +kernel
    rw [hok] at hfails
    cases hfails

section Integers

variable {κ : Type} [DecidableEq κ] [HasFamily κ] {entries : Entries κ Data} {key : κ}

theorem Data.isTruthy_int_eq_false_iff (c : ℤ) : (Data.num (.int c)).isTruthy = false ↔ c = 0 := by
  constructor
  · intro h
    by_contra hc
    have hne : (Number.int c).same 0 = false := by
      rw [← Bool.not_eq_true]
      exact fun hsame ↦ hc (Number.same_int.mp hsame)
    rw [isTruthy, hne] at h
    cases h
  · rintro rfl
    rfl

/-- Joining a binding to an integer. A zero under the key does not count as given, which shows in
products alone. -/
theorem joinText_integer {c : ℤ} {value : Data} {right : Expression} {op : Option Operator}
    (hop : op ≠ some .div) (hcurrent : Entries.get? entries key = some (.num (.int c)))
    (hvalue : value.IsBindingOf right) : ∃ merged e,
      Motion.joinText entries key value op = Entries.put entries key merged ∧
        merged.IsBindingOf e ∧ ∀ env, e.eval env =
          if c = 0 ∧ op.getD (mergeOperator key) = .mul then right.eval env
          else (op.getD (mergeOperator key)).apply c (right.eval env) := by
  have hdiv : op.getD (mergeOperator key) ≠ .div := getD_mergeOperator_ne_div hop
  by_cases hzero : c = 0
  · subst hzero
    have hcount : ((Entries.get? entries key).getD .null).isTruthy = false := by
      rw [hcurrent]
      exact (Data.isTruthy_int_eq_false_iff 0).mpr rfl
    obtain ⟨merged, e, hjoin, hmerged, heval⟩ := joinText_notGiven hcount hvalue.standsFor op
    refine ⟨merged, e, hjoin, hmerged, fun env ↦ ?_⟩
    -- Zero is what a sum or a difference takes for nothing; a product takes one.
    by_cases hmul : op.getD (mergeOperator key) = .mul
    · rw [heval, hmul, if_neg (by decide), if_pos ⟨rfl, rfl⟩]
    · have habsent : (op.getD (mergeOperator key)).absent = ((0 : ℤ) : ℚ) := by
        rw [Operator.absent, if_neg hmul, Int.cast_zero]
      rw [heval, ← Operator.apply_absent hdiv, habsent, if_neg fun h ↦ hmul h.2]
  · have hgiven : (Data.num (.int c)).isTruthy = true := by
      rw [← Bool.not_eq_false, Data.isTruthy_int_eq_false_iff]
      exact hzero
    have hstands : (Data.num (.int c)).StandsFor fun _ ↦ c := Or.inl ⟨c, rfl, fun _ ↦ rfl⟩
    obtain ⟨merged, e, hjoin, hmerged, heval⟩ :=
      joinText_given hcurrent hgiven hstands hvalue.standsFor hdiv
    refine ⟨merged, e, hjoin, hmerged, fun env ↦ ?_⟩
    rw [heval, if_neg fun h ↦ hzero h.1]

/-- Merging a well-formed binding, by a sum, a difference or a product, into an integer. The entry
becomes a binding that stands for what the operator makes of both; only a product with a stored zero is
not zero but the other factor. The other entries are as they were, and only an integer with too many
digits is refused. -/
theorem mergeText_intoInteger {c : ℤ} {value : Data} {right : Expression} {op : Option Operator}
    (hop : op ≠ some .div) (hcurrent : Entries.get? entries key = some (.num (.int c)))
    (hvalue : value.IsBindingOf right) :
    (c.natAbs < 10 ^ Numeral.digitLimit → ∃ after, mergeText entries key value op = .ok after ∧
      (∃ merged e, Entries.get? after key = some merged ∧ merged.IsBindingOf e ∧
        ∀ env, e.eval env =
          if c = 0 ∧ op.getD (mergeOperator key) = .mul then right.eval env
          else (op.getD (mergeOperator key)).apply c (right.eval env)) ∧
      ∀ other, other ≠ key → Entries.get? after other = Entries.get? entries other) ∧
    (10 ^ Numeral.digitLimit ≤ c.natAbs → mergeText entries key value op = .error .badValue) := by
  constructor
  · intro hshort
    have hwritable : isWritableOperand (.num (.int c)) = true := by
      rw [← Bool.not_eq_false, isWritableOperand_int_eq_false_iff]
      exact not_le.mpr hshort
    obtain ⟨merged, e, hjoin, hmerged, heval⟩ := joinText_integer hop hcurrent hvalue
    refine ⟨Entries.put entries key merged, ?_, ⟨merged, e, Entries.get?_put_self .., hmerged, heval⟩,
      fun other hother ↦ Entries.get?_put_of_ne hother.symm entries merged⟩
    rw [mergeText, hcurrent, Option.getD_some, hwritable, hvalue.isWritableOperand, hjoin]
    rfl
  · intro hlong
    rw [mergeText, hcurrent, Option.getD_some, (isWritableOperand_int_eq_false_iff c).mpr hlong]
    rfl

end Integers

/-- Scales, one of them zero. -/
def scales : Members :=
  [("scaleX", .num (.int 0)), ("scaleY", .num (.int (-3)))]

/-- A sum as a factor. -/
def growth : Data :=
  .str (Scalar.binding "a + b")

theorem mergeText_intoInteger_negative : ∃ right after merged e,
    growth.IsBindingOf right ∧ some Operator.mul ≠ some .div ∧
      Entries.get? scales "scaleY" = some (.num (.int (-3))) ∧
      (-3 : ℤ).natAbs < 10 ^ Numeral.digitLimit ∧
      mergeText scales "scaleY" growth (some .mul) = .ok after ∧
      Entries.get? after "scaleY" = some merged ∧ merged.IsBindingOf e ∧
      (∀ env, e.eval env = -3 * right.eval env) ∧
      Entries.get? after "scaleX" = some (.num (.int 0)) := by
  have hgrowth : ∃ right, growth.IsBindingOf right := ⟨_, _, rfl, rfl⟩
  obtain ⟨right, hright⟩ := hgrowth
  have htimes : some Operator.mul ≠ some .div := by decide
  have hcurrent : Entries.get? scales "scaleY" = some (.num (.int (-3))) := rfl
  have hshort : (-3 : ℤ).natAbs < 10 ^ Numeral.digitLimit :=
    lt_of_lt_of_le (show 3 < 10 ^ 1 by decide) (Nat.pow_le_pow_right (by decide) (by decide))
  obtain ⟨after, hok, ⟨merged, e, hmerged, hbinding, heval⟩, hothers⟩ :=
    (mergeText_intoInteger htimes hcurrent hright).1 hshort
  refine ⟨right, after, merged, e, hright, htimes, hcurrent, hshort, hok, hmerged, hbinding,
    fun env ↦ ?_, hothers "scaleX" (by decide)⟩
  rw [heval, if_neg (by decide)]
  norm_num [Operator.apply]

/-- A stored zero is lost in a product: the entry stands for the other factor. -/
theorem mergeText_intoZero : ∃ right, growth.IsBindingOf right ∧
    Entries.get? scales "scaleX" = some (.num (.int 0)) ∧
      ¬ ∃ after merged e, mergeText scales "scaleX" growth (some .mul) = .ok after ∧
        Entries.get? after "scaleX" = some merged ∧ merged.IsBindingOf e ∧
          ∀ env, e.eval env = 0 * right.eval env := by
  have hgrowth : growth.IsBindingOf (.binary .add (.name ['a']) (.name ['b'])) := ⟨_, rfl, rfl⟩
  have hzero : Entries.get? scales "scaleX" = some (.num (.int 0)) := rfl
  have htimes : some Operator.mul ≠ some .div := by decide
  refine ⟨_, hgrowth, hzero, ?_⟩
  rintro ⟨after, merged, e, hok, hmerged, ⟨s, hs, hread⟩, heval⟩
  obtain ⟨merged', e', hjoin, ⟨s', hs', hread'⟩, heval'⟩ := joinText_integer htimes hzero hgrowth
  rw [mergeText_eq hok, hjoin, Entries.get?_put_self, Option.some.injEq] at hmerged
  subst hmerged
  rw [hs, Option.some.injEq] at hs'
  subst hs'
  rw [hread, Option.some.injEq] at hread'
  subst hread'
  -- Where both names stand for one, the entry stands for two.
  have htwo := (heval' ⟨fun _ ↦ 1, fun _ _ ↦ 0, fun _ ↦ 0⟩).symm.trans (heval _)
  norm_num [Expression.eval, Operator.apply] at htwo

end Motion
