import Motion.Proofs.Expression.Numeral
import Motion.Proofs.Number.Text
import Motion.Proofs.Outcome
import Motion.Proofs.Scene.Binding
import Motion.Scene.Merge

/-!
Values as operands. An integer or a binding with a well-formed expression stands for a number
(`Data.StandsFor`), and so does its text as an operand. Joining a text to a binding gives a binding
that stands for the sum, difference or product.
-/

set_option autoImplicit false
set_option relaxedAutoImplicit false

namespace Motion

open Expression

theorem Expression.read?_nil : read? [] = none :=
  rfl

theorem isBindingCharacter_of_isNumberCharacter {c : Char} (h : isNumberCharacter c = true) :
    Data.isBindingCharacter c = true := by
  simp only [isNumberCharacter, Bool.or_eq_true] at h
  rcases h with h | h
  · simp [Data.isBindingCharacter, h]
  · have hmarks : "+-.".toList.all Data.isBindingCharacter = true := by decide
    exact List.all_eq_true.mp hmarks c (by simpa using h)

namespace Data

/-- A binding with a well-formed expression. -/
def IsBindingOf (value : Data) (e : Expression) : Prop :=
  ∃ s, value.interior? = some s ∧ read? s = some e

/-- An integer, or a binding with a well-formed expression, and what it stands for. -/
def StandsFor (value : Data) (amount : Assignment → ℚ) : Prop :=
  (∃ i : ℤ, value = .num (.int i) ∧ ∀ env, amount env = i) ∨
    ∃ e, value.IsBindingOf e ∧ ∀ env, amount env = e.eval env

theorem IsBindingOf.standsFor {value : Data} {e : Expression} (h : value.IsBindingOf e) :
    value.StandsFor fun env ↦ e.eval env :=
  Or.inr ⟨e, h, fun _ ↦ rfl⟩

theorem bareExpression?_int (i : ℤ) :
    bareExpression? (.num (.int i)) = some (Number.intText i) :=
  rfl

/-- The bare expression of a value that stands for a number reads as that number. -/
theorem StandsFor.bareExpression? {value : Data} {amount : Assignment → ℚ}
    (h : value.StandsFor amount) : ∃ s e, Motion.bareExpression? value = some s ∧
      s.all isBindingCharacter = true ∧ read? s = some e ∧ ∀ env, e.eval env = amount env := by
  rcases h with ⟨i, rfl, hamount⟩ | ⟨e, ⟨s, hs, hread⟩, hamount⟩
  · obtain ⟨tokens, e, hscan, hsigned, heval⟩ := isSigned_intText i
    refine ⟨_, e, bareExpression?_int i, List.all_eq_true.mpr fun c hc ↦ ?_,
      read?_eq_some.mpr ⟨tokens, hscan, hsigned.read⟩, fun env ↦ by rw [heval, hamount]⟩
    exact isBindingCharacter_of_isNumberCharacter
      ((Number.int i).isNumberCharacter_of_mem_textChars c hc)
  · exact ⟨s, e, bareExpression?_of_interior? hs, all_of_interior? hs, hread,
      fun env ↦ (hamount env).symm⟩

theorem all_removeBlanks {s : List Char} {p : Char → Bool} (h : s.all p = true) :
    (Text.removeBlanks s).all p = true :=
  List.all_eq_true.mpr fun c hc ↦ List.all_eq_true.mp h c (List.mem_filter.mp hc).1

/-- The text of a value as an operand reads as what the value stands for, and next to an asterisk or
a minus sign it may stand as it is. -/
theorem StandsFor.operandText {value : Data} {amount : Assignment → ℚ}
    (h : value.StandsFor amount) (op : Option Operator) :
    ∃ e, read? (Motion.operandText value op) = some e ∧ (∀ env, e.eval env = amount env) ∧
      (Motion.operandText value op).all isBindingCharacter = true ∧
        (op = some .mul ∨ op = some .sub → Expression.IsTerm (Motion.operandText value op) e) := by
  obtain ⟨s, e, hs, hall, hread, heval⟩ := h.bareExpression?
  have hdense := read?_removeBlanks hread
  have halldense := all_removeBlanks hall
  rw [Motion.operandText, hs]
  dsimp only
  by_cases hparentheses : needsParentheses op (Text.removeBlanks s) = true
  · rw [if_pos hparentheses]
    have hterm := isTerm_parenthesis hdense
    refine ⟨e, hterm.read, heval, ?_, fun _ ↦ hterm⟩
    rw [List.all_append, List.all_cons, halldense]
    decide
  · rw [if_neg hparentheses]
    refine ⟨e, hdense, heval, halldense, fun hop ↦ isTerm_of_not_hasTopLevelSign hdense ?_⟩
    rw [Bool.eq_false_iff]
    intro hsign
    apply hparentheses
    rcases hop with rfl | rfl <;> simp [needsParentheses, hsign]

theorem isWritableOperand_of_interior? {value : Data} {s : List Char}
    (h : value.interior? = some s) : isWritableOperand value = true := by
  cases value with
  | str _ => rfl
  | _ => cases h

/-- A text of binding characters that reads as an expression is a binding of it. -/
theorem isBindingOf_binding {s : List Char} {e : Expression} (hall : s.all isBindingCharacter = true)
    (hread : read? s = some e) :
    (Data.str (Scalar.binding (String.ofList s))).IsBindingOf e := by
  refine ⟨s, ?_, hread⟩
  rw [interior?_binding (by rwa [String.toList_ofList]), String.toList_ofList]

theorem operandText_ne_nil {value : Data} {op : Option Operator} {e : Expression}
    (h : read? (Motion.operandText value op) = some e) :
    (Motion.operandText value op).isEmpty = false := by
  rw [List.isEmpty_eq_false_iff]
  intro hnil
  rw [hnil, read?_nil] at h
  cases h

end Data

variable {κ : Type} [DecidableEq κ] [HasFamily κ]

/-- Merging a text joins it, unless it may not be written. -/
theorem mergeText_eq {entries merged : Entries κ Data} {key : κ} {value : Data}
    {op : Option Operator} (h : mergeText entries key value op = .ok merged) :
    merged = joinText entries key value op := by
  unfold mergeText at h
  obtain ⟨-, -, h⟩ := Except.bind_eq_ok h
  exact (Except.ok.inj h).symm

/-- Joining a value to one that stands for an amount and counts as given. Division apart, which no merge
asks for, the new binding stands for what the operator makes of the two. -/
theorem joinText_given {entries : Entries κ Data} {key : κ} {current value : Data}
    {before amount : Assignment → ℚ} (hcurrent : Entries.get? entries key = some current)
    (hgiven : current.isTruthy = true) (hbefore : current.StandsFor before)
    (hvalue : value.StandsFor amount) {op : Option Operator}
    (hop : op.getD (mergeOperator key) ≠ .div) :
    ∃ merged e, joinText entries key value op = Entries.put entries key merged ∧
      merged.IsBindingOf e ∧
        ∀ env, e.eval env = (op.getD (mergeOperator key)).apply (before env) (amount env) := by
  generalize hoperator : op.getD (mergeOperator key) = operator at hop ⊢
  obtain ⟨first, hfirst, hfirstval, hfirstall, hfirstterm⟩ := hbefore.operandText (some operator)
  obtain ⟨second, hsecond, hsecondval, hsecondall, hsecondterm⟩ :=
    hvalue.operandText (some operator)
  have hjoined : ∃ e, read? (operandText current (some operator) ++ operator.symbol.toList ++
      operandText value (some operator)) = some e ∧
        ∀ env, e.eval env = operator.apply (before env) (amount env) := by
    have happly (x y : ℚ) (env : Assignment) (hx : x = before env) (hy : y = amount env) :
        operator.apply x y = operator.apply (before env) (amount env) := by rw [hx, hy]
    cases operator with
    | add =>
      obtain ⟨e, hread, heval⟩ := read?_sum hfirst hsecond
      exact ⟨e, hread, fun env ↦ by rw [heval]; exact happly _ _ env (hfirstval env) (hsecondval env)⟩
    | sub =>
      obtain ⟨e, hread, heval⟩ := IsTerm.difference hfirst (hsecondterm (Or.inr rfl))
      exact ⟨e, hread, fun env ↦ by rw [heval]; exact happly _ _ env (hfirstval env) (hsecondval env)⟩
    | mul =>
      obtain ⟨e, hread, heval⟩ :=
        (hfirstterm (Or.inl rfl)).product (hsecondterm (Or.inl rfl))
      exact ⟨e, hread, fun env ↦ by rw [heval]; exact happly _ _ env (hfirstval env) (hsecondval env)⟩
    | div => exact absurd rfl hop
  obtain ⟨e, hread, heval⟩ := hjoined
  have hall : (operandText current (some operator) ++ operator.symbol.toList ++
      operandText value (some operator)).all Data.isBindingCharacter = true := by
    have hsymbol : operator.symbol.toList.all Data.isBindingCharacter = true := by
      cases operator <;> decide
    rw [List.all_append, List.all_append, hfirstall, hsymbol, hsecondall]
    rfl
  refine ⟨_, e, ?_, Data.isBindingOf_binding hall hread, heval⟩
  rw [joinText, hoperator, hcurrent]
  simp [hgiven, Data.operandText_ne_nil hfirst, Data.operandText_ne_nil hsecond]

/-- Joining a value to a binding. -/
theorem joinText_present {entries : Entries κ Data} {key : κ} {current value : Data}
    {left : Expression} {amount : Assignment → ℚ} (hcurrent : Entries.get? entries key = some current)
    (hleft : current.IsBindingOf left) (hvalue : value.StandsFor amount) {op : Option Operator}
    (hop : op.getD (mergeOperator key) ≠ .div) :
    ∃ merged e, joinText entries key value op = Entries.put entries key merged ∧
      merged.IsBindingOf e ∧
        ∀ env, e.eval env = (op.getD (mergeOperator key)).apply (left.eval env) (amount env) := by
  have hgiven : current.isTruthy = true := Data.isTruthy_of_interior? hleft.choose_spec.1
  exact joinText_given hcurrent hgiven hleft.standsFor hvalue hop

omit [HasFamily κ] in
theorem present?_of_get?_eq_none {entries : Entries κ Data} {key : κ}
    (h : Entries.get? entries key = none) : present? entries key = none := by
  simp [present?, h]

omit [HasFamily κ] in
/-- Where nothing is under a key, or null, it reads as null. -/
theorem getD_of_present?_eq_none {entries : Entries κ Data} {key : κ}
    (h : present? entries key = none) : (Entries.get? entries key).getD .null = .null := by
  rw [present?] at h
  split at h
  · rename_i hnull
    rw [hnull]
    rfl
  · rw [h]
    rfl

/-- Joining a value to what does not count as given, whatever it stands for. -/
theorem joinText_notGiven {entries : Entries κ Data} {key : κ} {value : Data}
    {amount : Assignment → ℚ}
    (hcurrent : ((Entries.get? entries key).getD .null).isTruthy = false)
    (hvalue : value.StandsFor amount) (op : Option Operator) :
    ∃ merged e, joinText entries key value op = Entries.put entries key merged ∧
      merged.IsBindingOf e ∧ ∀ env, e.eval env =
        if op.getD (mergeOperator key) = .sub then -amount env else amount env := by
  generalize hoperator : op.getD (mergeOperator key) = operator
  obtain ⟨e, hread, heval, hall, hterm⟩ := hvalue.operandText (some operator)
  have hempty := Data.operandText_ne_nil hread
  by_cases hsub : operator = .sub
  · subst hsub
    obtain ⟨negated, hnegated, hopposite⟩ := (hterm (Or.inr rfl)).opposite
    have hminus : Data.isBindingCharacter '-' = true := by decide
    have hallnegated : ('-' :: operandText value (some .sub)).all Data.isBindingCharacter = true := by
      rw [List.all_cons, hminus, hall]
      rfl
    refine ⟨_, negated, ?_, Data.isBindingOf_binding hallnegated hnegated, fun env ↦ ?_⟩
    · rw [joinText, hoperator]
      simp [hempty, hcurrent]
    · rw [if_pos rfl, hopposite, heval]
  · refine ⟨_, e, ?_, Data.isBindingOf_binding hall hread, fun env ↦ ?_⟩
    · rw [joinText, hoperator]
      simp [hempty, hcurrent, hsub]
    · rw [if_neg hsub, heval]

/-- Joining a value where there is no binding yet. -/
theorem joinText_absent {entries : Entries κ Data} {key : κ} {value : Data}
    {amount : Assignment → ℚ} (hcurrent : present? entries key = none)
    (hvalue : value.StandsFor amount) (op : Option Operator) :
    ∃ merged e, joinText entries key value op = Entries.put entries key merged ∧
      merged.IsBindingOf e ∧ ∀ env, e.eval env =
        if op.getD (mergeOperator key) = .sub then -amount env else amount env := by
  refine joinText_notGiven ?_ hvalue op
  rw [getD_of_present?_eq_none hcurrent]
  rfl

end Motion
