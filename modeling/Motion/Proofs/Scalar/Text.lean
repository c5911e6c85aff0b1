import Motion.Proofs.Easing.Token
import Motion.Proofs.Scalar.Value

/-!
The texts of scalars. The text of an integral formula reads as an expression with the value of the
formula, and no two operators in it run together.
-/

set_option autoImplicit false
set_option relaxedAutoImplicit false

namespace Motion

open Expression

/-- What an assignment lets the easing with a number stand for at the current frame. -/
def Assignment.atom (env : Assignment) (index : ℕ) : ℚ :=
  env.call (tokenOf (easeName index)).toList (.name "frame".toList)

theorem isLetter_of_mem_token {index : ℕ} {c : Char} (h : c ∈ (tokenOf (easeName index)).toList) :
    Token.isLetter c = true := by
  rw [toList_token, tokenChars, List.mem_append] at h
  rcases h with h | h
  · exact List.all_eq_true.mp (by decide : tokenStem.all Token.isLetter = true) c h
  · exact isLetter_of_isDigit (Nat.isDigit_of_mem_toDigits (by decide) (by decide) h)

theorem ofWord?_token (index : ℕ) :
    ofWord? (tokenOf (easeName index)).toList = some (.name (tokenOf (easeName index)).toList) := by
  rw [toList_token, ofWord?, tokenChars, show tokenStem = '@' :: easeStem from rfl, List.cons_append,
    Numeral.decimal?_eq_none (by decide) (by decide)]
  rfl

namespace Formula

/-- The text of an easing is a call of its token. -/
theorem reads_atom (index : ℕ) : ∃ tokens, Token.scan (atomText index) = some tokens ∧
    Token.IsOperand tokens
      (.call (tokenOf (easeName index)).toList (.name "frame".toList)) := by
  have hne : (tokenOf (easeName index)).toList ≠ [] := by
    rw [toList_token]
    exact List.cons_ne_nil _ _
  have htoken := Token.scan_letters hne fun c ↦ isLetter_of_mem_token
  have hframe : Token.scan "(frame)".toList =
      some (.opening :: [.word "frame".toList] ++ [.closing]) := by decide
  have hargument : Token.read? [.word "frame".toList] = some (.name "frame".toList) :=
    Token.read?_of_isOperand (Token.isOperand_word rfl)
  exact ⟨_, Token.scan_append rfl htoken hframe,
    Token.isOperand_call (ofWord?_token index) hargument⟩

/-- The expression that a formula writes. -/
def expression : Formula → Expression
  | number (.int i) => .ofInt i
  | number n => .number n.value
  | atom index => .call (tokenOf (easeName index)).toList (.name "frame".toList)
  | neg operand => .neg operand.expression
  | binary op left right => .binary op left.expression right.expression

theorem eval_expression {f : Formula} (hint : f.IsIntegral) (env : Assignment) :
    f.expression.eval env = f.value env.atom := by
  induction f with
  | number n =>
    obtain ⟨i, rfl⟩ := hint
    exact eval_ofInt env i
  | atom index => rfl
  | neg operand ih => rw [expression, eval, ih hint, value]
  | binary op left right ihleft ihright =>
    rw [expression, eval, ihleft hint.1, ihright hint.2, value]

/-- The text of an integral formula is the expression that the formula writes. -/
theorem scan_text {f : Formula} (hfolded : f.IsFolded) (hint : f.IsIntegral) :
    ∃ tokens, Token.scan f.text = some tokens ∧ Token.IsSigned tokens f.expression ∧
      (f.isNumber = false → Token.IsOperand tokens f.expression) := by
  induction f with
  | number n =>
    obtain ⟨i, rfl⟩ := hint
    obtain ⟨tokens, hscan, hsigned⟩ := isSigned_ofInt i
    exact ⟨tokens, hscan, hsigned, fun h ↦ nomatch h⟩
  | atom index =>
    obtain ⟨tokens, hscan, hoperand⟩ := reads_atom index
    exact ⟨tokens, hscan, hoperand.isSigned, fun _ ↦ hoperand⟩
  | neg operand ih =>
    obtain ⟨tokens, hscan, hsigned, -⟩ := ih hfolded.2 hint
    have hoperand := Token.isOperand_parenthesis hsigned.negate.read
    exact ⟨_, scan_parenthesis (Token.scan_cons rfl hscan), hoperand.isSigned, fun _ ↦ hoperand⟩
  | binary op left right ihleft ihright =>
    obtain ⟨-, -, hleft, hright⟩ := hfolded
    obtain ⟨first, hfirst, ha, -⟩ := ihleft hleft hint.1
    obtain ⟨second, hsecond, hb, -⟩ := ihright hright hint.2
    have hoperand := Token.isOperand_parenthesis (ha.binary hb op)
    refine ⟨_, ?_, hoperand.isSigned, fun _ ↦ hoperand⟩
    have hscan := scan_parenthesis (scan_between op hfirst hsecond)
    rwa [← List.cons_append, ← List.cons_append] at hscan

/-- The text of an integral formula is an expression with its value. -/
theorem reads {f : Formula} (hfolded : f.IsFolded) (hint : f.IsIntegral) :
    ∃ tokens e, Token.scan f.text = some tokens ∧ Token.IsSigned tokens e ∧
      (f.isNumber = false → Token.IsOperand tokens e) ∧ ∀ env, e.eval env = f.value env.atom := by
  obtain ⟨tokens, hscan, hsigned, hoperand⟩ := f.scan_text hfolded hint
  exact ⟨tokens, f.expression, hscan, hsigned, hoperand, f.eval_expression hint⟩

end Formula

namespace Token

def isOperatorMark (c : Char) : Bool :=
  "+-*/".toList.contains c

theorem ofPair?_eq_none {c d : Char} (h : isOperatorMark c = false ∨ isOperatorMark d = false) :
    ofPair? c d = none := by
  unfold ofPair?
  split
  all_goals first | rfl | exact absurd h (by decide)

/-- A text in which no two characters in a row make one token. -/
def Unfused (s : List Char) : Prop :=
  s.IsChain fun c d ↦ ofPair? c d = none

theorem unfused_of_tail {s : List Char} (h : ∀ c ∈ s.tail, isOperatorMark c = false) :
    Unfused s := by
  induction s with
  | nil => exact .nil
  | cons c rest ih =>
    cases rest with
    | nil => exact .singleton c
    | cons d rest =>
      refine .cons_cons (ofPair?_eq_none (Or.inr (h d List.mem_cons_self))) (ih ?_)
      exact fun e he ↦ h e (List.mem_cons_of_mem d he)

theorem Unfused.parenthesis {s : List Char} (h : Unfused s) : Unfused ('(' :: s ++ [')']) := by
  have hopening : Unfused (['('] ++ s) :=
    List.isChain_append.mpr ⟨.singleton _, h, fun c hc d _ ↦ by cases hc; rfl⟩
  refine List.isChain_append.mpr ⟨hopening, .singleton _, fun c _ d hd ↦ ?_⟩
  cases hd
  exact ofPair?_eq_none (Or.inr rfl)

end Token

theorem isOperatorMark_of_isLetter {c : Char} (h : Token.isLetter c = true) :
    Token.isOperatorMark c = false := by
  rw [Bool.eq_false_iff]
  intro hmark
  have hcases : c = '+' ∨ c = '-' ∨ c = '*' ∨ c = '/' := by
    simpa [Token.isOperatorMark] using hmark
  rcases hcases with rfl | rfl | rfl | rfl <;> revert h <;> decide

namespace Formula

/-- What a formula shows to an operator next to it: no operator on its right, and on its left at
most the minus sign of a negative number. -/
structure IsSpaced (f : Formula) : Prop where
  unfused : Token.Unfused f.text
  last : ∀ c ∈ f.text.getLast?, Token.isOperatorMark c = false
  head : ∀ c ∈ f.text.head?, Token.isOperatorMark c = true → c = '-' ∧ f.mayFollowMinus = false

/-- Where a formula may stand after an operator, the two do not run together. -/
theorem IsSpaced.after {f : Formula} (h : f.IsSpaced) {op : Operator}
    (hminus : op = .sub → f.mayFollowMinus = true) {c d : Char} (hc : c ∈ op.symbol.toList)
    (hd : d ∈ f.text.head?) : Token.ofPair? c d = none := by
  by_cases hmark : Token.isOperatorMark d = true
  · obtain ⟨rfl, hnegative⟩ := h.head d hd hmark
    cases op with
    | sub =>
      rw [hminus rfl] at hnegative
      cases hnegative
    | add | mul | div =>
      rw [List.mem_singleton.mp hc]
      rfl
  · exact Token.ofPair?_eq_none (Or.inr (Bool.eq_false_iff.mpr hmark))

theorem isSpaced_of_letters {f : Formula} (h : ∀ c ∈ f.text, Token.isOperatorMark c = false) :
    f.IsSpaced where
  unfused := Token.unfused_of_tail fun c hc ↦ h c (List.mem_of_mem_tail hc)
  last := fun c hc ↦ h c (List.mem_of_mem_getLast? hc)
  head := fun c hc hmark ↦ absurd hmark (by simp [h c (List.mem_of_mem_head? hc)])

theorem isOperatorMark_of_mem_digitsOf {n : ℕ} {c : Char} (h : c ∈ Decimal.digitsOf n) :
    Token.isOperatorMark c = false :=
  isOperatorMark_of_isLetter (isLetter_of_isDigit (Numeral.isDigit_of_mem_digitsOf h))

theorem isSpaced_int (i : ℤ) : (number (.int i)).IsSpaced := by
  cases i with
  | ofNat n => exact isSpaced_of_letters fun c ↦ isOperatorMark_of_mem_digitsOf
  | negSucc n =>
    have htext : (number (.int (.negSucc n))).text = '-' :: Decimal.digitsOf (n + 1) := rfl
    have hne : Decimal.digitsOf (n + 1) ≠ [] := Nat.toDigits_ne_nil
    refine ⟨?_, ?_, ?_⟩
    · rw [htext]
      exact Token.unfused_of_tail fun c hc ↦ isOperatorMark_of_mem_digitsOf hc
    · rw [htext, List.getLast?_cons_of_ne_nil hne]
      exact fun c hc ↦ isOperatorMark_of_mem_digitsOf (List.mem_of_mem_getLast? hc)
    · rw [htext]
      rintro c hc -
      refine ⟨(Option.some.inj hc).symm, ?_⟩
      have hnegative : (Number.int (.negSucc n)).lt 0 = true :=
        Number.lt_int.mpr (Int.negSucc_lt_zero n)
      rw [mayFollowMinus, hnegative]
      rfl

theorem isSpaced_parenthesis {f : Formula} {s : List Char} (htext : f.text = '(' :: s ++ [')'])
    (h : Token.Unfused s) : f.IsSpaced := by
  refine ⟨?_, ?_, ?_⟩
  · rw [htext]
    exact h.parenthesis
  · rw [htext, List.getLast?_concat]
    rintro c hc
    cases hc
    rfl
  · rw [htext]
    rintro c hc hmark
    cases hc
    cases hmark

theorem mayFollowMinus_of_not_isNumber {f : Formula} (h : f.isNumber = false) :
    f.mayFollowMinus = true := by
  cases f <;> first | rfl | cases h

/-- The text of an integral formula is spaced. -/
theorem isSpaced {f : Formula} (hfolded : f.IsFolded) (hint : f.IsIntegral) : f.IsSpaced := by
  induction f with
  | number n =>
    obtain ⟨i, rfl⟩ := hint
    exact isSpaced_int i
  | atom index =>
    refine isSpaced_of_letters fun c hc ↦ ?_
    rcases List.mem_append.mp hc with hc | hc
    · exact isOperatorMark_of_isLetter (isLetter_of_mem_token hc)
    · have hframe : "(frame)".toList.all (fun d ↦ !Token.isOperatorMark d) = true := by decide
      simpa using List.all_eq_true.mp hframe c hc
  | neg operand ih =>
    have hminus := mayFollowMinus_of_not_isNumber hfolded.1
    refine isSpaced_parenthesis (s := '-' :: operand.text) rfl (List.isChain_append.mpr
      ⟨.singleton '-', (ih hfolded.2 hint).unfused, ?_⟩ : Token.Unfused (['-'] ++ operand.text))
    rintro c hc d hd
    obtain rfl : '-' = c := Option.some.inj hc
    exact (ih hfolded.2 hint).after (fun _ ↦ hminus) (by decide : '-' ∈ Operator.sub.symbol.toList) hd
  | binary op left right ihleft ihright =>
    obtain ⟨-, hminus, hleft, hright⟩ := hfolded
    have hsymbol : op.symbol.toList ≠ [] := by cases op <;> decide
    have hfirst := ihleft hleft hint.1
    have hsecond := ihright hright hint.2
    refine isSpaced_parenthesis (s := left.text ++ op.symbol.toList ++ right.text)
      (by simp [text]) ?_
    refine List.isChain_append.mpr ⟨List.isChain_append.mpr ⟨hfirst.unfused, ?_, ?_⟩,
      hsecond.unfused, ?_⟩
    · cases op <;> exact .singleton _
    · exact fun c hc d _ ↦ Token.ofPair?_eq_none (Or.inl (hfirst.last c hc))
    · intro c hc d hd
      rw [List.getLast?_append_of_ne_nil _ hsymbol] at hc
      exact hsecond.after hminus (List.mem_of_mem_getLast? hc) hd

end Formula

/-- What is written of a scalar that is made of integers and easings is read without double signs as
an expression that has the exact value of the operations, whatever the easings stand for. -/
theorem Recipe.build_reads {recipe : Recipe} {v : Scalar} (hint : recipe.IsIntegral)
    (hdiv : recipe.DividesNoNumbers) (h : recipe.build = .ok v) :
    ∃ tokens e, Token.scanLongest v.text.toList = some tokens ∧ Token.increment ∉ tokens ∧
      Token.decrement ∉ tokens ∧ Token.read? tokens = some e ∧
        ∀ env : Assignment, e.eval env = recipe.value env.atom := by
  obtain ⟨f, hf, hfolded, hintegral, hvalue⟩ := build_value hint hdiv h
  obtain ⟨tokens, e, hscan, hsigned, -, heval⟩ := f.reads hfolded hintegral
  obtain ⟨level, operand, hrun, -⟩ := Token.read?_eq_some.mp hsigned.read
  refine ⟨tokens, e, ?_, Reader.not_mem_of_run ?_ hrun, Reader.not_mem_of_run ?_ hrun,
    hsigned.read, fun env ↦ ?_⟩
  · rw [Scalar.toList_text hf, Token.scanLongest_eq_scan (f.isSpaced hfolded hintegral).unfused,
      hscan]
  · rintro ⟨levels, operand⟩
    cases operand <;> rfl
  · rintro ⟨levels, operand⟩
    cases operand <;> rfl
  · rw [heval, hvalue]

/-- A number that is made of integers and easings is an integer, and the value of the operations
whatever the easings stand for. -/
theorem Recipe.build_literal {recipe : Recipe} {n : Number} (hint : recipe.IsIntegral)
    (hdiv : recipe.DividesNoNumbers) (h : recipe.build = .ok (.literal n)) :
    ∃ i : ℤ, n = .int i ∧ ∀ atoms, recipe.value atoms = i := by
  obtain ⟨f, hf, -, hintegral, hvalue⟩ := build_value hint hdiv h
  cases hf
  obtain ⟨i, rfl⟩ := hintegral
  exact ⟨i, rfl, fun atoms ↦ (hvalue atoms).symm⟩

/-- A scalar that is made of integers and easings has a text, unless it is an integer with too many
digits. The text is read without double signs as an expression that has the exact value of the
operations, whatever the easings stand for. If the scalar is a number, it is that value. -/
theorem Recipe.build_text {recipe : Recipe} {v : Scalar} (hint : recipe.IsIntegral)
    (hdiv : recipe.DividesNoNumbers) (h : recipe.build = .ok v) :
    (if v.isWritable then
      ∃ text tokens e, v.text? = .ok text ∧ Token.scanLongest text.toList = some tokens ∧
        Token.increment ∉ tokens ∧ Token.decrement ∉ tokens ∧ Token.read? tokens = some e ∧
          ∀ env : Assignment, e.eval env = recipe.value env.atom
    else v.text? = .error .badValue) ∧
      ∀ n, v = .literal n → ∃ i : ℤ, n = .int i ∧ ∀ atoms, recipe.value atoms = i := by
  refine ⟨?_, fun n hn ↦ build_literal hint hdiv (hn ▸ h)⟩
  split_ifs with hwritable
  · obtain ⟨tokens, e, hreads⟩ := build_reads hint hdiv h
    exact ⟨v.text, tokens, e, Scalar.text?_eq_ok hwritable, hreads⟩
  · exact Scalar.text?_eq_error (Bool.eq_false_iff.mpr hwritable)

/-- Three times an easing less minus two, from nothing: `(0 - @ease1) * 3 - (-2)`. -/
def turnedRecipe : Recipe :=
  .binary .sub (.binary .mul (.binary .sub (.number 0) (.atom 1)) (.number (.int 3)))
    (.number (.int (-2)))

theorem Recipe.build_text_turned :
    turnedRecipe.IsIntegral ∧ turnedRecipe.DividesNoNumbers ∧
      ∃ v, turnedRecipe.build = .ok v ∧ v.text? = .ok "(((-@ease1(frame))*3)+2)" ∧
        ∃ text tokens e, v.text? = .ok text ∧ Token.scanLongest text.toList = some tokens ∧
          Token.increment ∉ tokens ∧ Token.read? tokens = some e ∧
            ∀ env : Assignment, e.eval env = (0 - env.atom 1) * 3 - (-2) := by
  have hint : turnedRecipe.IsIntegral := ⟨⟨⟨⟨0, rfl⟩, trivial⟩, ⟨3, rfl⟩⟩, ⟨-2, rfl⟩⟩
  have hdiv : turnedRecipe.DividesNoNumbers := by
    simp [turnedRecipe, DividesNoNumbers]
  have hbuild : (turnedRecipe.build.toOption.any fun v ↦
      v.isWritable && v.text == "(((-@ease1(frame))*3)+2)") = true := by decide +kernel
  obtain ⟨v, hv, htest⟩ := Except.exists_of_any hbuild
  obtain ⟨hwritable, htext⟩ := Bool.and_eq_true_iff.mp htest
  have hread := (build_text hint hdiv hv).1
  rw [if_pos hwritable] at hread
  obtain ⟨text, tokens, e, hshown, hscan, hplus, -, hread, heval⟩ := hread
  have hturned : v.text? = .ok "(((-@ease1(frame))*3)+2)" :=
    beq_iff_eq.mp htext ▸ Scalar.text?_eq_ok hwritable
  exact ⟨hint, hdiv, v, hv, hturned, text, tokens, e, hshown, hscan, hplus, hread, heval⟩

/-- The square of a power of ten, an integer of 4401 digits. -/
def overlongRecipe : Recipe :=
  .binary .mul (.number (.int (10 ^ 2200))) (.number (.int (10 ^ 2200)))

/-- Multiplied integers may be too long to be written. -/
theorem Recipe.build_text_overlong :
    overlongRecipe.IsIntegral ∧ overlongRecipe.DividesNoNumbers ∧
      ∃ v, overlongRecipe.build = .ok v ∧ v.text? = .error .badValue := by
  have hbuild : (overlongRecipe.build.toOption.any fun v ↦ !v.isWritable) = true := by decide +kernel
  obtain ⟨v, hv, hwritable⟩ := Except.exists_of_any hbuild
  exact ⟨⟨⟨_, rfl⟩, ⟨_, rfl⟩⟩, ⟨nofun, trivial, trivial⟩, v, hv,
    Scalar.text?_eq_error ((Bool.not_eq_true' _).mp hwritable)⟩

end Motion
