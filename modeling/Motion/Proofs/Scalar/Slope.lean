import Motion.Proofs.Scalar.Frame

/-!
Slopes. The text of a slope is put together beside the text of its scalar: an operation writes the
slopes of its operands with the operator that it writes between the operands themselves, even where
a neutral operand is dropped or a subtraction is turned into an addition. `Scalar.HasChange` tells
what the slope is at every frame; each operation is shown to do to it what it does to the value
(`HasChange.combine`, `HasChange.folded`), as long as a number counts as one
that does not change. For sums and differences that is the forward difference of the value
(`Recipe.build_hasChange`).
-/

set_option autoImplicit false
set_option relaxedAutoImplicit false

namespace Motion

open Expression

namespace Expression

/-- A text that is an operand wherever it stands: no operator beside it runs together with it. -/
structure IsClosed (s : List Char) (e : Expression) : Prop where
  operand : ∃ tokens, Token.scan s = some tokens ∧ Token.IsOperand tokens e
  unfused : Token.Unfused s
  head : ∀ c ∈ s.head?, Token.isOperatorMark c = false
  last : ∀ c ∈ s.getLast?, Token.isOperatorMark c = false

theorem isClosed_word {s : List Char} {e : Expression} (h : ofWord? s = some e) (hne : s ≠ [])
    (hletters : ∀ c ∈ s, Token.isLetter c = true) : IsClosed s e where
  operand := ⟨_, Token.scan_letters hne hletters, Token.isOperand_word h⟩
  unfused := Token.unfused_of_tail fun c hc ↦
    isOperatorMark_of_isLetter (hletters c (List.mem_of_mem_tail hc))
  head := fun c hc ↦ isOperatorMark_of_isLetter (hletters c (List.mem_of_mem_head? hc))
  last := fun c hc ↦ isOperatorMark_of_isLetter (hletters c (List.mem_of_mem_getLast? hc))

theorem isClosed_parenthesis {s : List Char} {tokens : List Token} {e : Expression}
    (hscan : Token.scan s = some tokens) (hread : Token.read? tokens = some e)
    (h : Token.Unfused s) : IsClosed ('(' :: s ++ [')']) e where
  operand := ⟨_, scan_parenthesis hscan, Token.isOperand_parenthesis hread⟩
  unfused := h.parenthesis
  head := fun c hc ↦ by cases hc; rfl
  last := fun c hc ↦ by
    rw [List.getLast?_concat] at hc
    cases hc
    rfl

theorem isClosed_call {function t : List Char} {tokens : List Token} {e : Expression}
    (hname : ofWord? function = some (.name function)) (hne : function ≠ [])
    (hletters : ∀ c ∈ function, Token.isLetter c = true) (hscan : Token.scan t = some tokens)
    (hread : Token.read? tokens = some e) (h : Token.Unfused t) :
    IsClosed (function ++ ('(' :: t ++ [')'])) (.call function e) := by
  have hword := isClosed_word hname hne hletters
  have hargument := isClosed_parenthesis hscan hread h
  refine ⟨⟨_, Token.scan_append rfl (Token.scan_letters hne hletters) (scan_parenthesis hscan),
    Token.isOperand_call hname hread⟩, ?_, ?_, ?_⟩
  · exact List.isChain_append.mpr ⟨hword.unfused, hargument.unfused,
      fun c hc d _ ↦ Token.ofPair?_eq_none (Or.inl (hword.last c hc))⟩
  · rw [List.head?_append_of_ne_nil _ hne]
    exact hword.head
  · have hend : '(' :: t ++ [')'] ≠ [] := List.cons_ne_nil _ _
    rw [List.getLast?_append_of_ne_nil _ hend]
    exact hargument.last

namespace IsClosed

variable {s t : List Char} {a b : Expression}

theorem unfused_between (hs : IsClosed s a) (ht : IsClosed t b) (op : Operator) :
    Token.Unfused (s ++ op.symbol.toList ++ t) := by
  have hsymbol : op.symbol.toList ≠ [] := by cases op <;> decide
  refine List.isChain_append.mpr ⟨List.isChain_append.mpr ⟨hs.unfused, ?_, ?_⟩, ht.unfused, ?_⟩
  · cases op <;> exact .singleton _
  · exact fun c hc d _ ↦ Token.ofPair?_eq_none (Or.inl (hs.last c hc))
  · exact fun c _ d hd ↦ Token.ofPair?_eq_none (Or.inr (ht.head d hd))

theorem binary (hs : IsClosed s a) (ht : IsClosed t b) (op : Operator) :
    IsClosed ('(' :: (s ++ op.symbol.toList ++ t) ++ [')']) (.binary op a b) := by
  obtain ⟨first, hfirst, ha⟩ := hs.operand
  obtain ⟨second, hsecond, hb⟩ := ht.operand
  exact isClosed_parenthesis (scan_between op hfirst hsecond)
    (ha.isSigned.binary hb.isSigned op) (hs.unfused_between ht op)

theorem opposite (hs : IsClosed s a) : IsClosed ('(' :: ('-' :: s) ++ [')']) (.neg a) := by
  obtain ⟨tokens, hscan, ha⟩ := hs.operand
  have hunfused : Token.Unfused (['-'] ++ s) := List.isChain_append.mpr
    ⟨.singleton '-', hs.unfused, fun c _ d hd ↦ Token.ofPair?_eq_none (Or.inr (hs.head d hd))⟩
  exact isClosed_parenthesis (Token.scan_cons rfl hscan) ha.isSigned.negate.read hunfused

theorem textAt?_eq {text : String} {e : Expression} (h : IsClosed text.toList e) (easings : Easings)
    (frame : ℤ) : textAt? easings frame text = e.valueAt? easings frame := by
  obtain ⟨tokens, hscan, hoperand⟩ := h.operand
  exact textAt?_of_read? easings frame hscan (Token.read?_of_isOperand hoperand) h.unfused

end IsClosed

end Expression

namespace Scalar

/-- Whether the slope of a scalar is known and is read as a given function of the easings and the
frame. The slope of a number is 0. -/
def HasChange (x : Scalar) (change : Easings → ℤ → ℚ) : Prop :=
  ∃ slope e, x.slope? = some slope ∧ IsClosed slope.text.toList e ∧
    ∀ easings frame, e.valueAt? easings frame = some (change easings frame)

theorem toList_infixText (s t : String) (op : Operator) :
    (infixText s op t).toList = '(' :: (s.toList ++ op.symbol.toList ++ t.toList) ++ [')'] := by
  simp [infixText]

theorem isClosed_zero : IsClosed (Slope.num 0).text.toList (.number 0) := by
  have htext : (Slope.num 0).text.toList = Decimal.digitsOf 0 := rfl
  rw [htext]
  exact isClosed_word (ofWord?_digitsOf 0) Nat.toDigits_ne_nil fun c hc ↦
    isLetter_of_isDigit (Numeral.isDigit_of_mem_digitsOf hc)

theorem hasChange_literal (n : Number) : (literal n).HasChange fun _ _ ↦ 0 :=
  ⟨_, _, rfl, isClosed_zero, fun _ _ ↦ rfl⟩

/-- A number does not change. -/
theorem HasChange.literal_eq {n : Number} {change : Easings → ℤ → ℚ}
    (h : (literal n).HasChange change) (easings : Easings) (frame : ℤ) :
    change easings frame = 0 := by
  obtain ⟨slope, e, hslope, hclosed, hvalue⟩ := h
  cases hslope
  have hread := hclosed.textAt?_eq easings frame
  rw [isClosed_zero.textAt?_eq, hvalue] at hread
  exact (Option.some.inj hread).symm

theorem isClosed_easing (index : ℕ) {argument : List Char} {tokens : List Token} {e : Expression}
    (hscan : Token.scan argument = some tokens) (hread : Token.read? tokens = some e)
    (h : Token.Unfused argument) :
    IsClosed ((tokenOf (easeName index)).toList ++ ('(' :: argument ++ [')']))
      (.call (tokenOf (easeName index)).toList e) := by
  refine isClosed_call (ofWord?_token index) ?_ (fun c ↦ isLetter_of_mem_token) hscan hread h
  rw [toList_token]
  exact List.cons_ne_nil _ _

theorem hasChange_atom (index : ℕ) : (atom index).HasChange fun easings frame ↦
    atomsAt easings (frame + 1) index - atomsAt easings frame index := by
  have hframe : Token.IsOperand [.word "frame".toList] (.name "frame".toList) :=
    Token.isOperand_word rfl
  have hone := Token.isOperand_word (ofWord?_digitsOf 1)
  have hscan : Token.scan "frame".toList = some [.word "frame".toList] := by decide
  have hscan' : Token.scan "frame+1".toList =
      some ([.word "frame".toList] ++ .operator .add :: [.word (Decimal.digitsOf 1)]) := by decide
  have hunfused : Token.Unfused "frame".toList := by
    unfold Token.Unfused
    decide
  have hunfused' : Token.Unfused "frame+1".toList := by
    unfold Token.Unfused
    decide
  have hnow := isClosed_easing index hscan (Token.read?_of_isOperand hframe) hunfused
  have hnext := isClosed_easing index hscan' (hframe.isSigned.binary hone.isSigned .add) hunfused'
  have htext : (Slope.expr ("(" ++ tokenOf (easeName index) ++ "(frame+1)-" ++
      tokenOf (easeName index) ++ "(frame))")).text.toList = '(' ::
        ((tokenOf (easeName index)).toList ++ ('(' :: "frame+1".toList ++ [')']) ++
          Operator.sub.symbol.toList ++
            ((tokenOf (easeName index)).toList ++ ('(' :: "frame".toList ++ [')']))) ++ [')'] := by
    simp [Slope.text, Operator.symbol]
  have hclosed := hnext.binary hnow .sub
  rw [← htext] at hclosed
  refine ⟨_, _, rfl, hclosed, fun easings frame ↦ ?_⟩
  have htime : (binary .add (name "frame".toList) (Expression.number (1 : ℕ))).valueAt? easings frame =
      some ((frame + 1 : ℤ) : ℚ) := by
    rw [valueAt?_binary easings frame .add rfl rfl, Operator.apply]
    push_cast
    rfl
  exact valueAt?_binary easings frame .sub (valueAt?_call easings frame htime)
    (valueAt?_call easings frame rfl)

/-- A parabola goes from 9 to 16 between the frames 3 and 4. -/
example : textAt? (fun _ frame ↦ frame ^ 2) 3 "(@ease1(frame+1)-@ease1(frame))" = some 7 := by
  decide +kernel

theorem HasChange.congr {x : Scalar} {change other : Easings → ℤ → ℚ} (h : x.HasChange change)
    (heq : ∀ easings frame, change easings frame = other easings frame) : x.HasChange other := by
  obtain ⟨slope, e, hslope, hclosed, hvalue⟩ := h
  exact ⟨slope, e, hslope, hclosed, fun easings frame ↦ by rw [hvalue, heq]⟩

theorem HasChange.negate {x : Scalar} {change : Easings → ℤ → ℚ} (h : x.HasChange change) :
    x.negate.HasChange fun easings frame ↦ -change easings frame := by
  cases x with
  | literal n =>
    exact (hasChange_literal n.neg).congr fun easings frame ↦ by
      rw [h.literal_eq easings frame, neg_zero]
  | expr text slope =>
    obtain ⟨slope, e, hslope, hclosed, hvalue⟩ := h
    cases hslope
    refine ⟨_, .neg e, rfl, ?_, fun easings frame ↦ valueAt?_neg easings frame (hvalue _ _)⟩
    have htext : ("(-" ++ slope.text ++ ")").toList = '(' :: ('-' :: slope.text.toList) ++ [')'] := by
      simp
    rw [Slope.text, htext]
    exact hclosed.opposite

/-- The slope of an operation that is written: the operator is that of the operation, or a plus sign
before the slope of a number. -/
theorem slope?_combine {x y : Scalar} {p q : Slope} (hx : x.slope? = some p)
    (hy : y.slope? = some q) (op : Operator) :
    ∃ sign, (x.combine op y).slope? = some (.expr (infixText p.text sign q.text)) ∧
      (sign = op ∨ op = .sub ∧ sign = .add ∧ ∃ n, y = .literal n) := by
  cases y with
  | expr text slope =>
    rw [combine, hx, hy]
    · exact ⟨op, rfl, Or.inl rfl⟩
    · intro _ _ hliteral
      cases hliteral
  | literal n =>
    cases op with
    | sub =>
      rw [combine, hx, hy]
      cases hnegative : n.lt 0 with
      | true => exact ⟨.add, rfl, Or.inr ⟨rfl, rfl, n, rfl⟩⟩
      | false => exact ⟨.sub, rfl, Or.inl rfl⟩
    | add | mul | div =>
      rw [combine, hx, hy]
      · exact ⟨_, rfl, Or.inl rfl⟩
      · intro _ hsub
        cases hsub

theorem eq_literal_of_isLiteral {x : Scalar} {n : Number} (h : x.isLiteral n = true) :
    ∃ m, x = literal m := by
  cases x with
  | literal m => exact ⟨m, rfl⟩
  | expr text slope => cases h

theorem HasChange.combine {x y : Scalar} {first second : Easings → ℤ → ℚ}
    (hx : x.HasChange first) (hy : y.HasChange second) (op : Operator) :
    (x.combine op y).HasChange fun easings frame ↦
      op.apply (first easings frame) (second easings frame) := by
  obtain ⟨p, a, hp, ha, hfirst⟩ := id hx
  obtain ⟨q, b, hq, hb, hsecond⟩ := id hy
  obtain ⟨sign, hslope, hsign⟩ := slope?_combine hp hq op
  refine ⟨_, .binary sign a b, hslope, ?_, fun easings frame ↦ ?_⟩
  · rw [Slope.text, toList_infixText]
    exact ha.binary hb sign
  · rw [valueAt?_binary easings frame sign (hfirst _ _) (hsecond _ _)]
    rcases hsign with rfl | ⟨rfl, rfl, n, rfl⟩
    · rfl
    · change some (first easings frame + second easings frame) =
        some (first easings frame - second easings frame)
      rw [hy.literal_eq easings frame, add_zero, sub_zero]

/-- An operation on two numbers that are not dropped, or one that is written. -/
theorem HasChange.operation {x y v : Scalar} {first second : Easings → ℤ → ℚ}
    (hx : x.HasChange first) (hy : y.HasChange second) (op : Operator)
    (h : (match x, y with
      | .literal a, .literal b => inRange ((a.operate op b).map literal)
      | x, y => x.combine? op y) = .ok v) :
    v.HasChange fun easings frame ↦ op.apply (first easings frame) (second easings frame) := by
  have hwritten (h : x.combine? op y = .ok v) :
      v.HasChange fun easings frame ↦ op.apply (first easings frame) (second easings frame) := by
    obtain ⟨_, -, h⟩ := Except.bind_eq_ok h
    cases h
    exact hx.combine hy op
  cases x with
  | expr text slope => exact hwritten h
  | literal a =>
    cases y with
    | expr text slope => exact hwritten h
    | literal b =>
      cases hc : a.operate op b with
      | none => simp [hc, inRange] at h
      | some c =>
        simp only [hc, Option.map_some, inRange] at h
        cases h
        have hzero : op.apply 0 0 = 0 := by cases op <;> simp [Operator.apply]
        exact (hasChange_literal c).congr fun easings frame ↦ by
          rw [hx.literal_eq easings frame, hy.literal_eq easings frame, hzero]

/-- A sum or a difference, in which a zero is dropped. Without the first operand there is left what the
operation makes of the second one alone. -/
theorem HasChange.folded {x y v alone : Scalar} {first second : Easings → ℤ → ℚ}
    (hx : x.HasChange first) (hy : y.HasChange second) (op : Operator)
    (halone : alone.HasChange fun easings frame ↦ op.apply 0 (second easings frame))
    (hneutral : ∀ q, op.apply q 0 = q)
    (h : (if x.isLiteral 0 then .ok alone
      else if y.isLiteral 0 then .ok x
      else match x, y with
        | .literal a, .literal b => inRange ((a.operate op b).map literal)
        | x, y => x.combine? op y) = .ok v) :
    v.HasChange fun easings frame ↦ op.apply (first easings frame) (second easings frame) := by
  split_ifs at h with hzero hzero'
  · obtain ⟨n, rfl⟩ := eq_literal_of_isLiteral hzero
    cases h
    exact halone.congr fun easings frame ↦ by rw [hx.literal_eq easings frame]
  · obtain ⟨n, rfl⟩ := eq_literal_of_isLiteral hzero'
    cases h
    exact hx.congr fun easings frame ↦ by rw [hy.literal_eq easings frame, hneutral]
  · exact hx.operation hy op h

theorem HasChange.add {x y v : Scalar} {first second : Easings → ℤ → ℚ} (hx : x.HasChange first)
    (hy : y.HasChange second) (h : x.add y = .ok v) :
    v.HasChange fun easings frame ↦ first easings frame + second easings frame :=
  hx.folded hy .add (hy.congr fun _ _ ↦ (zero_add _).symm) add_zero h

theorem HasChange.subtract {x y v : Scalar} {first second : Easings → ℤ → ℚ}
    (hx : x.HasChange first) (hy : y.HasChange second) (h : x.subtract y = .ok v) :
    v.HasChange fun easings frame ↦ first easings frame - second easings frame :=
  hx.folded hy .sub (hy.negate.congr fun _ _ ↦ (zero_sub _).symm) sub_zero h

end Scalar

namespace Recipe

/-- Recipes of sums, differences and negations. -/
def IsAdditive : Recipe → Prop
  | number _ => True
  | atom _ => True
  | neg operand => operand.IsAdditive
  | binary op left right => op.isAdditive = true ∧ left.IsAdditive ∧ right.IsAdditive

theorem IsAdditive.dividesNoNumbers {recipe : Recipe} (h : recipe.IsAdditive) :
    recipe.DividesNoNumbers := by
  induction recipe with
  | number value => trivial
  | atom index => trivial
  | neg operand ih => exact ih h
  | binary op left right ihleft ihright =>
    obtain ⟨hop, hleft, hright⟩ := h
    refine ⟨?_, ihleft hleft, ihright hright⟩
    rintro rfl
    cases hop

/-- The slope of a sum of numbers and easings is the forward difference of its exact value. -/
theorem build_hasChange {recipe : Recipe} {v : Scalar} (hadditive : recipe.IsAdditive)
    (h : recipe.build = .ok v) : v.HasChange fun easings frame ↦
      recipe.value (atomsAt easings (frame + 1)) - recipe.value (atomsAt easings frame) := by
  induction recipe generalizing v with
  | number n =>
    cases h
    exact (Scalar.hasChange_literal n).congr fun easings frame ↦ (sub_self _).symm
  | atom index =>
    cases h
    exact Scalar.hasChange_atom index
  | neg operand ih =>
    obtain ⟨x, hx, rfl⟩ := build_neg h
    refine (ih hadditive hx).negate.congr fun easings frame ↦ ?_
    rw [value, value]
    ring
  | binary op left right ihleft ihright =>
    obtain ⟨hop, hleft, hright⟩ := hadditive
    obtain ⟨x, hx, h⟩ := Except.bind_eq_ok h
    obtain ⟨y, hy, h⟩ := Except.bind_eq_ok h
    have hfirst := ihleft hleft hx
    have hsecond := ihright hright hy
    cases op with
    | add =>
      refine (hfirst.add hsecond h).congr fun easings frame ↦ ?_
      rw [value, value, Operator.apply, Operator.apply]
      ring
    | sub =>
      refine (hfirst.subtract hsecond h).congr fun easings frame ↦ ?_
      rw [value, value, Operator.apply, Operator.apply]
      ring
    | mul | div => cases hop

end Recipe

/-- Whether a text is, at every frame and whatever the easings are, the change of a value until the
next frame. -/
def IsForwardDifference (text : String) (value : Easings → ℤ → Option ℚ) : Prop :=
  ∀ easings frame, ∃ now next, value easings frame = some now ∧
    value easings (frame + 1) = some next ∧ textAt? easings frame text = some (next - now)

namespace Scalar

/-- Whether a scalar is made of integers and easings by sums, differences and negations. -/
def IsLinear (x : Scalar) : Prop :=
  ∃ recipe : Recipe, recipe.IsIntegral ∧ recipe.IsAdditive ∧ recipe.build = .ok x

theorem HasChange.isForwardDifference {x : Scalar} {change : Easings → ℤ → ℚ}
    (h : x.HasChange change) {value : Easings → ℤ → ℚ}
    (hchange : ∀ easings frame,
      change easings frame = value easings (frame + 1) - value easings frame)
    {read : Easings → ℤ → Option ℚ} (hread : ∀ easings frame,
      read easings frame = some (value easings frame)) :
    ∃ slope, x.slope = .ok slope ∧ IsForwardDifference slope.text read := by
  obtain ⟨slope, e, hslope, hclosed, hvalue⟩ := h
  refine ⟨slope, by rw [Scalar.slope, hslope], fun easings frame ↦
    ⟨_, _, hread easings frame, hread easings (frame + 1), ?_⟩⟩
  rw [hclosed.textAt?_eq, hvalue, hchange]

/-- A linear number is an integer. -/
theorem IsLinear.literal {n : Number} (h : (literal n).IsLinear) : ∃ i : ℤ, n = .int i := by
  obtain ⟨recipe, hint, hadditive, hbuild⟩ := h
  obtain ⟨f, hf, -, hintegral, -⟩ := recipe.build_value hint hadditive.dividesNoNumbers hbuild
  cases hf
  exact hintegral

/-- A linear scalar has a value at every frame, which its characters read as, and its slope is the change
of that. -/
theorem IsLinear.exists_value {x : Scalar} (h : x.IsLinear) : ∃ value : Easings → ℤ → ℚ,
    (∀ easings frame, textAt? easings frame x.text = some (value easings frame)) ∧
      (∀ easings frame, x.valueAt? easings frame = some (value easings frame)) ∧
      x.HasChange fun easings frame ↦ value easings (frame + 1) - value easings frame := by
  obtain ⟨recipe, hint, hadditive, hbuild⟩ := h
  obtain ⟨f, hf, hfolded, hintegral, hvalue⟩ :=
    recipe.build_value hint hadditive.dividesNoNumbers hbuild
  have hread (easings : Easings) (frame : ℤ) : textAt? easings frame x.text =
      some (recipe.value (atomsAt easings frame)) := by
    rw [textAt?_of_isWrittenBy easings frame hf hfolded hintegral, hvalue]
  refine ⟨fun easings frame ↦ recipe.value (atomsAt easings frame), hread, ?_,
    recipe.build_hasChange hadditive hbuild⟩
  intro easings frame
  cases x with
  | expr text slope => exact hread easings frame
  | literal n =>
    obtain ⟨i, rfl, hnumber⟩ := recipe.build_literal hint hadditive.dividesNoNumbers hbuild
    exact congrArg some (hnumber _).symm

end Scalar

end Motion
