import Motion.Proofs.Scalar.Text

/-!
Scalars over time. Where the easings are functions of the frame, an expression has a value at each
frame, unless it reads something else than `frame` and easings at frames. The text of an integral
formula has the value that the formula has for what the easings are at the frame.
-/

set_option autoImplicit false
set_option relaxedAutoImplicit false

namespace Motion

open Expression

/-- What the easings are, by their tokens: functions of the frame. -/
abbrev Easings :=
  List Char → ℤ → ℚ

/-- The value of an expression at a frame. Names other than `frame`, calls between frames and values
of a document have none. -/
def Expression.valueAt? (easings : Easings) (frame : ℤ) : Expression → Option ℚ
  | number value => some value
  | name word => if word = "frame".toList then some frame else none
  | call function argument => do
    let time ← argument.valueAt? easings frame
    if time.den = 1 then some (easings function time.num) else none
  | neg operand => do
    return -(← operand.valueAt? easings frame)
  | binary op left right => do
    return op.apply (← left.valueAt? easings frame) (← right.valueAt? easings frame)
  | special _ => none

/-- The value at a frame of the expression that a text is, if each of its tokens is taken as long as
it can be. -/
def textAt? (easings : Easings) (frame : ℤ) (text : String) : Option ℚ := do
  let tokens ← Token.scanLongest text.toList
  let e ← Token.read? tokens
  e.valueAt? easings frame

/-- The value of a scalar at a frame: that of a number, or that which its expression has. -/
def Scalar.valueAt? (x : Scalar) (easings : Easings) (frame : ℤ) : Option ℚ :=
  match x with
  | literal n => n.toRat?
  | expr text _ => textAt? easings frame text

/-- What the easings are at a frame, by their numbers. -/
def atomsAt (easings : Easings) (frame : ℤ) (index : ℕ) : ℚ :=
  easings (tokenOf (easeName index)).toList frame

section Values

variable (easings : Easings) (frame : ℤ)

theorem textAt?_of_read? {text : String} {tokens : List Token} {e : Expression}
    (hscan : Token.scan text.toList = some tokens) (hread : Token.read? tokens = some e)
    (h : Token.Unfused text.toList) :
    textAt? easings frame text = e.valueAt? easings frame := by
  rw [textAt?, Token.scanLongest_eq_scan h, hscan, Option.bind_eq_bind, Option.bind_some, hread]
  rfl

theorem valueAt?_call {function : List Char} {argument : Expression} {time : ℤ}
    (h : argument.valueAt? easings frame = some (time : ℚ)) :
    (call function argument).valueAt? easings frame = some (easings function time) := by
  rw [valueAt?, h, Option.bind_eq_bind, Option.bind_some, if_pos (Rat.den_intCast time),
    Rat.num_intCast]

theorem valueAt?_neg {operand : Expression} {x : ℚ}
    (h : operand.valueAt? easings frame = some x) :
    (neg operand).valueAt? easings frame = some (-x) := by
  rw [valueAt?, h]
  rfl

theorem valueAt?_binary (op : Operator) {left right : Expression} {x y : ℚ}
    (hleft : left.valueAt? easings frame = some x)
    (hright : right.valueAt? easings frame = some y) :
    (binary op left right).valueAt? easings frame = some (op.apply x y) := by
  rw [valueAt?, hleft, hright]
  rfl

theorem valueAt?_ofInt (i : ℤ) : (ofInt i).valueAt? easings frame = some (i : ℚ) := by
  cases i with
  | ofNat n => rfl
  | negSucc n =>
    rw [ofInt, valueAt?_neg easings frame rfl, Int.cast_negSucc]

theorem Formula.valueAt?_expression {f : Formula} (hint : f.IsIntegral) :
    f.expression.valueAt? easings frame = some (f.value (atomsAt easings frame)) := by
  induction f with
  | number n =>
    obtain ⟨i, rfl⟩ := hint
    exact valueAt?_ofInt easings frame i
  | atom index => exact valueAt?_call easings frame rfl
  | neg operand ih => exact valueAt?_neg easings frame (ih hint)
  | binary op left right ihleft ihright =>
    exact valueAt?_binary easings frame op (ihleft hint.1) (ihright hint.2)

/-- The text of a scalar that an integral formula writes. -/
theorem Scalar.textAt?_of_isWrittenBy {x : Scalar} {f : Formula} (h : x.IsWrittenBy f)
    (hfolded : f.IsFolded) (hint : f.IsIntegral) :
    textAt? easings frame x.text = some (f.value (atomsAt easings frame)) := by
  obtain ⟨tokens, hscan, hsigned, -⟩ := f.scan_text hfolded hint
  have hunfused := (f.isSpaced hfolded hint).unfused
  rw [← toList_text h] at hscan hunfused
  rw [textAt?_of_read? easings frame hscan hsigned.read hunfused]
  exact f.valueAt?_expression easings frame hint

end Values

end Motion
