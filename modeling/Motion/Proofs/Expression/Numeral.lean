import Motion.Proofs.Expression.Joining
import Motion.Proofs.Number.Numeral

/-!
Integers in expressions: the text of an integer reads as the integer, with its sign as a sign in
front of an operand.
-/

set_option autoImplicit false
set_option relaxedAutoImplicit false

namespace Motion

/-- Letters that stand together are one word. -/
theorem Token.scan_letters {s : List Char} (hne : s ≠ []) (h : ∀ c ∈ s, isLetter c = true) :
    scan s = some [word s] := by
  induction s with
  | nil => exact absurd rfl hne
  | cons c rest ih =>
    obtain ⟨hc, hrest⟩ := List.forall_mem_cons.mp h
    rw [scan, scanStep, if_pos hc]
    cases rest with
    | nil => rfl
    | cons d rest =>
      rw [ih (List.cons_ne_nil d rest) hrest, List.head?_cons, Option.any_some,
        hrest d List.mem_cons_self]
      rfl

theorem isLetter_of_isDigit {c : Char} (h : c.isDigit = true) : Token.isLetter c = true := by
  simp [Token.isLetter, Char.isAlphanum, h]

namespace Expression

theorem ofWord?_digitsOf (n : ℕ) : ofWord? (Decimal.digitsOf n) = some (.number n) := by
  have hne : Decimal.digitsOf n ≠ [] := Nat.toDigits_ne_nil
  rw [ofWord?, Numeral.decimal?_digits hne fun c ↦ Numeral.isDigit_of_mem_digitsOf,
    Numeral.ofDigits_digitsOf]
  simp [Decimal.toRat, Decimal.powerOfTen]

/-- The expression that the text of an integer is: a negative integer has its sign in front. -/
def ofInt : ℤ → Expression
  | .ofNat n => number n
  | .negSucc n => neg (number (n + 1 : ℕ))

theorem eval_ofInt (env : Assignment) (i : ℤ) : (ofInt i).eval env = i := by
  cases i with
  | ofNat n => rfl
  | negSucc n => simp [ofInt, eval]

theorem isSigned_ofInt (i : ℤ) : ∃ tokens, Token.scan (Number.intText i) = some tokens ∧
    Token.IsSigned tokens (ofInt i) := by
  have hscan (n : ℕ) : Token.scan (Decimal.digitsOf n) = some [.word (Decimal.digitsOf n)] :=
    Token.scan_letters Nat.toDigits_ne_nil fun c hc ↦
      isLetter_of_isDigit (Numeral.isDigit_of_mem_digitsOf hc)
  have hoperand (n : ℕ) := Token.isOperand_word (ofWord?_digitsOf n)
  cases i with
  | ofNat n => exact ⟨_, hscan n, (hoperand n).isSigned⟩
  | negSucc n => exact ⟨_, Token.scan_cons rfl (hscan (n + 1)), (hoperand (n + 1)).isSigned.negate⟩

/-- The text of an integer is the integer. -/
theorem isSigned_intText (i : ℤ) : ∃ tokens e, Token.scan (Number.intText i) = some tokens ∧
    Token.IsSigned tokens e ∧ ∀ env, e.eval env = i := by
  obtain ⟨tokens, hscan, hsigned⟩ := isSigned_ofInt i
  exact ⟨tokens, ofInt i, hscan, hsigned, fun env ↦ eval_ofInt env i⟩

end Expression

end Motion
