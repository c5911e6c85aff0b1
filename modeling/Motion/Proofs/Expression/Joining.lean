import Motion.Proofs.Expression.Reading
import Motion.Scene.Binding
import Mathlib.Tactic.Ring

/-!
What texts read as once they are put together. A text in parentheses is an operand wherever it
stands. A text without parentheses may follow a plus sign, and, if no sign is at its top level, a
minus sign or an asterisk; what it reads as is then added, subtracted or multiplied, though the
operations are grouped in another way.
-/

set_option autoImplicit false
set_option relaxedAutoImplicit false

namespace Motion

open Expression

namespace Expression

theorem eval_joined (env : Assignment) (left : Expression) (op : Operator) (operand : Expression) :
    (joined (some (left, op)) operand).eval env = op.apply (left.eval env) (operand.eval env) :=
  rfl

end Expression

namespace Level

/-- Levels of which one has a further sum in front, to which all that comes is added. -/
structure Shifted (k : Assignment → ℚ) (level other : Level) : Prop where
  product : other.product = level.product
  negations : other.negations = level.negations
  sum : ∀ env x, (joined other.sum x).eval env = k env + (joined level.sum x).eval env

namespace Shifted

variable {k : Assignment → ℚ} {level other : Level}

theorem term (h : Shifted k level other) (x : Expression) : other.term x = level.term x := by
  rw [Level.term, Level.term, h.product, h.negations]

theorem total (h : Shifted k level other) (env : Assignment) (x : Expression) :
    (other.total x).eval env = k env + (level.total x).eval env := by
  rw [Level.total, Level.total, h.term, h.sum]

theorem negate (h : Shifted k level other) : Shifted k level.negate other.negate :=
  ⟨h.product, congrArg (· + 1) h.negations, h.sum⟩

theorem factor (h : Shifted k level other) (x : Expression) (op : Operator) :
    Shifted k (level.factor x op) (other.factor x op) :=
  ⟨by rw [Level.factor, Level.factor, h.term], rfl, h.sum⟩

theorem addend (h : Shifted k level other) (x : Expression) {op : Operator}
    (hop : op.isAdditive = true) : Shifted k (level.addend x op) (other.addend x op) := by
  refine ⟨rfl, rfl, fun env y ↦ ?_⟩
  rw [Level.addend, Level.addend, eval_joined, eval_joined, h.total]
  cases op with
  | add => exact add_assoc _ _ _
  | sub => exact add_sub_assoc _ _ _
  | mul | div => cases hop

end Shifted

/-- Levels of which one has a further factor in front of the product, and the given sum before
that. -/
structure Scaled (k : Assignment → ℚ) (sum : Option (Expression × Operator)) (level other : Level) :
    Prop where
  sum : other.sum = sum
  term : ∀ env x, (other.term x).eval env = k env * (level.term x).eval env

namespace Scaled

variable {k : Assignment → ℚ} {sum : Option (Expression × Operator)} {level other : Level}

theorem negate (h : Scaled k sum level other) : Scaled k sum level.negate other.negate := by
  have hnegate (any : Level) (x : Expression) : any.negate.term x = any.term (neg x) := by
    rw [Level.term, Level.term, Level.negate, Function.iterate_succ_apply]
  refine ⟨h.sum, fun env x ↦ ?_⟩
  rw [hnegate, hnegate, h.term]

theorem factor (h : Scaled k sum level other) (x : Expression) {op : Operator}
    (hop : op.isAdditive = false) : Scaled k sum (level.factor x op) (other.factor x op) := by
  have hfactor (any : Level) (env : Assignment) (y : Expression) :
      ((any.factor x op).term y).eval env = op.apply ((any.term x).eval env) (y.eval env) := rfl
  refine ⟨h.sum, fun env y ↦ ?_⟩
  rw [hfactor, hfactor, h.term]
  cases op with
  | mul => exact mul_assoc _ _ _
  | div => exact mul_div_assoc _ _ _
  | add | sub => cases hop

end Scaled

end Level

namespace Token

/-- Reading is a run to its end with one level left. -/
theorem read?_eq_some {tokens : List Token} {e : Expression} :
    read? tokens = some e ↔ ∃ level operand,
      Reader.start.run tokens = some ⟨[level], some operand⟩ ∧ level.total operand = e := by
  rw [read?, Option.bind_eq_some_iff]
  constructor
  · rintro ⟨⟨levels, operand⟩, hrun, hfinish⟩
    match levels, operand with
    | [level], some operand => exact ⟨level, operand, hrun, Option.some.inj hfinish⟩
  · rintro ⟨level, operand, hrun, rfl⟩
    exact ⟨_, hrun, rfl⟩

theorem wordsApart_of_read? {tokens : List Token} {e : Expression} (h : read? tokens = some e) :
    WordsApart tokens := by
  obtain ⟨_, _, hrun, -⟩ := read?_eq_some.mp h
  exact Reader.wordsApart_of_run hrun

/-- Tokens that are an operand in any place. -/
def IsOperand (tokens : List Token) (e : Expression) : Prop :=
  ∀ level below, Reader.run ⟨level :: below, none⟩ tokens = some ⟨level :: below, some e⟩

theorem isOperand_word {letters : List Char} {e : Expression} (h : ofWord? letters = some e) :
    IsOperand [word letters] e := by
  intro level below
  simp [Reader.run, Reader.step, Reader.begin, h]

/-- Tokens that are an operand with signs in front of it. -/
def IsSigned (tokens : List Token) (e : Expression) : Prop :=
  ∃ k x, e = neg^[k] x ∧ ∀ level below, Reader.run ⟨level :: below, none⟩ tokens =
    some ⟨{ level with negations := level.negations + k } :: below, some x⟩

theorem IsOperand.isSigned {tokens : List Token} {e : Expression} (h : IsOperand tokens e) :
    IsSigned tokens e :=
  ⟨0, e, rfl, h⟩

theorem IsSigned.negate {tokens : List Token} {e : Expression} (h : IsSigned tokens e) :
    IsSigned (operator .sub :: tokens) (neg e) := by
  obtain ⟨k, x, rfl, hrun⟩ := h
  refine ⟨k + 1, x, (Function.iterate_succ_apply' _ _ _).symm, fun level below ↦ ?_⟩
  have hnext := hrun level.negate below
  rw [Level.negate, Nat.add_right_comm] at hnext
  exact hnext

theorem IsSigned.read {tokens : List Token} {e : Expression} (h : IsSigned tokens e) :
    read? tokens = some e := by
  obtain ⟨k, x, rfl, hrun⟩ := h
  refine read?_eq_some.mpr ⟨_, x, hrun (.start none) [], ?_⟩
  simp [Level.total, Level.term, Level.start, joined]

theorem IsSigned.binary {first second : List Token} {a b : Expression} (hfirst : IsSigned first a)
    (hsecond : IsSigned second b) (op : Operator) :
    read? (first ++ operator op :: second) = some (.binary op a b) := by
  obtain ⟨k, x, rfl, hrun⟩ := hfirst
  obtain ⟨n, y, rfl, hnext⟩ := hsecond
  let level := ({ Level.start none with negations := 0 + k } : Level).extend x op
  refine read?_eq_some.mpr ⟨{ level with negations := level.negations + n }, y, ?_, ?_⟩
  · rw [Reader.run_append, Reader.start, hrun]
    exact hnext level []
  · cases op <;> simp [level, Level.extend, Level.addend, Level.factor, Level.total,
      Level.term, Level.start, Operator.isAdditive, joined]

/-- What is read within a parenthesis does not depend on what stands before it. -/
theorem run_within {tokens : List Token} {e : Expression} (h : read? tokens = some e)
    (callee : Option (List Char)) (level : Level) (below : List Level) :
    Reader.run ⟨.start callee :: level :: below, none⟩ (tokens ++ [closing]) =
      some ⟨level :: below, some ((callee.map fun function ↦ call function e).getD e)⟩ := by
  obtain ⟨final, operand, hrun, rfl⟩ := read?_eq_some.mp h
  obtain ⟨other, rfl, hother⟩ := Reader.run_lowest (level :: below) (.start callee)
    (R := fun level other ↦ other = { level with callee := callee })
    (by rintro level _ rfl; rfl) (by rintro level _ x op - rfl; rfl)
    (by rintro - level _ x op rfl -; rfl) hrun rfl
  rw [Reader.run_append, hother, Option.bind_some]
  cases callee <;> rfl

theorem isOperand_parenthesis {tokens : List Token} {e : Expression} (h : read? tokens = some e) :
    IsOperand (opening :: tokens ++ [closing]) e :=
  fun level below ↦ run_within h none level below

theorem isOperand_call {function : List Char} {tokens : List Token} {e : Expression}
    (hname : ofWord? function = some (.name function)) (h : read? tokens = some e) :
    IsOperand (word function :: opening :: tokens ++ [closing]) (.call function e) := by
  intro level below
  have hword := isOperand_word hname level below
  rw [show word function :: opening :: tokens ++ [closing] =
    [word function] ++ opening :: (tokens ++ [closing]) from rfl, Reader.run_append, hword]
  exact run_within h (some function) level below

theorem read?_of_isOperand {tokens : List Token} {e : Expression} (h : IsOperand tokens e) :
    read? tokens = some e :=
  read?_eq_some.mpr ⟨_, _, h (.start none) [], rfl⟩

/-- Where no sign is at the top level, what has been read is no sum. -/
theorem sum_eq_none {tokens : List Token} {final : Level} {operand : Expression}
    (h : Reader.start.run tokens = some ⟨[final], some operand⟩)
    (hsign : hasTopLevelSign 0 tokens = false) : final.sum = none := by
  obtain ⟨-, hsum, -⟩ := Reader.run_lowest (R := fun level _ ↦ level.sum = none) []
    (.start none) (fun _ _ ↦ id) (fun _ _ _ _ _ ↦ id)
    (fun htop ↦ absurd hsign (by simp [htop])) h rfl
  exact hsum

/-- Tokens may follow a plus sign: their value is added to what stands before it. -/
theorem read?_addend {tokens : List Token} {e : Expression} (h : read? tokens = some e)
    (level : Level) (x : Expression) : ∃ whole,
      (Reader.run ⟨[level.addend x .add], none⟩ tokens).bind Reader.finish = some whole ∧
        ∀ env, whole.eval env = (level.total x).eval env + e.eval env := by
  obtain ⟨final, operand, hrun, rfl⟩ := read?_eq_some.mp h
  obtain ⟨other, hshifted, hother⟩ := Reader.run_lowest [] (level.addend x .add)
    (R := Level.Shifted fun env ↦ (level.total x).eval env) (fun _ _ ↦ Level.Shifted.negate)
    (fun _ _ y op _ h ↦ Level.Shifted.factor h y op)
    (fun _ _ _ y _ h hop ↦ Level.Shifted.addend h y hop) hrun ⟨rfl, rfl, fun env y ↦ rfl⟩
  exact ⟨other.total operand, by rw [hother]; rfl, fun env ↦ hshifted.total env operand⟩

/-- Tokens that are an expression and may stand next to any operator: either no sign is at their top
level or they are an operand. -/
structure IsTerm (tokens : List Token) (e : Expression) : Prop where
  read : read? tokens = some e
  plain : hasTopLevelSign 0 tokens = false ∨ IsOperand tokens e

theorem IsTerm.run {tokens : List Token} {e : Expression} (h : IsTerm tokens e) :
    ∃ level operand, Reader.start.run tokens = some ⟨[level], some operand⟩ ∧
      level.sum = none ∧ level.total operand = e := by
  rcases h.plain with hsign | hoperand
  · obtain ⟨level, operand, hrun, htotal⟩ := read?_eq_some.mp h.read
    exact ⟨level, operand, hrun, sum_eq_none hrun hsign, htotal⟩
  · exact ⟨.start none, e, hoperand _ _, rfl, rfl⟩

/-- A term may follow whatever multiplies an operand. -/
theorem IsTerm.scaled {tokens : List Token} {e : Expression} (h : IsTerm tokens e) (level : Level)
    (k : Assignment → ℚ)
    (hlevel : ∀ env x, (level.term x).eval env = k env * x.eval env) : ∃ product,
      (Reader.run ⟨[level], none⟩ tokens).bind Reader.finish = some (joined level.sum product) ∧
        ∀ env, product.eval env = k env * e.eval env := by
  rcases h.plain with hsign | hoperand
  swap
  · exact ⟨level.term e, by rw [hoperand]; rfl, fun env ↦ hlevel env e⟩
  obtain ⟨final, operand, hrun, rfl⟩ := read?_eq_some.mp h.read
  obtain ⟨other, hscaled, hother⟩ := Reader.run_lowest [] level
    (R := Level.Scaled k level.sum) (fun _ _ ↦ Level.Scaled.negate)
    (fun _ _ x op hop h ↦ Level.Scaled.factor h x hop)
    (fun htop ↦ absurd hsign (by simp [htop])) hrun ⟨rfl, hlevel⟩
  refine ⟨other.term operand, ?_, fun env ↦ ?_⟩
  · rw [hother, ← hscaled.sum]
    rfl
  · rw [hscaled.term, Level.total, sum_eq_none hrun hsign, joined]

theorem read?_sum {first second : List Token} {a b : Expression} (hfirst : read? first = some a)
    (hsecond : read? second = some b) : ∃ e, read? (first ++ operator .add :: second) = some e ∧
      ∀ env, e.eval env = a.eval env + b.eval env := by
  obtain ⟨level, operand, hrun, rfl⟩ := read?_eq_some.mp hfirst
  obtain ⟨e, he, heval⟩ := read?_addend hsecond level operand
  exact ⟨e, by rw [read?, Reader.run_append, hrun]; exact he, heval⟩

theorem IsTerm.difference {first second : List Token} {a b : Expression}
    (hfirst : read? first = some a) (hsecond : IsTerm second b) :
    ∃ e, read? (first ++ operator .sub :: second) = some e ∧
      ∀ env, e.eval env = a.eval env - b.eval env := by
  obtain ⟨level, operand, hrun, rfl⟩ := read?_eq_some.mp hfirst
  obtain ⟨product, hproduct, heval⟩ := hsecond.scaled (level.addend operand .sub) (fun _ ↦ 1)
    fun env x ↦ (one_mul _).symm
  refine ⟨.binary .sub (level.total operand) product, ?_, fun env ↦ ?_⟩
  · rw [read?, Reader.run_append, hrun]
    exact hproduct
  · rw [eval, heval, one_mul]
    rfl

theorem IsTerm.product {first second : List Token} {a b : Expression} (hfirst : IsTerm first a)
    (hsecond : IsTerm second b) : ∃ e, read? (first ++ operator .mul :: second) = some e ∧
      ∀ env, e.eval env = a.eval env * b.eval env := by
  obtain ⟨level, operand, hrun, hsum, rfl⟩ := hfirst.run
  obtain ⟨product, hproduct, heval⟩ := hsecond.scaled (level.factor operand .mul)
    (fun env ↦ (level.term operand).eval env) fun env x ↦ rfl
  refine ⟨product, ?_, fun env ↦ ?_⟩
  · rw [show (level.factor operand .mul).sum = none from hsum] at hproduct
    rw [read?, Reader.run_append, hrun]
    exact hproduct
  · rw [heval, Level.total, hsum, joined]

theorem IsTerm.opposite {tokens : List Token} {e : Expression} (h : IsTerm tokens e) :
    ∃ e', read? (operator .sub :: tokens) = some e' ∧ ∀ env, e'.eval env = -e.eval env := by
  obtain ⟨product, hproduct, heval⟩ := h.scaled (Level.start none).negate
    (fun _ ↦ -1) fun env x ↦ (neg_one_mul _).symm
  exact ⟨product, hproduct, fun env ↦ by rw [heval, neg_one_mul]⟩

end Token

namespace Expression

theorem read?_eq_some {s : List Char} {e : Expression} :
    read? s = some e ↔ ∃ tokens, Token.scan s = some tokens ∧ Token.read? tokens = some e :=
  Option.bind_eq_some_iff

/-- Blanks within an expression part nothing that belongs together. -/
theorem read?_removeBlanks {s : List Char} {e : Expression} (h : read? s = some e) :
    read? (Text.removeBlanks s) = some e := by
  obtain ⟨tokens, hscan, hread⟩ := read?_eq_some.mp h
  exact read?_eq_some.mpr
    ⟨tokens, Token.scan_removeBlanks hscan (Token.wordsApart_of_read? hread), hread⟩

/-- A text that is an expression and may stand next to any operator. -/
def IsTerm (s : List Char) (e : Expression) : Prop :=
  ∃ tokens, Token.scan s = some tokens ∧ Token.IsTerm tokens e

theorem IsTerm.read {s : List Char} {e : Expression} (h : IsTerm s e) : read? s = some e := by
  obtain ⟨tokens, hscan, hterm⟩ := h
  exact read?_eq_some.mpr ⟨tokens, hscan, hterm.read⟩

theorem isTerm_of_not_hasTopLevelSign {s : List Char} {e : Expression} (h : read? s = some e)
    (hsign : hasTopLevelSign 0 s = false) : IsTerm s e := by
  obtain ⟨tokens, hscan, hread⟩ := read?_eq_some.mp h
  rw [Token.hasTopLevelSign_eq hscan] at hsign
  exact ⟨tokens, hscan, hread, Or.inl hsign⟩

theorem scan_parenthesis {s : List Char} {tokens : List Token} (h : Token.scan s = some tokens) :
    Token.scan ('(' :: s ++ [')']) = some (.opening :: tokens ++ [.closing]) := by
  have hclosing : Token.scan [')'] = some [.closing] := rfl
  exact Token.scan_cons (c := '(') rfl (Token.scan_append rfl h hclosing)

theorem isTerm_parenthesis {s : List Char} {e : Expression} (h : read? s = some e) :
    IsTerm ('(' :: s ++ [')']) e := by
  obtain ⟨tokens, hscan, hread⟩ := read?_eq_some.mp h
  have hoperand := Token.isOperand_parenthesis hread
  exact ⟨_, scan_parenthesis hscan, Token.read?_of_isOperand hoperand, Or.inr hoperand⟩

theorem scan_between {s t : List Char} {first second : List Token} (op : Operator)
    (hs : Token.scan s = some first) (ht : Token.scan t = some second) :
    Token.scan (s ++ op.symbol.toList ++ t) = some (first ++ .operator op :: second) := by
  rw [List.append_assoc]
  refine Token.scan_append ?_ hs ?_
  · cases op <;> rfl
  · cases op <;> exact Token.scan_cons rfl ht

theorem read?_sum {s t : List Char} {a b : Expression} (hs : read? s = some a)
    (ht : read? t = some b) : ∃ e, read? (s ++ Operator.add.symbol.toList ++ t) = some e ∧
      ∀ env, e.eval env = a.eval env + b.eval env := by
  obtain ⟨first, hfirst, ha⟩ := read?_eq_some.mp hs
  obtain ⟨second, hsecond, hb⟩ := read?_eq_some.mp ht
  obtain ⟨e, he, heval⟩ := Token.read?_sum ha hb
  exact ⟨e, read?_eq_some.mpr ⟨_, scan_between .add hfirst hsecond, he⟩, heval⟩

theorem IsTerm.difference {s t : List Char} {a b : Expression} (hs : read? s = some a)
    (ht : IsTerm t b) : ∃ e, read? (s ++ Operator.sub.symbol.toList ++ t) = some e ∧
      ∀ env, e.eval env = a.eval env - b.eval env := by
  obtain ⟨first, hfirst, ha⟩ := read?_eq_some.mp hs
  obtain ⟨second, hsecond, hb⟩ := ht
  obtain ⟨e, he, heval⟩ := Token.IsTerm.difference ha hb
  exact ⟨e, read?_eq_some.mpr ⟨_, scan_between .sub hfirst hsecond, he⟩, heval⟩

theorem IsTerm.product {s t : List Char} {a b : Expression} (hs : IsTerm s a) (ht : IsTerm t b) :
    ∃ e, read? (s ++ Operator.mul.symbol.toList ++ t) = some e ∧
      ∀ env, e.eval env = a.eval env * b.eval env := by
  obtain ⟨first, hfirst, ha⟩ := hs
  obtain ⟨second, hsecond, hb⟩ := ht
  obtain ⟨e, he, heval⟩ := ha.product hb
  exact ⟨e, read?_eq_some.mpr ⟨_, scan_between .mul hfirst hsecond, he⟩, heval⟩

theorem IsTerm.opposite {s : List Char} {e : Expression} (h : IsTerm s e) :
    ∃ e', read? ('-' :: s) = some e' ∧ ∀ env, e'.eval env = -e.eval env := by
  obtain ⟨tokens, hscan, hterm⟩ := h
  obtain ⟨e', he', heval⟩ := hterm.opposite
  exact ⟨e', read?_eq_some.mpr ⟨_, Token.scan_cons rfl hscan, he'⟩, heval⟩

end Expression

end Motion
