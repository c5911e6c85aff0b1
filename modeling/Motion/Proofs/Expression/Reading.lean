import Motion.Number.Reading
import Motion.Proofs.Expression.Token
import Mathlib.Logic.Function.Iterate

/-!
How expressions are read. Signs in front of an operand bind closest, then products and quotients,
then sums and differences; operators of one rank take their operands from the left. The reader takes
the tokens one by one and keeps a level for each parenthesis that is open (`Level`).

All that later facts need of it is `Reader.run_related`: a reader that starts from another lowest
level, with further levels below it, does the same steps, and the two lowest levels stay related as
long as signs, factors and addends keep the relation.
-/

set_option autoImplicit false
set_option relaxedAutoImplicit false

namespace Motion

namespace Expression

/-- An operand joined to what stands before it. -/
def joined (before : Option (Expression × Operator)) (operand : Expression) : Expression :=
  match before with
  | none => operand
  | some (left, op) => .binary op left operand

/-- The expression that a word is: a number or a name. -/
def ofWord? (letters : List Char) : Option Expression :=
  match Numeral.decimal? letters with
  | some value => some (.number value.toRat)
  | none =>
    if letters.head?.any fun c ↦ c.isAlpha || "_@".toList.contains c then some (.name letters)
    else none

end Expression

open Expression

/-- What is open within a parenthesis: the sum and the product so far, each with the operator after
it, and how many minus signs stand in front of the next operand. Where the parenthesis is that of a
call, the function called is the callee. -/
structure Level where
  callee : Option (List Char)
  sum : Option (Expression × Operator)
  product : Option (Expression × Operator)
  negations : ℕ

namespace Level

/-- A parenthesis in which nothing has been read. -/
def start (callee : Option (List Char)) : Level :=
  ⟨callee, none, none, 0⟩

/-- The product that an operand completes. -/
def term (level : Level) (operand : Expression) : Expression :=
  joined level.product (neg^[level.negations] operand)

/-- The sum that an operand completes. -/
def total (level : Level) (operand : Expression) : Expression :=
  joined level.sum (level.term operand)

/-- What the parenthesis stands for that an operand completes. -/
def close (level : Level) (operand : Expression) : Expression :=
  match level.callee with
  | none => level.total operand
  | some function => .call function (level.total operand)

def negate (level : Level) : Level :=
  { level with negations := level.negations + 1 }

/-- The level after an operand and the operator of a product. -/
def factor (level : Level) (operand : Expression) (op : Operator) : Level :=
  { level with product := some (level.term operand, op), negations := 0 }

/-- The level after an operand and the operator of a sum. -/
def addend (level : Level) (operand : Expression) (op : Operator) : Level :=
  { level with sum := some (level.total operand, op), product := none, negations := 0 }

/-- The level after an operand and an operator. -/
def extend (level : Level) (operand : Expression) (op : Operator) : Level :=
  if op.isAdditive then level.addend operand op else level.factor operand op

end Level

/-- A reader within an expression: the open parentheses, the innermost first, and the operand that
has just been read. -/
structure Reader where
  levels : List Level
  operand : Option Expression

namespace Reader

/-- The reader at the start of an expression. -/
def start : Reader :=
  ⟨[.start none], none⟩

/-- The reader after a token where an operand has to come. -/
def begin (levels : List Level) : Token → Option Reader
  | .word letters => (ofWord? letters).map fun operand ↦ ⟨levels, some operand⟩
  | .operator .add => some ⟨levels, none⟩
  | .operator .sub => some ⟨levels.modifyHead Level.negate, none⟩
  | .opening => some ⟨.start none :: levels, none⟩
  | _ => none

/-- The reader after a token that follows an operand. A name with a parenthesis after it is
called. -/
def proceed (levels : List Level) (operand : Expression) : Token → Option Reader
  | .operator op => some ⟨levels.modifyHead fun level ↦ level.extend operand op, none⟩
  | .opening =>
    match operand with
    | .name function => some ⟨.start (some function) :: levels, none⟩
    | _ => none
  | .closing =>
    match levels with
    | level :: next :: below => some ⟨next :: below, some (level.close operand)⟩
    | _ => none
  | _ => none

/-- The reader after one more token. -/
def step (reader : Reader) : Token → Option Reader :=
  match reader.operand with
  | none => begin reader.levels
  | some operand => proceed reader.levels operand

/-- The reader after some more tokens. -/
def run (reader : Reader) (tokens : List Token) : Option Reader :=
  tokens.foldlM step reader

/-- The expression that has been read, if no parenthesis is open and no operand is missing. -/
def finish : Reader → Option Expression
  | ⟨[level], some operand⟩ => some (level.total operand)
  | _ => none

end Reader

/-- The expression that tokens are. -/
def Token.read? (tokens : List Token) : Option Expression :=
  (Reader.start.run tokens).bind Reader.finish

/-- The expression that a text is. -/
def Expression.read? (s : List Char) : Option Expression :=
  (Token.scan s).bind Token.read?

namespace Reader

theorem run_cons {reader : Reader} {token : Token} {rest : List Token} :
    reader.run (token :: rest) = (reader.step token).bind fun next ↦ next.run rest :=
  rfl

theorem run_append (reader : Reader) (first second : List Token) :
    reader.run (first ++ second) = (reader.run first).bind fun next ↦ next.run second := by
  simp [run, List.foldlM_append]

theorem operand_of_word {reader next : Reader} {letters : List Char}
    (h : reader.step (.word letters) = some next) :
    ∃ operand, next = ⟨reader.levels, some operand⟩ := by
  obtain ⟨levels, operand⟩ := reader
  cases operand with
  | none =>
    obtain ⟨operand, -, rfl⟩ := Option.map_eq_some_iff.mp h
    exact ⟨operand, rfl⟩
  | some operand => cases h

/-- After a word an operator or a parenthesis has to come. -/
theorem wordsApart_of_run {tokens : List Token} {reader final : Reader}
    (h : reader.run tokens = some final) : Token.WordsApart tokens := by
  induction tokens generalizing reader with
  | nil => exact .nil
  | cons token rest ih =>
    rw [run_cons, Option.bind_eq_some_iff] at h
    obtain ⟨next, hstep, hrest⟩ := h
    cases rest with
    | nil => exact .singleton _
    | cons second rest =>
      refine .cons_cons (fun hword ↦ ?_) (ih hrest)
      rw [run_cons, Option.bind_eq_some_iff] at hrest
      obtain ⟨_, hsecond, -⟩ := hrest
      cases token with
      | word letters =>
        obtain ⟨operand, rfl⟩ := operand_of_word hstep
        cases second with
        | word letters => cases hsecond
        | _ => rfl
      | _ => cases hword

/-- A token that may come nowhere is not among those that are read. -/
theorem not_mem_of_run {token : Token} (htoken : ∀ reader : Reader, reader.step token = none)
    {tokens : List Token} {reader final : Reader} (h : reader.run tokens = some final) :
    token ∉ tokens := by
  induction tokens generalizing reader with
  | nil => exact List.not_mem_nil
  | cons first rest ih =>
    rw [run_cons, Option.bind_eq_some_iff] at h
    obtain ⟨next, hstep, hrest⟩ := h
    rw [List.mem_cons, not_or]
    refine ⟨?_, ih hrest⟩
    rintro rfl
    rw [htoken] at hstep
    cases hstep

section Related

variable {R : Level → Level → Prop} (base : List Level)

/-- A step of two readers whose lowest levels are related. Of what may happen there, one step does
only one thing. -/
theorem step_related {token : Token} {above : List Level} {level other : Level}
    {operand : Option Expression} {final : Reader} (hrelated : R level other)
    (hnegate : R level.negate other.negate)
    (hextend : ∀ x op, above = [] → token = .operator op → R (level.extend x op) (other.extend x op))
    (h : step ⟨above ++ [level], operand⟩ token = some final) :
    ∃ above' level' other', R level' other' ∧ final = ⟨above' ++ [level'], final.operand⟩ ∧
      step ⟨above ++ other :: base, operand⟩ token =
        some ⟨above' ++ other' :: base, final.operand⟩ ∧
      (above'.length : Int) = token.depthAfter above.length := by
  cases operand with
  | none =>
    cases token with
    | word letters =>
      obtain ⟨operand, hword, rfl⟩ := Option.map_eq_some_iff.mp h
      exact ⟨above, level, other, hrelated, rfl, by simp [step, begin, hword], rfl⟩
    | opening =>
      cases h
      exact ⟨.start none :: above, level, other, hrelated, rfl, rfl, by simp [Token.depthAfter]⟩
    | operator op =>
      cases op with
      | add =>
        cases h
        exact ⟨above, level, other, hrelated, rfl, rfl, rfl⟩
      | sub =>
        cases above with
        | nil =>
          cases h
          exact ⟨[], _, _, hnegate, rfl, rfl, rfl⟩
        | cons inner above =>
          cases h
          exact ⟨inner.negate :: above, level, other, hrelated, rfl, rfl, rfl⟩
      | mul | div => cases h
    | _ => cases h
  | some operand =>
    cases token with
    | operator op =>
      cases above with
      | nil =>
        cases h
        exact ⟨[], _, _, hextend operand op rfl rfl, rfl, rfl, rfl⟩
      | cons inner above =>
        cases h
        exact ⟨inner.extend operand op :: above, level, other, hrelated, rfl, rfl, rfl⟩
    | opening =>
      cases operand with
      | name function =>
        cases h
        exact ⟨.start (some function) :: above, level, other, hrelated, rfl, rfl,
          by simp [Token.depthAfter]⟩
      | _ => cases h
    | closing =>
      cases above with
      | nil => cases h
      | cons inner above =>
        cases above with
        | nil =>
          cases h
          exact ⟨[], level, other, hrelated, rfl, rfl, rfl⟩
        | cons next above =>
          cases h
          exact ⟨next :: above, level, other, hrelated, rfl, rfl, by simp [Token.depthAfter]⟩
    | _ => cases h

/-- A run of two readers whose lowest levels are related. -/
theorem run_related
    (hnegate : ∀ level other, R level other → R level.negate other.negate)
    (hfactor : ∀ level other x op, op.isAdditive = false → R level other →
      R (level.factor x op) (other.factor x op))
    {tokens : List Token} {above : List Level} {level other : Level}
    (haddend : Token.hasTopLevelSign above.length tokens = true → ∀ level other x op, R level other →
      op.isAdditive = true → R (level.addend x op) (other.addend x op))
    {operand : Option Expression} {final : Reader} (hrelated : R level other)
    (h : run ⟨above ++ [level], operand⟩ tokens = some final) :
    ∃ above' level' other', R level' other' ∧ final = ⟨above' ++ [level'], final.operand⟩ ∧
      run ⟨above ++ other :: base, operand⟩ tokens =
        some ⟨above' ++ other' :: base, final.operand⟩ := by
  induction tokens generalizing above level other operand with
  | nil =>
    cases h
    exact ⟨above, level, other, hrelated, rfl, rfl⟩
  | cons token rest ih =>
    rw [run_cons, Option.bind_eq_some_iff] at h
    obtain ⟨next, hstep, hrest⟩ := h
    have hextend (x : Expression) (op : Operator) (habove : above = [])
        (htoken : token = .operator op) : R (level.extend x op) (other.extend x op) := by
      subst habove htoken
      unfold Level.extend
      split_ifs with hadditive
      · refine haddend ?_ level other x op hrelated hadditive
        simp [Token.hasTopLevelSign, Token.isSign, hadditive]
      · exact hfactor level other x op (Bool.eq_false_iff.mpr hadditive) hrelated
    obtain ⟨above', level', other', hrelated', hnext, hother, hdepth⟩ :=
      step_related base hrelated (hnegate level other hrelated) hextend hstep
    rw [hnext] at hrest
    have hbelow (hsign : Token.hasTopLevelSign above'.length rest = true) :
        Token.hasTopLevelSign above.length (token :: rest) = true := by
      rw [Token.hasTopLevelSign, ← hdepth, hsign, Bool.or_true]
    rw [run_cons, hother, Option.bind_some]
    exact ih (fun hsign ↦ haddend (hbelow hsign)) hrelated' hrest

/-- A run that begins and ends with one level. -/
theorem run_lowest (other : Level)
    (hnegate : ∀ level other, R level other → R level.negate other.negate)
    (hfactor : ∀ level other x op, op.isAdditive = false → R level other →
      R (level.factor x op) (other.factor x op))
    {tokens : List Token}
    (haddend : Token.hasTopLevelSign 0 tokens = true → ∀ level other x op, R level other →
      op.isAdditive = true → R (level.addend x op) (other.addend x op))
    {level final : Level} {operand result : Option Expression}
    (h : run ⟨[level], operand⟩ tokens = some ⟨[final], result⟩) (hrelated : R level other) :
    ∃ final', R final final' ∧
      run ⟨other :: base, operand⟩ tokens = some ⟨final' :: base, result⟩ := by
  obtain ⟨above, level', final', hfinal, hlevels, hother⟩ :=
    @run_related R base hnegate hfactor tokens [] level other haddend operand _ hrelated h
  cases above with
  | nil =>
    cases hlevels
    exact ⟨final', hfinal, hother⟩
  | cons first above =>
    have hlength := congrArg (fun reader ↦ reader.levels.length) hlevels
    simp at hlength

end Related

end Reader

end Motion
