import Motion.Proofs.Number.Numeral
import Mathlib.Tactic.IntervalCases

/-!
Decimal literals by their parts. The text of a literal has one reading, the decimal of its parts
(`Literal.decimal?_unsigned`). Every layout writes a magnitude as such a literal, in positional and in
exponent notation alike, and denotes what the digits and the place of the point say
(`Layout.exists_shows`); so two layouts of one number denote the same decimal.
-/

set_option autoImplicit false
set_option relaxedAutoImplicit false

namespace Motion

open Numeral

/-- A text of digits, of which there is at least one. -/
structure IsDigits (s : List Char) : Prop where
  ne_nil : s ≠ []
  isDigit : ∀ c ∈ s, c.isDigit = true

theorem isDigits_digitsOf (n : ℕ) : IsDigits (Decimal.digitsOf n) :=
  ⟨Nat.toDigits_ne_nil, fun _ ↦ isDigit_of_mem_digitsOf⟩

theorem isDigits_zero : IsDigits ['0'] :=
  isDigits_digitsOf 0

theorem IsDigits.append {s t : List Char} (hs : IsDigits s) (ht : ∀ c ∈ t, c.isDigit = true) :
    IsDigits (s ++ t) :=
  ⟨List.append_ne_nil_of_left_ne_nil hs.ne_nil t, List.forall_mem_append.mpr ⟨hs.isDigit, ht⟩⟩

theorem IsDigits.prepend {s t : List Char} (hs : ∀ c ∈ s, c.isDigit = true) (ht : IsDigits t) :
    IsDigits (s ++ t) :=
  ⟨List.append_ne_nil_of_right_ne_nil s ht.ne_nil, List.forall_mem_append.mpr ⟨hs, ht.isDigit⟩⟩

/-- The first digit of a positive number is no zero. -/
theorem head?_digitsOf {n : ℕ} (h : 0 < n) : (Decimal.digitsOf n).head? ≠ some '0' := by
  induction n using Nat.strong_induction_on with
  | _ n ih =>
    rw [Decimal.digitsOf, Nat.toDigits_eq_if (by decide)]
    split_ifs with hsmall
    · interval_cases n <;> decide
    · have hrest := ih (n / 10) (by omega) (by omega)
      rw [List.head?_append_of_ne_nil _ Nat.toDigits_ne_nil]
      exact hrest

/-- A decimal literal by its parts: a minus sign or none, digits, digits after a point or no point at
all, and an exponent with its sign and digits or none at all. -/
structure Literal where
  negative : Bool
  whole : List Char
  fraction : Option (List Char)
  exponent : Option (Bool × List Char)
  isDigits_whole : IsDigits whole
  isDigits_fraction : ∀ digits ∈ fraction, IsDigits digits
  isDigits_exponent : ∀ power ∈ exponent, IsDigits power.2

namespace Literal

/-- Nothing is to be shown of an exponent that there is not. -/
theorem isDigits_none : ∀ power ∈ (none : Option (Bool × List Char)), IsDigits power.2 :=
  fun _ h ↦ by cases h

/-- A fraction as it is written. -/
def fractionChars : Option (List Char) → List Char
  | none => []
  | some digits => '.' :: digits

/-- An exponent as it is written, always with a sign. -/
def exponentChars : Option (Bool × List Char) → List Char
  | none => []
  | some (negative, digits) => 'e' :: (if negative then '-' else '+') :: digits

/-- The characters of a literal without its sign. -/
def unsigned (l : Literal) : List Char :=
  l.whole ++ fractionChars l.fraction ++ exponentChars l.exponent

def chars (l : Literal) : List Char :=
  if l.negative then '-' :: l.unsigned else l.unsigned

/-- The power of ten that an exponent stands for. -/
def power : Option (Bool × List Char) → ℤ
  | none => 0
  | some (negative, digits) => signed negative (ofDigits digits)

/-- The decimal of a literal without its sign. -/
def decimal (l : Literal) : Decimal :=
  ⟨ofDigits (l.whole ++ l.fraction.getD []), power l.exponent - (l.fraction.getD []).length⟩

/-- Whether there are digits and nothing else behind the sign. -/
def IsWhole (l : Literal) : Prop :=
  l.fraction = none ∧ l.exponent = none

/-- Whether a literal has no zero in front of other digits. -/
def IsCanonical (l : Literal) : Prop :=
  l.whole.head? = some '0' → l.whole = ['0']

variable {l : Literal}

theorem exponent?_exponentChars {power : Option (Bool × List Char)}
    (h : ∀ e ∈ power, IsDigits e.2) : exponent? (exponentChars power) = some (Literal.power power) := by
  cases power with
  | none => rfl
  | some e =>
    obtain ⟨negative, digits⟩ := e
    have hdigits : IsDigits digits := h _ rfl
    have hempty : digits.isEmpty = false := List.isEmpty_eq_false_iff.mpr hdigits.ne_nil
    have hall : digits.all Char.isDigit = true := List.all_eq_true.mpr hdigits.isDigit
    cases negative <;> simp [exponentChars, exponent?, takeSign, hempty, hall, Literal.power]

/-- What may follow the digits in front of a point. -/
theorem head?_exponentChars (power : Option (Bool × List Char)) :
    ∀ c ∈ (exponentChars power).head?, c.isDigit = false ∧ c ≠ '.' := by
  cases power with
  | none =>
    intro c hc
    cases hc
  | some e =>
    intro c hc
    rw [← Option.some.inj hc]
    decide

/-- The characters of a literal without its sign are read as its decimal. -/
theorem decimal?_unsigned (l : Literal) : decimal? l.unsigned = some l.decimal := by
  have hexponent := exponent?_exponentChars l.isDigits_exponent
  have hmark := head?_exponentChars l.exponent
  rw [unsigned, decimal]
  cases hfraction : l.fraction with
  | none =>
    rw [fractionChars, List.append_nil,
      decimal?_whole l.isDigits_whole.ne_nil l.isDigits_whole.isDigit hmark, hexponent]
    simp
  | some digits =>
    have hdigits := l.isDigits_fraction digits hfraction
    rw [fractionChars, List.append_assoc, List.cons_append,
      decimal?_point l.isDigits_whole.ne_nil l.isDigits_whole.isDigit hdigits.isDigit
        fun c hc ↦ (hmark c hc).1, hexponent]
    rfl

/-- The first character of a literal without its sign is a digit. -/
theorem exists_unsigned (l : Literal) :
    ∃ c rest, l.unsigned = c :: rest ∧ l.whole.head? = some c ∧ c.isDigit = true := by
  obtain ⟨c, rest, hwhole⟩ := List.exists_cons_of_ne_nil l.isDigits_whole.ne_nil
  refine ⟨c, rest ++ fractionChars l.fraction ++ exponentChars l.exponent, ?_, ?_, ?_⟩
  · rw [unsigned, hwhole]
    rfl
  · rw [hwhole, List.head?_cons]
  · exact l.isDigits_whole.isDigit c (hwhole ▸ List.mem_cons_self)

/-- Whether a literal shows some digits with the point at a place in a layout: it denotes their
decimal, it is written without point and exponent only where the place is behind all digits and none
that the layout writes with an exponent, and it has no zeros in front unless the digits do. -/
structure Shows (l : Literal) (layout : Layout) (digits : List Char) (point : ℤ) : Prop where
  decimal : l.decimal.toRat = ofDigits digits * (10 : ℚ) ^ (point - digits.length)
  isWhole : l.IsWhole → digits.length ≤ point ∧ point ≤ layout.greatestPoint
  isCanonical : digits.head? ≠ some '0' → l.IsCanonical

end Literal

namespace Layout

/-- Whether a layout ends whole numbers with nothing or with `.0`. -/
def IsPlain (layout : Layout) : Prop :=
  layout.wholeSuffix = [] ∨ layout.wholeSuffix = ".0".toList

theorem isPlain_expression : expression.IsPlain :=
  Or.inl rfl

theorem isPlain_message : message.IsPlain :=
  Or.inr rfl

variable {layout : Layout} {digits : List Char} {point : ℤ}

theorem magnitude_positional (hpoint : layout.leastPoint ≤ point ∧ point ≤ layout.greatestPoint) :
    layout.magnitude digits point =
      if (digits.length : ℤ) ≤ point then
        digits ++ List.replicate (point - digits.length).toNat '0' ++ layout.wholeSuffix
      else if 0 < point then digits.take point.toNat ++ '.' :: digits.drop point.toNat
      else ['0'] ++ '.' :: (List.replicate (-point).toNat '0' ++ digits) := by
  simp [magnitude, hpoint]

/-- Digits with a point among them. -/
def pointedLiteral (negative : Bool) {whole fraction : List Char} (hwhole : IsDigits whole)
    (hfraction : IsDigits fraction) : Literal where
  negative := negative
  whole := whole
  fraction := some fraction
  exponent := none
  isDigits_whole := hwhole
  isDigits_fraction := fun _ h ↦ Option.some.inj h ▸ hfraction
  isDigits_exponent := Literal.isDigits_none

/-- A magnitude in positional notation is a literal that shows its digits. -/
theorem exists_shows_positional (hlayout : layout.IsPlain) (hdigits : IsDigits digits)
    (hpoint : layout.leastPoint ≤ point ∧ point ≤ layout.greatestPoint) (negative : Bool) :
    ∃ l : Literal, l.negative = negative ∧ layout.magnitude digits point = l.unsigned ∧
      l.Shows layout digits point := by
  have hlength : 0 < digits.length := List.length_pos_iff.mpr hdigits.ne_nil
  rw [magnitude_positional hpoint]
  split_ifs with hwhole hpositive
  · -- Zeros up to the point: the suffix decides whether there is a fraction.
    have hzeros : IsDigits (digits ++ List.replicate (point - digits.length).toNat '0') :=
      hdigits.append (forall_mem_zeros _)
    have hcanonical (h : digits.head? ≠ some '0') :
        (digits ++ List.replicate (point - digits.length).toNat '0').head? ≠ some '0' := by
      rwa [List.head?_append_of_ne_nil _ hdigits.ne_nil]
    rcases hlayout with hsuffix | hsuffix
    · refine ⟨⟨negative, _, none, none, hzeros, (by simp), (by simp)⟩, rfl, ?_, ?_,
        fun _ ↦ ⟨hwhole, hpoint.2⟩, fun h h' ↦ absurd h' (hcanonical h)⟩
      · rw [hsuffix]
        simp [Literal.unsigned, Literal.fractionChars, Literal.exponentChars]
      · refine toRat_of_digits (k := (point - digits.length).toNat) ?_ ?_
        · simp [Literal.decimal, ofDigits_append, ofDigits_zeros]
        · simp only [Literal.decimal, Literal.power, Option.getD_none, List.length_nil]
          omega
    · refine ⟨pointedLiteral negative hzeros isDigits_zero, rfl, ?_, ?_, fun h ↦ (by cases h.1),
        fun h h' ↦ absurd h' (hcanonical h)⟩
      · rw [hsuffix]
        simp [Literal.unsigned, Literal.fractionChars, Literal.exponentChars, pointedLiteral]
      · have hzero : ofDigits ['0'] = 0 := rfl
        refine toRat_of_digits (k := (point - digits.length).toNat + 1) ?_ ?_
        · simp [Literal.decimal, pointedLiteral, ofDigits_append, ofDigits_zeros, hzero, pow_succ]
        · simp only [Literal.decimal, pointedLiteral, Literal.power, Option.getD_some,
            List.length_singleton]
          omega
  · have htake : IsDigits (digits.take point.toNat) := by
      refine ⟨fun h ↦ ?_, fun c hc ↦ hdigits.isDigit c (List.mem_of_mem_take hc)⟩
      have := congrArg List.length h
      rw [List.length_take, List.length_nil] at this
      omega
    have hdrop : IsDigits (digits.drop point.toNat) := by
      refine ⟨fun h ↦ ?_, fun c hc ↦ hdigits.isDigit c (List.mem_of_mem_drop hc)⟩
      have := congrArg List.length h
      rw [List.length_drop, List.length_nil] at this
      omega
    refine ⟨pointedLiteral negative htake hdrop, rfl, ?_, ?_, fun h ↦ (by cases h.1), fun h h' ↦ ?_⟩
    · simp [Literal.unsigned, Literal.fractionChars, Literal.exponentChars, pointedLiteral]
    · refine toRat_of_digits (k := 0) ?_ ?_
      · simp [Literal.decimal, pointedLiteral]
      · simp only [Literal.decimal, pointedLiteral, Literal.power, Option.getD_some,
          List.length_drop]
        omega
    · have hhead : (digits.take point.toNat).head? = digits.head? := by
        rw [List.head?_take, if_neg (by omega)]
      exact absurd (hhead.symm.trans h') h
  · have hfraction : IsDigits (List.replicate (-point).toNat '0' ++ digits) :=
      hdigits.prepend (forall_mem_zeros _)
    refine ⟨pointedLiteral negative isDigits_zero hfraction, rfl, ?_, ?_, fun h ↦ (by cases h.1),
      fun _ _ ↦ rfl⟩
    · simp [Literal.unsigned, Literal.fractionChars, Literal.exponentChars, pointedLiteral]
    · have hzero : ofDigits ['0'] = 0 := rfl
      refine toRat_of_digits (k := 0) ?_ ?_
      · simp only [Literal.decimal, pointedLiteral, Option.getD_some, ofDigits_append,
          ofDigits_zeros, hzero]
        omega
      · simp only [Literal.decimal, pointedLiteral, Literal.power, Option.getD_some,
          List.length_append, List.length_replicate]
        omega

/-- The exponent of a magnitude with the point at a place. -/
theorem exists_power (layout : Layout) (point : ℤ) : ∃ power : Bool × List Char,
    IsDigits power.2 ∧ Literal.power (some power) = point - 1 ∧
      'e' :: (if 0 ≤ point - 1 then '+' else '-') ::
        padded layout.exponentWidth (point - 1).natAbs = Literal.exponentChars (some power) := by
  have hdigits : IsDigits (padded layout.exponentWidth (point - 1).natAbs) :=
    (isDigits_digitsOf _).prepend (forall_mem_zeros _)
  refine ⟨(decide (point - 1 < 0), padded layout.exponentWidth (point - 1).natAbs), hdigits, ?_, ?_⟩
  · rw [Literal.power, ofDigits_padded, signed]
    by_cases h : point - 1 < 0
    · rw [decide_eq_true h, if_pos rfl, Int.ofNat_natAbs_of_nonpos h.le, neg_neg]
    · rw [decide_eq_false h, if_neg Bool.false_ne_true, Int.natAbs_of_nonneg (not_lt.mp h)]
  · rw [Literal.exponentChars]
    by_cases h : point - 1 < 0
    · rw [if_neg (not_le.mpr h), if_pos (decide_eq_true h)]
    · rw [if_pos (not_lt.mp h), if_neg (by simpa using h)]

/-- A magnitude in exponent notation is a literal that shows its digits too. -/
theorem exists_shows_scientific (hdigits : IsDigits digits)
    (hpoint : ¬ (layout.leastPoint ≤ point ∧ point ≤ layout.greatestPoint)) (negative : Bool) :
    ∃ l : Literal, l.negative = negative ∧ layout.magnitude digits point = l.unsigned ∧
      l.Shows layout digits point := by
  obtain ⟨d, rest, rfl⟩ := List.exists_cons_of_ne_nil hdigits.ne_nil
  obtain ⟨power, hpower, hvalue, htext⟩ := exists_power layout point
  have hd : IsDigits [d] := ⟨List.cons_ne_nil d [], fun c hc ↦
    hdigits.isDigit c (List.mem_singleton.mp hc ▸ List.mem_cons_self)⟩
  have hfraction : ∀ digits ∈ (if rest = [] then none else some rest), IsDigits digits := by
    intro digits h
    split_ifs at h with hrest
    · cases h
    · rw [← Option.some.inj h]
      exact ⟨hrest, fun c hc ↦ hdigits.isDigit c (List.mem_cons_of_mem d hc)⟩
  have hmagnitude : layout.magnitude (d :: rest) point =
      d :: (Literal.fractionChars (if rest = [] then none else some rest) ++
        Literal.exponentChars (some power)) := by
    rw [← htext]
    cases rest with
    | nil => exact if_neg hpoint
    | cons _ _ => exact if_neg hpoint
  refine ⟨⟨negative, [d], if rest = [] then none else some rest, some power, hd, hfraction,
    fun _ h ↦ Option.some.inj h ▸ hpower⟩, rfl, hmagnitude, toRat_of_digits (k := 0) ?_ ?_,
    fun h ↦ (by cases h.2), fun h h' ↦ absurd h' h⟩
  · cases rest <;> simp [Literal.decimal]
  · rw [Literal.decimal, hvalue]
    cases rest with
    | nil => simp
    | cons _ _ =>
      simp only [reduceCtorEq, if_false, Option.getD_some, List.length_cons]
      omega

/-- A magnitude is laid out as a literal that shows its digits with the point at its place. -/
theorem exists_shows (hlayout : layout.IsPlain) (hdigits : IsDigits digits) (point : ℤ)
    (negative : Bool) : ∃ l : Literal, l.negative = negative ∧
      layout.magnitude digits point = l.unsigned ∧ l.Shows layout digits point := by
  by_cases hpoint : layout.leastPoint ≤ point ∧ point ≤ layout.greatestPoint
  · exact exists_shows_positional hlayout hdigits hpoint negative
  · exact exists_shows_scientific hdigits hpoint negative

/-- A magnitude is read as the decimal that its digits and the place of its point make. -/
theorem exists_decimal?_magnitude (hlayout : layout.IsPlain) (hdigits : IsDigits digits)
    (point : ℤ) : ∃ x, decimal? (layout.magnitude digits point) = some x ∧
      x.toRat = ofDigits digits * (10 : ℚ) ^ (point - digits.length) := by
  obtain ⟨l, -, htext, hshows⟩ := exists_shows hlayout hdigits point false
  exact ⟨l.decimal, htext ▸ l.decimal?_unsigned, hshows.decimal⟩

end Layout

end Motion
