import Motion.Json.Reader
import Motion.Proofs.Number.Literal

/-!
Decimal literals in JSON. A literal without zeros in front is taken as a whole: as the integer of its
digits if it has neither point nor exponent and not too many digits, and else as the binary64 number
nearest to its decimal.
-/

set_option autoImplicit false
set_option relaxedAutoImplicit false

namespace Motion.Json

open Literal Numeral

variable {l : Literal}

theorem wholeLength_unsigned (h : l.IsCanonical) : wholeLength l.unsigned = l.whole.length := by
  have hfollowing : ∀ c ∈ (fractionChars l.fraction ++ exponentChars l.exponent).head?,
      c.isDigit = false := by
    cases l.fraction with
    | none => exact fun c hc ↦ (head?_exponentChars l.exponent c hc).1
    | some digits =>
      intro c hc
      rw [← Option.some.inj hc]
      rfl
  obtain ⟨c, rest, hwhole⟩ := List.exists_cons_of_ne_nil l.isDigits_whole.ne_nil
  rw [unsigned, List.append_assoc]
  by_cases hc : c = '0'
  · rw [h (by rw [hwhole, hc, List.head?_cons])]
    rfl
  · obtain ⟨htake, -⟩ := span_digits l.isDigits_whole.isDigit hfollowing
    rw [hwhole, List.cons_append] at htake ⊢
    rw [wholeLength]
    · rw [htake]
    · rintro _ ⟨⟩
      exact hc rfl

theorem fractionLength_chars (l : Literal) :
    fractionLength (fractionChars l.fraction ++ exponentChars l.exponent) =
      (fractionChars l.fraction).length := by
  cases hfraction : l.fraction with
  | none =>
    rw [fractionChars, List.nil_append]
    cases l.exponent with
    | none => rfl
    | some power => rfl
  | some digits =>
    have hdigits := l.isDigits_fraction digits hfraction
    have hempty : digits.isEmpty = false := List.isEmpty_eq_false_iff.mpr hdigits.ne_nil
    obtain ⟨htake, -⟩ :=
      span_digits hdigits.isDigit fun c hc ↦ (head?_exponentChars l.exponent c hc).1
    rw [fractionChars, List.cons_append, fractionLength, htake]
    simp [hempty]

theorem exponentLength_chars (l : Literal) :
    exponentLength (exponentChars l.exponent) = (exponentChars l.exponent).length := by
  cases hexponent : l.exponent with
  | none => rfl
  | some power =>
    obtain ⟨negative, digits⟩ := power
    have hdigits : IsDigits digits := l.isDigits_exponent _ hexponent
    have htake : digits.takeWhile Char.isDigit = digits :=
      List.takeWhile_eq_self_iff.mpr hdigits.isDigit
    have hlength : digits.length ≠ 0 := fun h ↦ hdigits.ne_nil (List.length_eq_zero_iff.mp h)
    cases negative <;> simp [exponentChars, exponentLength, takeSign, htake, hlength] <;> omega

/-- How a literal is taken off the front of a text. -/
theorem number_chars (h : l.IsCanonical) :
    number l.chars =
      if (fractionChars l.fraction).length + (exponentChars l.exponent).length = 0 then
        if digitLimit < l.whole.length then .error .tooLong
        else .ok (.int (signed l.negative (ofDigits l.unsigned)), [])
      else .ok (.float (nearest l.negative l.decimal), []) := by
  have hlength : l.unsigned.length = l.whole.length + (fractionChars l.fraction).length +
      (exponentChars l.exponent).length := by
    rw [unsigned, List.length_append, List.length_append]
  have hwhole : l.whole.length ≠ 0 := fun h ↦
    l.isDigits_whole.ne_nil (List.length_eq_zero_iff.mp h)
  have hfraction : l.unsigned.drop l.whole.length =
      fractionChars l.fraction ++ exponentChars l.exponent := by
    rw [unsigned, List.append_assoc, List.drop_left]
  have hexponent : l.unsigned.drop (l.whole.length + (fractionChars l.fraction).length) =
      exponentChars l.exponent := by
    rw [← List.drop_drop, hfraction, List.drop_left]
  rw [chars]
  cases l.negative with
  | true =>
    rw [if_pos rfl, number, wholeLength_unsigned h, hfraction, fractionLength_chars, hexponent,
      exponentLength_chars, ← hlength, List.take_length, List.drop_length, if_neg hwhole,
      decimal?_unsigned]
    rfl
  | false =>
    obtain ⟨c, rest, hunsigned, -, hdigit⟩ := l.exists_unsigned
    have hc : c ≠ '-' := by
      rintro rfl
      cases hdigit
    rw [if_neg Bool.false_ne_true, number, wholeLength_unsigned h, hfraction, fractionLength_chars,
      hexponent, exponentLength_chars, ← hlength, List.take_length, List.drop_length, if_neg hwhole,
      decimal?_unsigned]
    · rfl
    · intro _ hminus
      exact absurd (List.head_eq_of_cons_eq (hunsigned.symm.trans hminus)) hc

/-- A literal of digits only is taken as their integer. -/
theorem number_of_isWhole (h : l.IsCanonical) (hwhole : l.IsWhole)
    (hlength : l.whole.length ≤ digitLimit) :
    number l.chars = .ok (.int (signed l.negative (ofDigits l.whole)), []) := by
  have hunsigned : l.unsigned = l.whole := by
    rw [unsigned, hwhole.1, hwhole.2, fractionChars, exponentChars, List.append_nil,
      List.append_nil]
  rw [number_chars h, if_pos (by rw [hwhole.1, hwhole.2]; rfl), if_neg (not_lt.mpr hlength), hunsigned]

/-- A literal with a point or an exponent is taken as the nearest binary64 number. -/
theorem number_of_not_isWhole (h : l.IsCanonical) (hwhole : ¬ l.IsWhole) :
    number l.chars = .ok (.float (nearest l.negative l.decimal), []) := by
  rw [number_chars h, if_neg fun hlength ↦ hwhole ?_]
  rw [Nat.add_eq_zero_iff] at hlength
  constructor
  · cases hfraction : l.fraction with
    | none => rfl
    | some digits =>
      rw [hfraction] at hlength
      cases hlength.1
  · cases hexponent : l.exponent with
    | none => rfl
    | some power =>
      rw [hexponent] at hlength
      cases hlength.2

end Motion.Json
