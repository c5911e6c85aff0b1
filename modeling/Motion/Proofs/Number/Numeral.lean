import Motion.Number.Text
import Motion.Proofs.Number.Rounding
import Mathlib.Data.List.TakeWhile
import Mathlib.Data.Nat.Digits.Lemmas
import Mathlib.Tactic.Ring

/-!
Numerals. Digits denote a natural number, and a decimal literal the decimal of its digits and its
exponent, with a point among the digits or without one.
-/

set_option autoImplicit false
set_option relaxedAutoImplicit false

namespace Motion

namespace Numeral

theorem isDigit_of_mem_digitsOf {n : ℕ} {c : Char} (h : c ∈ Decimal.digitsOf n) :
    c.isDigit = true :=
  Nat.isDigit_of_mem_toDigits (by decide) (by decide) h

/-- The digits of a natural number denote it. -/
theorem ofDigits_digitsOf (n : ℕ) : ofDigits (Decimal.digitsOf n) = n :=
  Nat.ofDigitChars_ten_toDigits

theorem decimal?_digits {s : List Char} (hne : s ≠ []) (h : ∀ c ∈ s, c.isDigit = true) :
    decimal? s = some ⟨ofDigits s, 0⟩ := by
  have htake : s.takeWhile Char.isDigit = s := List.takeWhile_eq_self_iff.mpr h
  have hdrop : s.dropWhile Char.isDigit = [] := List.dropWhile_eq_nil_iff.mpr h
  have hempty : s.isEmpty = false := by simpa using hne
  rw [decimal?, htake, hdrop]
  simp [hempty, exponent?]

theorem decimal?_eq_none {c : Char} (hdigit : c.isDigit = false) (hpoint : c ≠ '.')
    (rest : List Char) : decimal? (c :: rest) = none := by
  unfold decimal?
  rw [List.takeWhile_cons_of_neg (by simp [hdigit]), List.dropWhile_cons_of_neg (by simp [hdigit])]
  dsimp only
  split
  · rename_i r hpoint'
    exact absurd (List.head_eq_of_cons_eq hpoint') hpoint
  · rfl

theorem isAlpha_toLower_of_isDigit {c : Char} (h : c.isDigit = true) :
    c.toLower.isAlpha = false := by
  have hbounds := h
  rw [Char.isDigit, Bool.and_eq_true, decide_eq_true_eq, decide_eq_true_eq] at hbounds
  have hupper : ¬ 'A'.val ≤ c.val := fun hle ↦ absurd (UInt32.le_trans hle hbounds.2) (by decide)
  have hlower : ¬ 'a'.val ≤ c.val := fun hle ↦ absurd (UInt32.le_trans hle hbounds.2) (by decide)
  have hsame : c.toLower = c := dif_neg fun hle ↦ hupper hle.1
  have hisUpper : c.isUpper = false := decide_eq_false fun hle ↦ hupper hle.1
  have hisLower : c.isLower = false :=
    Bool.and_eq_false_imp.mpr fun hle ↦ absurd (of_decide_eq_true hle) hlower
  rw [hsame]
  exact Bool.or_eq_false_iff.mpr ⟨hisUpper, hisLower⟩

/-- A decimal is not the name of an infinity. -/
theorem plain?_of_decimal? {s : List Char} {x : Decimal} (h : decimal? (takeSign s).2 = some x) :
    plain? s = some (nearest (takeSign s).1 x) := by
  have hname (word : String) (hword : word.toList.head?.any Char.isAlpha = true) :
      String.ofList ((takeSign s).2.map Char.toLower) ≠ word := by
    rintro rfl
    rw [String.toList_ofList] at hword
    generalize (takeSign s).2 = body at h hword
    cases body with
    | nil => cases hword
    | cons c rest =>
      have halpha : c.toLower.isAlpha = true := hword
      have hdigit : c.isDigit = false := by
        by_contra hc
        rw [isAlpha_toLower_of_isDigit (Bool.of_not_eq_false hc)] at halpha
        cases halpha
      have hpoint : c ≠ '.' := by
        intro hc
        rw [hc] at halpha
        cases halpha
      rw [decimal?_eq_none hdigit hpoint] at h
      cases h
  unfold plain?
  dsimp only
  rw [if_neg (not_or.mpr ⟨hname "inf" (by decide), hname "infinity" (by decide)⟩),
    if_neg (hname "nan" (by decide)), h]
  rfl

/-- The digits of two texts put together. -/
theorem ofDigits_append (s t : List Char) :
    ofDigits (s ++ t) = ofDigits s * 10 ^ t.length + ofDigits t := by
  have hfold (t : List Char) (n : ℕ) :
      t.foldl (fun n c ↦ 10 * n + (c.toNat - '0'.toNat)) n = n * 10 ^ t.length + ofDigits t := by
    induction t generalizing n with
    | nil => simp [ofDigits]
    | cons c t ih =>
      have hfirst : ofDigits (c :: t) = (c.toNat - '0'.toNat) * 10 ^ t.length + ofDigits t := by
        rw [ofDigits, List.foldl_cons, ih, Nat.mul_zero, Nat.zero_add]
      rw [List.foldl_cons, ih, hfirst, List.length_cons]
      ring
  rw [ofDigits, List.foldl_append, hfold]
  rfl

theorem ofDigits_zeros (n : ℕ) : ofDigits (List.replicate n '0') = 0 := by
  induction n with
  | zero => rfl
  | succ n ih =>
    have hfirst : ofDigits ['0'] = 0 := rfl
    rw [List.replicate_succ, ← List.singleton_append, ofDigits_append, ih, hfirst, Nat.zero_mul]

/-- The digits at the front of a text. -/
theorem span_digits {s rest : List Char} (hs : ∀ c ∈ s, c.isDigit = true)
    (hrest : ∀ c ∈ rest.head?, c.isDigit = false) :
    (s ++ rest).takeWhile Char.isDigit = s ∧ (s ++ rest).dropWhile Char.isDigit = rest := by
  rw [List.takeWhile_append_of_pos hs, List.dropWhile_append_of_pos hs]
  cases rest with
  | nil => simp
  | cons c rest => simp [hrest c rfl]

variable {whole fraction rest : List Char}

/-- A literal without a point. -/
theorem decimal?_whole (hne : whole ≠ []) (hwhole : ∀ c ∈ whole, c.isDigit = true)
    (hrest : ∀ c ∈ rest.head?, c.isDigit = false ∧ c ≠ '.') :
    decimal? (whole ++ rest) = (exponent? rest).map fun e ↦ ⟨ofDigits whole, e⟩ := by
  obtain ⟨htake, hdrop⟩ := span_digits hwhole fun c hc ↦ (hrest c hc).1
  have hempty : whole.isEmpty = false := by simpa using hne
  unfold decimal?
  rw [htake, hdrop]
  dsimp only
  split
  · exact absurd rfl (hrest '.' rfl).2
  · simp [hempty]

/-- A literal with a point. -/
theorem decimal?_point (hne : whole ≠ []) (hwhole : ∀ c ∈ whole, c.isDigit = true)
    (hfraction : ∀ c ∈ fraction, c.isDigit = true) (hrest : ∀ c ∈ rest.head?, c.isDigit = false) :
    decimal? (whole ++ '.' :: (fraction ++ rest)) =
      (exponent? rest).map fun e ↦ ⟨ofDigits (whole ++ fraction), e - fraction.length⟩ := by
  have hpoint (c : Char) (hc : c ∈ ('.' :: (fraction ++ rest)).head?) : c.isDigit = false := by
    rw [← Option.some.inj hc]
    rfl
  obtain ⟨htake, hdrop⟩ := span_digits hwhole hpoint
  obtain ⟨htake', hdrop'⟩ := span_digits hfraction hrest
  have hempty : whole.isEmpty = false := by simpa using hne
  unfold decimal?
  rw [htake, hdrop]
  simp [htake', hdrop', hempty]

end Numeral

namespace Layout

open Numeral

/-- A decimal with the digits `digits` and the point at `point`. -/
theorem toRat_of_digits {digits : List Char} {x : Decimal} {point : ℤ} {k : ℕ}
    (hcoefficient : x.coefficient = ofDigits digits * 10 ^ k)
    (hexponent : x.exponent = point - digits.length - k) :
    x.toRat = ofDigits digits * (10 : ℚ) ^ (point - digits.length) := by
  rw [Decimal.toRat, hcoefficient, hexponent, Decimal.powerOfTen_eq, Nat.cast_mul, Nat.cast_pow,
    mul_assoc, Nat.cast_ofNat, ← zpow_natCast, ← zpow_add₀ (by norm_num)]
  congr 2
  omega

theorem forall_mem_zeros (n : ℕ) : ∀ c ∈ List.replicate n '0', c.isDigit = true := by
  intro c hc
  rw [List.eq_of_mem_replicate hc]
  rfl

theorem isDigit_of_mem_padded (width n : ℕ) : ∀ c ∈ padded width n, c.isDigit = true :=
  List.forall_mem_append.mpr ⟨forall_mem_zeros _, fun _ ↦ isDigit_of_mem_digitsOf⟩

theorem ofDigits_padded (width n : ℕ) : ofDigits (padded width n) = n := by
  unfold padded
  dsimp only
  rw [ofDigits_append, ofDigits_zeros, ofDigits_digitsOf, Nat.zero_mul, Nat.zero_add]

theorem length_padded (width n : ℕ) : width ≤ (padded width n).length := by
  unfold padded
  dsimp only
  rw [List.length_append, List.length_replicate]
  omega

end Layout

end Motion
