import Motion.Document.Frame
import Motion.Proofs.Json.Number
import Motion.Proofs.Number.Places
import Motion.Proofs.Number.Whole

/-!
The text of a number loses nothing. An integer, and a whole number that is normalized to one, is
written with exactly its digits; every other number denotes the decimal with which it is shown in
messages, laid out anew. Both texts are decimal literals, and read back they give a number of the
same value, so that numbers of different values have different texts (`numberText_lossless`).
-/

set_option autoImplicit false
set_option relaxedAutoImplicit false

namespace Motion

open Numeral

namespace Literal

/-- The literal of an integer. -/
def ofInt (i : ℤ) : Literal where
  negative := decide (i < 0)
  whole := Decimal.digitsOf i.natAbs
  fraction := none
  exponent := none
  isDigits_whole := isDigits_digitsOf _
  isDigits_fraction := fun _ h ↦ by cases h
  isDigits_exponent := isDigits_none

theorem isWhole_ofInt (i : ℤ) : (ofInt i).IsWhole :=
  ⟨rfl, rfl⟩

theorem isCanonical_ofInt (i : ℤ) : (ofInt i).IsCanonical := by
  intro h
  rcases Nat.eq_zero_or_pos i.natAbs with hzero | hpos
  · have hdigits : Decimal.digitsOf i.natAbs = ['0'] := by
      rw [hzero]
      rfl
    exact hdigits
  · exact absurd h (head?_digitsOf hpos)

theorem chars_ofInt (i : ℤ) : (ofInt i).chars = Number.intText i := by
  cases i with
  | ofNat n => simp [ofInt, chars, unsigned, fractionChars, exponentChars, Number.intText]
  | negSucc n =>
    simp [ofInt, chars, unsigned, fractionChars, exponentChars, Number.intText, Int.negSucc_lt_zero]

theorem signed_ofInt (i : ℤ) : signed (ofInt i).negative (ofDigits (ofInt i).whole) = i := by
  rw [ofInt, ofDigits_digitsOf, signed]
  by_cases h : i < 0
  · rw [decide_eq_true h, if_pos rfl, Int.ofNat_natAbs_of_nonpos h.le, neg_neg]
  · rw [decide_eq_false h, if_neg Bool.false_ne_true, Int.natAbs_of_nonneg (not_lt.mp h)]

theorem value_ofInt (i : ℤ) : (ofInt i).value = i := by
  have hread := (ofInt i).literal?_chars
  rw [chars_ofInt, literal?_intText] at hread
  exact (Option.some.inj hread).symm

end Literal

namespace Number

variable {m n : Number}

/-- Numbers that have values are the same if they have one value. -/
theorem same_iff_toRat? {p q : ℚ} (hm : m.toRat? = some p) (hn : n.toRat? = some q) :
    m.same n = true ↔ p = q := by
  rw [same, compare?_of_toRat? hm hn, beq_iff_eq, Option.some.injEq, compareRat_eq_iff]

/-- Whether a number is an integer, or a whole number below `10 ^ 21` in magnitude with the value of
that integer. -/
def IsInteger (n : Number) (i : ℤ) : Prop :=
  n = .int i ∨ n.toRat? = some (i : ℚ) ∧ |i| < 10 ^ 21

theorem IsInteger.normalize {i : ℤ} (h : n.IsInteger i) : n.normalize = .int i := by
  rcases h with rfl | ⟨hvalue, hsmall⟩
  · rfl
  · cases n with
    | int j => rw [Number.normalize, Int.cast_injective (Option.some.inj hvalue)]
    | float x =>
      rw [toRat?] at hvalue
      split_ifs at hvalue with hfinite
      rw [Number.normalize, (Binary64.toInt?_eq_some_iff hfinite).mpr (Option.some.inj hvalue)]
      have hnat : i.natAbs < Nat.pow 10 21 := by
        rw [Int.abs_eq_natAbs] at hsmall
        exact_mod_cast hsmall
      exact if_pos hnat

theorem IsInteger.natAbs_lt {i : ℤ} (h : n.IsInteger i) {k : ℕ} (hk : 21 ≤ k)
    (hint : n = .int i → i.natAbs < Nat.pow 10 k) : i.natAbs < Nat.pow 10 k := by
  rcases h with h | h
  · exact hint h
  · have hsmall := h.2
    rw [Int.abs_eq_natAbs] at hsmall
    exact lt_of_lt_of_le (by exact_mod_cast hsmall) (Nat.pow_le_pow_right (by decide) hk)

/-- What a number is normalized to: its integer or itself. -/
theorem normalize_cases (hn : n.toRat?.isSome = true) :
    (∃ i, n.IsInteger i) ∨ ∃ x, n = .float x ∧ x.isFinite = true ∧ n.normalize = .float x := by
  cases n with
  | int i => exact Or.inl ⟨i, Or.inl rfl⟩
  | float x =>
    have hfinite : x.isFinite = true := by
      cases x with
      | finite negative exponent fraction => rfl
      | _ => cases hn
    rw [Number.normalize]
    split
    · rename_i i hi
      split_ifs with hsmall
      · refine Or.inl ⟨i, Or.inr ⟨?_, ?_⟩⟩
        · rw [toRat?, if_pos hfinite, (Binary64.toInt?_eq_some_iff hfinite).mp hi]
        · rw [Int.abs_eq_natAbs]
          exact_mod_cast hsmall
      · exact Or.inr ⟨x, rfl, hfinite, rfl⟩
    · exact Or.inr ⟨x, rfl, hfinite, rfl⟩

/-- Whether a literal is the text of a number: it denotes the integer that the number is normalized
to, or else the decimal with which the number is shown, and JSON reads it as a number of the same
value. -/
structure IsRenderedAs (n : Number) (l : Literal) : Prop where
  text : n.textChars = l.chars
  isCanonical : l.IsCanonical
  integer : ∀ i, n.IsInteger i → l.value = i
  shown : (¬ ∃ i, n.IsInteger i) → literal? (n.laidOut .message) = some l.value
  reads : ∃ m, Json.number l.chars = .ok (m, []) ∧ m.toRat? = n.toRat?

theorem length_digitsOf {k i : ℕ} (hk : 0 < k) (h : i < Nat.pow 10 k) :
    (Decimal.digitsOf i).length ≤ k :=
  (Nat.length_toDigits_le_iff (by decide) hk).mpr h

theorem IsInteger.isRenderedAs {i : ℤ} (h : n.IsInteger i)
    (hwritable : i.natAbs < Nat.pow 10 digitLimit) : n.IsRenderedAs (.ofInt i) where
  text := by
    rw [textChars, h.normalize, Literal.chars_ofInt]
  isCanonical := Literal.isCanonical_ofInt i
  integer := by
    intro j hj
    rw [Literal.value_ofInt, Int.cast_inj]
    exact Number.int.inj (h.normalize.symm.trans hj.normalize)
  shown := fun hnone ↦ absurd ⟨i, h⟩ hnone
  reads := by
    have hread := Json.number_of_isWhole (Literal.isCanonical_ofInt i) (Literal.isWhole_ofInt i)
      (length_digitsOf (by decide) hwritable)
    rw [Literal.signed_ofInt] at hread
    have hvalue : n.toRat? = some (i : ℚ) := by
      rcases h with rfl | ⟨hvalue, -⟩
      · rfl
      · exact hvalue
    exact ⟨.int i, hread, hvalue.symm⟩

/-- The text of a number in a layout is a literal that shows its shortest decimal. -/
theorem exists_shows_render {layout : Layout} (hlayout : layout.IsPlain) {x : Binary64}
    (hfinite : x.isFinite = true) :
    ∃ l : Literal, l.negative = x.isNegative ∧ layout.render x = l.chars ∧
      l.Shows layout (Decimal.digitsOf x.shortest.coefficient)
        (x.shortest.exponent + (Decimal.digitsOf x.shortest.coefficient).length) := by
  obtain ⟨l, hnegative, hmagnitude, hshows⟩ := Layout.exists_shows hlayout
    (isDigits_digitsOf x.shortest.coefficient)
    (x.shortest.exponent + (Decimal.digitsOf x.shortest.coefficient).length) x.isNegative
  refine ⟨l, hnegative, ?_, hshows⟩
  rw [Literal.chars, hnegative, ← hmagnitude]
  cases x with
  | finite negative exponent fraction => rfl
  | _ => cases hfinite

/-- A number that is normalized to itself is written as its shortest decimal. -/
theorem exists_isRenderedAs_shortest {x : Binary64} (hfinite : x.isFinite = true)
    (hnormal : (Number.float x).normalize = .float x) :
    ∃ l, (Number.float x).IsRenderedAs l := by
  have hzero := Binary64.toRat_ne_zero_of_normalize hfinite hnormal
  have habs : x.abs.toRat ≠ 0 := by
    rw [Binary64.toRat_abs]
    exact abs_ne_zero.mpr hzero
  obtain ⟨l, hnegative, htext, hshows⟩ := exists_shows_render Layout.isPlain_expression hfinite
  obtain ⟨r, hsame, hshown, hshows'⟩ := exists_shows_render Layout.isPlain_message hfinite
  have hvalue : l.value = r.value := by
    rw [Literal.value, Literal.value, hnegative, hsame, hshows.decimal, hshows'.decimal]
  have hdecimal : l.decimal.toRat = x.shortest.toRat := by
    rw [hshows.decimal, add_sub_cancel_right, ofDigits_digitsOf, ← Decimal.powerOfTen_eq,
      Decimal.toRat]
  have hround : Binary64.ofRatio false l.decimal.toRat = x.abs := by
    have hnonneg : 0 ≤ l.decimal.toRat := by
      rw [hshows.decimal]
      exact mul_nonneg (Nat.cast_nonneg _) (zpow_nonneg (by norm_num) _)
    rw [← Binary64.ofRat_of_nonneg hnonneg, hdecimal, Binary64.ofRat_shortest hfinite habs]
  have hcanonical : l.IsCanonical := by
    refine hshows.isCanonical (head?_digitsOf (Nat.pos_of_ne_zero fun hcoefficient ↦ habs ?_))
    rw [hdecimal, Decimal.toRat, hcoefficient, Nat.cast_zero, zero_mul,
      Binary64.ofRatio_small false le_rfl le_rfl (by rw [zero_mul]; exact one_pos)] at hround
    rw [← hround, Binary64.toRat_zero]
  refine ⟨l, ?_, hcanonical, fun i hi ↦ ?_, fun _ ↦ ?_, .float x, ?_, rfl⟩
  · rw [textChars, hnormal]
    exact htext
  · rw [hi.normalize] at hnormal
    cases hnormal
  · rw [laidOut, hshown, r.literal?_chars, hvalue]
  · rw [Json.number_of_not_isWhole hcanonical
      (Binary64.not_isWhole_of_normalize hfinite hnormal hshows), hnegative]
    cases x with
    | finite negative exponent fraction =>
      have hmagnitude : Binary64.finite false exponent fraction ≠ .zero false := by
        intro h
        rw [Binary64.abs, h, Binary64.toRat_zero] at habs
        exact habs rfl
      rw [nearest_of_ofRatio hround hmagnitude]
      rfl
    | _ => cases hfinite

/-- A number that may be written has a literal as its text. -/
theorem exists_isRenderedAs (hn : n.toRat?.isSome = true) (hwritable : n.isWritable = true) :
    ∃ l, n.IsRenderedAs l := by
  rcases normalize_cases hn with ⟨i, hi⟩ | ⟨x, rfl, hfinite, hnormal⟩
  · refine ⟨.ofInt i, hi.isRenderedAs (hi.natAbs_lt (by decide) ?_)⟩
    rintro rfl
    rwa [isWritable, decide_eq_true_eq] at hwritable
  · exact exists_isRenderedAs_shortest hfinite hnormal

/-- A literal is the text of numbers of one value only. -/
theorem IsRenderedAs.toRat?_eq {l r : Literal} (hl : m.IsRenderedAs l) (hr : n.IsRenderedAs r)
    (h : m.text = n.text) : m.toRat? = n.toRat? := by
  have hchars : l.chars = r.chars := by
    rw [← hl.text, ← hr.text]
    exact String.ofList_injective h
  obtain ⟨k, hk, hvalue⟩ := hl.reads
  obtain ⟨k', hk', hvalue'⟩ := hr.reads
  rw [← hchars, hk, Except.ok.injEq, Prod.mk.injEq] at hk'
  rw [← hvalue, ← hvalue', hk'.1]

theorem same_of_toRat?_eq (hn : n.toRat?.isSome = true) (h : m.toRat? = n.toRat?) :
    m.same n = true := by
  obtain ⟨q, hq⟩ := Option.isSome_iff_exists.mp hn
  exact (same_iff_toRat? (h.trans hq) hq).mpr rfl

end Number

open Number in
/-- The text of a number loses nothing, unless the number is an integer with too many digits, which
has no text. The text of every other number that has a value is a decimal literal. It denotes the
integer, where the number is one or is whole and below `10 ^ 21` in magnitude, and else the decimal
that the number has in messages. JSON reads it as a number with that value, and numbers of one text
have one value. -/
theorem numberText_lossless {n : Number} (hn : n.toRat?.isSome = true) :
    (n.isWritable = false → (Data.num n).numberText = .error .badValue) ∧
      (n.isWritable = true → ∃ l : Literal,
        (Data.num n).numberText = .ok (String.ofList l.chars) ∧ l.IsCanonical ∧
          (∀ i, n.IsInteger i → l.value = i) ∧
          ((¬ ∃ i, n.IsInteger i) → literal? (n.laidOut .message) = some l.value) ∧
          ∃ m, Json.number l.chars = .ok (m, []) ∧ m.same n = true) ∧
        ∀ m text, m.toRat?.isSome = true → (Data.num m).numberText = .ok text →
          (Data.num n).numberText = .ok text → m.same n = true := by
  have htext {m : Number} {text : String} (h : (Data.num m).numberText = .ok text) :
      m.isWritable = true ∧ m.text = text := by
    rw [Data.numberText] at h
    split_ifs at h with hwritable
    cases h
    exact ⟨hwritable, rfl⟩
  refine ⟨fun hlong ↦ ?_, fun hwritable ↦ ?_, fun m text hm hfirst hsecond ↦ ?_⟩
  · rw [Data.numberText, hlong]
    rfl
  · obtain ⟨l, hl⟩ := exists_isRenderedAs hn hwritable
    obtain ⟨m, hread, hvalue⟩ := hl.reads
    refine ⟨l, ?_, hl.isCanonical, hl.integer, hl.shown, m, hread, same_of_toRat?_eq hn hvalue⟩
    rw [Data.numberText, if_pos hwritable, Number.text, hl.text]
  · obtain ⟨hwritable, hm'⟩ := htext hfirst
    obtain ⟨hwritable', hn'⟩ := htext hsecond
    obtain ⟨l, hl⟩ := exists_isRenderedAs hm hwritable
    obtain ⟨r, hr⟩ := exists_isRenderedAs hn hwritable'
    exact same_of_toRat?_eq hn (hl.toRat?_eq hr (hm'.trans hn'.symm))

/-- The number `10 ^ 21`, the least whole number that is written with an exponent. -/
def sextillion : Number :=
  .float (.ofUnits false (1000000000000000000000 * Binary64.unitsPerOne) 1)

theorem numberText_lossless_sextillion : sextillion.toRat? = some (10 ^ 21) ∧
    (Data.num sextillion).numberText = .ok "1e+21" ∧
      Numeral.literal? "1e+21".toList = some (10 ^ 21) ∧
      ∀ m, m.toRat?.isSome = true → (Data.num m).numberText = .ok "1e+21" →
        m.same sextillion = true := by
  have hvalue : sextillion.toRat? = some (10 ^ 21) := by decide +kernel
  have hn : sextillion.toRat?.isSome = true := by rw [hvalue]; rfl
  obtain ⟨-, hliteral, hsame⟩ := numberText_lossless hn
  have htext : (Data.num sextillion).numberText = .ok "1e+21" := by decide +kernel
  refine ⟨hvalue, htext, by decide +kernel, fun m hm h ↦ hsame m "1e+21" hm h htext⟩

/-- An integer with too many digits has no text. -/
theorem numberText_overlong :
    ¬ ∃ text, (Data.num (.int (10 ^ 4300))).numberText = .ok text := by
  rintro ⟨text, h⟩
  have hrefused : (Data.num (.int (10 ^ 4300))).numberText = .error .badValue := by decide +kernel
  rw [hrefused] at h
  cases h

end Motion
