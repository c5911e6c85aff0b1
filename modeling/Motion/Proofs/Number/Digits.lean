import Motion.Proofs.Number.Order

/-!
The decimal that comes before all others. Among the decimals that read back as a number it has the
fewest digits, among those with as few it is the nearest, and of two equally near ones the even one
(`Decimal.IsShortest`). There is only one such decimal (`Decimal.IsShortest.unique`), provided that
what lies between the number and a decimal that reads back does so too (`Decimal.ReadsAround`): two
that do not come before each other are equally near and even, and between them lies one that is
nearer and has no more digits.
-/

set_option autoImplicit false
set_option relaxedAutoImplicit false

namespace Motion

namespace Decimal

/-- Whether one decimal comes before another as the text of a number: it has fewer digits, or as
many and is nearer to the number, or it is as near and even. -/
def Precedes (q : ℚ) (d c : Decimal) : Prop :=
  digitCount d.coefficient < digitCount c.coefficient ∨
    digitCount d.coefficient = digitCount c.coefficient ∧
      (|d.toRat - q| < |c.toRat - q| ∨
        |d.toRat - q| = |c.toRat - q| ∧ d.coefficient % 2 = 0)

/-- Whether a decimal reads back as a number and comes before all others that do. -/
structure IsShortest (q : ℚ) (reads : Decimal → Prop) (d : Decimal) : Prop where
  coefficient_ne_zero : d.coefficient ≠ 0
  readsBack : reads d
  precedes : ∀ c, c.coefficient ≠ 0 → reads c → c ≠ d → Precedes q d c

/-- Whether the decimals that read back are those around a number: the number itself does, if it is
one, and so does what lies between it and one that does. -/
structure ReadsAround (q : ℚ) (reads : Decimal → Prop) : Prop where
  exact : ∀ d : Decimal, d.toRat = q → reads d
  below : ∀ c d : Decimal, reads c → c.toRat ≤ d.toRat → d.toRat ≤ q → reads d
  above : ∀ c d : Decimal, reads c → q ≤ d.toRat → d.toRat ≤ c.toRat → reads d

theorem ReadsAround.congr {q : ℚ} {reads : Decimal → Prop} (h : ReadsAround q reads) {c d : Decimal}
    (hc : reads c) (hvalue : d.toRat = c.toRat) : reads d := by
  rcases le_total d.toRat q with hle | hle
  · exact h.below c d hc hvalue.ge hle
  · exact h.above c d hc hle hvalue.le

theorem digitCount_le_iff {n k : ℕ} (hk : 0 < k) : digitCount n ≤ k ↔ n < 10 ^ k :=
  Nat.length_toDigits_le_iff (by decide) hk

theorem digitCount_pos (n : ℕ) : 0 < digitCount n :=
  Nat.length_toDigits_pos

theorem digitCount_mono {m n : ℕ} (h : m ≤ n) : digitCount m ≤ digitCount n := by
  rw [digitCount_le_iff (digitCount_pos n)]
  exact lt_of_le_of_lt h ((digitCount_le_iff (digitCount_pos n)).mp le_rfl)

/-- A power of ten as a factor puts zeros behind the digits. -/
theorem digitsOf_mul_tenPow {n : ℕ} (hn : 0 < n) (k : ℕ) :
    digitsOf (n * 10 ^ k) = digitsOf n ++ List.replicate k '0' := by
  induction k with
  | zero => rw [pow_zero, Nat.mul_one, List.replicate_zero, List.append_nil]
  | succ k ih =>
    have hzero : Nat.toDigits 10 0 = ['0'] := rfl
    have hnext : n * 10 ^ (k + 1) = 10 * (n * 10 ^ k) + 0 := by ring
    have hpos : 0 < n * 10 ^ k := Nat.mul_pos hn (Nat.pow_pos (by decide))
    calc digitsOf (n * 10 ^ (k + 1)) = digitsOf (n * 10 ^ k) ++ ['0'] := by
          rw [hnext, digitsOf, ← Nat.toDigits_append_toDigits (by decide) hpos (by decide), hzero]
          rfl
      _ = digitsOf n ++ List.replicate (k + 1) '0' := by
          rw [ih, List.append_assoc, ← List.replicate_succ']

theorem digitCount_mul_tenPow {n : ℕ} (hn : 0 < n) (k : ℕ) :
    digitCount (n * 10 ^ k) = digitCount n + k := by
  rw [digitCount, digitsOf_mul_tenPow hn, List.length_append, List.length_replicate]
  rfl

theorem toRat_mk (m : ℕ) (e : ℤ) : (⟨m, e⟩ : Decimal).toRat = m * 10 ^ e := by
  rw [toRat, powerOfTen_eq]

theorem toRat_one (e : ℤ) : (⟨1, e⟩ : Decimal).toRat = 10 ^ e := by
  rw [toRat_mk, Nat.cast_one, one_mul]

theorem toRat_nonneg (d : Decimal) : 0 ≤ d.toRat := by
  rw [toRat, powerOfTen_eq]
  exact mul_nonneg (Nat.cast_nonneg _) (zpow_nonneg (by norm_num) _)

/-- Of decimals with as many digits the less one is on a grid that is as fine. -/
theorem exponent_le_of_toRat_le {c d : Decimal} (hc : c.coefficient ≠ 0) (hd : d.coefficient ≠ 0)
    (hcount : digitCount c.coefficient = digitCount d.coefficient) (h : c.toRat ≤ d.toRat) :
    c.exponent ≤ d.exponent := by
  have hpowers := lt_of_le_of_lt ((toRat_bounds hc).1.trans h) (toRat_bounds hd).2
  rw [zpow_lt_zpow_iff_right₀ (by norm_num)] at hpowers
  omega

/-- Decimals with one value and as many digits are the same. -/
theorem eq_of_toRat_eq {c d : Decimal} (hc : c.coefficient ≠ 0) (hd : d.coefficient ≠ 0)
    (hcount : digitCount c.coefficient = digitCount d.coefficient) (hvalue : c.toRat = d.toRat) :
    c = d := by
  have hexponent : c.exponent = d.exponent :=
    le_antisymm (exponent_le_of_toRat_le hc hd hcount hvalue.le)
      (exponent_le_of_toRat_le hd hc hcount.symm hvalue.ge)
  have hcoefficient : c.coefficient = d.coefficient := by
    rw [toRat, toRat, hexponent, powerOfTen_eq] at hvalue
    exact_mod_cast mul_right_cancel₀ (zpow_ne_zero _ (by norm_num)) hvalue
  cases c
  cases d
  exact congrArg₂ mk hcoefficient hexponent

/-- Two decimals that come before each other have as many digits, are as near and both even. -/
theorem Precedes.mutual {q : ℚ} {c d : Decimal} (h : Precedes q d c) (h' : Precedes q c d) :
    digitCount d.coefficient = digitCount c.coefficient ∧ |d.toRat - q| = |c.toRat - q| ∧
      d.coefficient % 2 = 0 ∧ c.coefficient % 2 = 0 := by
  unfold Precedes at h h'
  rcases h with hfewer | ⟨hcount, hnear⟩
  · omega
  · rcases h' with hfewer' | ⟨-, hnear'⟩
    · omega
    · rcases hnear with hnearer | ⟨heq, heven⟩
      · rcases hnear' with hnearer' | ⟨heq', -⟩
        · exact absurd hnearer hnearer'.not_gt
        · exact absurd hnearer heq'.le.not_gt
      · rcases hnear' with hnearer' | ⟨-, heven'⟩
        · exact absurd hnearer' heq.le.not_gt
        · exact ⟨hcount, heq, heven, heven'⟩

/-- A decimal lies on every finer grid. -/
theorem exists_onGrid {c : Decimal} {e : ℤ} (h : e ≤ c.exponent) :
    ∃ m : ℕ, (⟨m, e⟩ : Decimal).toRat = c.toRat := by
  obtain ⟨j, hj⟩ := Int.eq_ofNat_of_zero_le (sub_nonneg.mpr h)
  refine ⟨c.coefficient * 10 ^ j, ?_⟩
  have hexponent : c.exponent = j + e := by omega
  rw [toRat_mk, toRat, powerOfTen_eq, hexponent, zpow_add₀ (by norm_num), zpow_natCast]
  push_cast
  ring

/-- A decimal that comes before all others is an integer only where it has no places after the
point: those would be zeros. -/
theorem IsShortest.exponent_nonneg {q : ℚ} {reads : Decimal → Prop} {d : Decimal}
    (h : IsShortest q reads d) (hreads : ReadsAround q reads) {n : ℕ} (hn : d.toRat = n) :
    0 ≤ d.exponent := by
  by_contra hnegative
  obtain ⟨k, hk⟩ := Int.eq_ofNat_of_zero_le (show 0 ≤ -d.exponent by omega)
  have hcoefficient : d.coefficient = n * 10 ^ k := by
    have hpower : (10 : ℚ) ^ k ≠ 0 := pow_ne_zero _ (by norm_num)
    rw [toRat, powerOfTen_eq, show d.exponent = -(k : ℤ) by omega, zpow_neg, zpow_natCast,
      ← div_eq_mul_inv, div_eq_iff hpower] at hn
    exact_mod_cast hn
  have hpos : 0 < n := by
    rw [Nat.pos_iff_ne_zero]
    rintro rfl
    exact h.coefficient_ne_zero (hcoefficient.trans (Nat.zero_mul _))
  have hcount := digitCount_mul_tenPow hpos k
  rw [← hcoefficient] at hcount
  have hshorter : reads ⟨n, 0⟩ := by
    refine hreads.congr h.readsBack ?_
    rw [toRat_mk, zpow_zero, mul_one, hn]
  have hne : (⟨n, 0⟩ : Decimal) ≠ d := by
    rintro rfl
    exact hnegative le_rfl
  rcases h.precedes ⟨n, 0⟩ hpos.ne' hshorter hne with hfewer | ⟨hsame, -⟩
  · have hless : digitCount d.coefficient < digitCount n := hfewer
    omega
  · have heq : digitCount d.coefficient = digitCount n := hsame
    omega

section Unique

variable {q : ℚ} {reads : Decimal → Prop} {d d' : Decimal}

/-- Between two that read back and are as near, what lies strictly between has more digits than one
that comes before all others. -/
theorem IsShortest.count_lt_of_between (h : IsShortest q reads d) (hreads : ReadsAround q reads)
    (hother : reads d') (hnear : |d.toRat - q| = |d'.toRat - q|) {c : Decimal}
    (hc : c.coefficient ≠ 0) (hlow : d.toRat < c.toRat) (hhigh : c.toRat < d'.toRat) :
    digitCount d.coefficient < digitCount c.coefficient := by
  have hmiddle : 2 * q = d.toRat + d'.toRat := by
    rcases abs_eq_abs.mp hnear with heq | heq
    · linarith
    · linarith
  have hcreads : reads c := by
    rcases le_total c.toRat q with hle | hle
    · exact hreads.below d c h.readsBack hlow.le hle
    · exact hreads.above d' c hother hle hhigh.le
  have hne : c ≠ d := by
    rintro rfl
    exact lt_irrefl _ hlow
  have hnearer : |c.toRat - q| < |d.toRat - q| := by
    rw [abs_of_neg (show d.toRat - q < 0 by linarith), abs_lt]
    constructor <;> linarith
  rcases h.precedes c hc hcreads hne with hfewer | ⟨-, hless | ⟨heq, -⟩⟩
  · exact hfewer
  · exact absurd hnearer hless.not_gt
  · exact absurd hnearer heq.le.not_gt

/-- Between decimals of different grids lies a power of ten, which has one digit; so the greater one
is that power. -/
theorem IsShortest.eq_powerOfTen_of_coarser (h : IsShortest q reads d)
    (hreads : ReadsAround q reads) (hother : reads d') (hd' : d'.coefficient ≠ 0)
    (hnear : |d.toRat - q| = |d'.toRat - q|)
    (hcount : digitCount d.coefficient = digitCount d'.coefficient)
    (hfiner : d.exponent < d'.exponent) :
    d' = ⟨1, d.exponent + digitCount d.coefficient⟩ := by
  have hone : digitCount 1 = 1 := rfl
  have hpos := digitCount_pos d.coefficient
  have hlow : d.toRat < (⟨1, d.exponent + digitCount d.coefficient⟩ : Decimal).toRat := by
    rw [toRat_one]
    exact (toRat_bounds h.coefficient_ne_zero).2
  have hhigh : (⟨1, d.exponent + digitCount d.coefficient⟩ : Decimal).toRat ≤ d'.toRat := by
    rw [toRat_one]
    refine le_trans ((zpow_le_zpow_iff_right₀ (by norm_num)).mpr ?_) (toRat_bounds hd').1
    omega
  rcases hhigh.lt_or_eq with hstrict | hsame
  · have hmore : digitCount d.coefficient < digitCount 1 :=
      h.count_lt_of_between hreads hother hnear one_ne_zero hlow hstrict
    omega
  · have hne : (⟨1, d.exponent + digitCount d.coefficient⟩ : Decimal) ≠ d := by
      intro heq
      rw [heq] at hlow
      exact lt_irrefl _ hlow
    have hsingle : digitCount d.coefficient = digitCount 1 := by
      rcases h.precedes _ one_ne_zero (hreads.congr hother hsame) hne with hfewer | ⟨heq, -⟩
      · have hless : digitCount d.coefficient < digitCount 1 := hfewer
        omega
      · exact heq
    exact eq_of_toRat_eq hd' one_ne_zero (hcount.symm.trans hsingle) hsame.symm

/-- Between even decimals of one grid lies an odd one, which has no more digits. -/
theorem IsShortest.not_lt_on_grid (h : IsShortest q reads d) (hreads : ReadsAround q reads)
    (hother : reads d') (hnear : |d.toRat - q| = |d'.toRat - q|)
    (hcount : digitCount d.coefficient = digitCount d'.coefficient)
    (hgrid : d.exponent = d'.exponent) (heven : d.coefficient % 2 = 0)
    (heven' : d'.coefficient % 2 = 0) :
    ¬ d.toRat < d'.toRat := by
  intro hless
  have hpower : (0 : ℚ) < 10 ^ d.exponent := zpow_pos (by norm_num) _
  have hmore : d.coefficient < d'.coefficient := by
    rw [toRat, toRat, ← hgrid, powerOfTen_eq] at hless
    exact_mod_cast lt_of_mul_lt_mul_right hless hpower.le
  have hlow : d.toRat < (⟨d.coefficient + 1, d.exponent⟩ : Decimal).toRat := by
    rw [toRat_mk, toRat, powerOfTen_eq]
    exact mul_lt_mul_of_pos_right (Nat.cast_lt.mpr (Nat.lt_succ_self _)) hpower
  have hhigh : (⟨d.coefficient + 1, d.exponent⟩ : Decimal).toRat < d'.toRat := by
    rw [toRat_mk, toRat, powerOfTen_eq, ← hgrid]
    exact mul_lt_mul_of_pos_right (Nat.cast_lt.mpr (by omega)) hpower
  have hfewer : digitCount d.coefficient < digitCount (d.coefficient + 1) :=
    h.count_lt_of_between hreads hother hnear (Nat.succ_ne_zero _) hlow hhigh
  have hcountle := digitCount_mono (show d.coefficient + 1 ≤ d'.coefficient by omega)
  omega

/-- Of two that both come before all others, neither is less. -/
theorem IsShortest.not_lt (h : IsShortest q reads d) (h' : IsShortest q reads d')
    (hreads : ReadsAround q reads) : ¬ d.toRat < d'.toRat := by
  intro hless
  have hne : d ≠ d' := by
    rintro rfl
    exact lt_irrefl _ hless
  obtain ⟨hcount, hnear, heven, heven'⟩ :=
    (h.precedes d' h'.coefficient_ne_zero h'.readsBack hne.symm).mutual
      (h'.precedes d h.coefficient_ne_zero h.readsBack hne)
  have hexponent :=
    exponent_le_of_toRat_le h.coefficient_ne_zero h'.coefficient_ne_zero hcount hless.le
  rcases hexponent.lt_or_eq with hfiner | hgrid
  · rw [h.eq_powerOfTen_of_coarser hreads h'.readsBack h'.coefficient_ne_zero hnear hcount hfiner]
      at heven'
    exact Nat.one_ne_zero heven'
  · exact h.not_lt_on_grid hreads h'.readsBack hnear hcount hgrid heven heven' hless

/-- Only one decimal comes before all others. -/
theorem IsShortest.unique (h : IsShortest q reads d) (h' : IsShortest q reads d')
    (hreads : ReadsAround q reads) : d = d' := by
  have hvalue : d.toRat = d'.toRat :=
    le_antisymm (le_of_not_gt (h'.not_lt h hreads)) (le_of_not_gt (h.not_lt h' hreads))
  by_contra hne
  have hmutual := (h.precedes d' h'.coefficient_ne_zero h'.readsBack (Ne.symm hne)).mutual
    (h'.precedes d h.coefficient_ne_zero h.readsBack hne)
  exact hne (eq_of_toRat_eq h.coefficient_ne_zero h'.coefficient_ne_zero hmutual.1 hvalue)

end Unique

end Decimal

end Motion
