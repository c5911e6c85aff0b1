import Motion.Proofs.Number.Grid

/-!
The shortest decimal of a binary64 number comes before all others that are rounded to its magnitude
(`Binary64.hasShortest_shortest`), and it is the only one that does (`Binary64.HasShortest.unique`).
The tie of `9` and `10` does not occur: halfway between them a magnitude from `1` on has so short a
significand that `9` is a binary64 number of its own, and a smaller one is no binary64 number at
all. A whole number below `2 ^ 53` is its own shortest decimal
(`Binary64.HasShortest.toRat_eq_of_lt`), since the whole numbers next to it are binary64 numbers
too.
-/

set_option autoImplicit false
set_option relaxedAutoImplicit false

namespace Motion

namespace Binary64

/-- Whether a decimal comes before all others that are rounded to the magnitude of a number. -/
def HasShortest (x : Binary64) (d : Decimal) : Prop :=
  Decimal.IsShortest x.abs.toRat (fun c ↦ ofRat c.toRat = x.abs) d

theorem isFinite_of_toRat {x : Binary64} (hzero : x.toRat ≠ 0) : x.isFinite = true := by
  cases x with
  | finite negative exponent fraction => rfl
  | _ => exact absurd rfl hzero

/-- A magnitude is a significand of 53 binary digits times a power of two of units. -/
theorem exists_significand {x : Binary64} (hfinite : x.isFinite = true) :
    ∃ s k : ℕ, x.abs.toRat = (s * 2 ^ k : ℕ) / unitsPerOne ∧ s < 2 ^ 53 := by
  cases x with
  | finite negative exponent fraction =>
    have hfraction := fraction.isLt
    have hcount : 2 ^ 53 = 2 * fractionCount := rfl
    rw [toRat_abs_finite, Rat.mkRat_eq_div, Int.cast_natCast, units]
    split_ifs
    · refine ⟨fraction.val, 0, ?_, by omega⟩
      rw [pow_zero, Nat.mul_one]
    · refine ⟨fractionCount + fraction.val, exponent.val - 1, ?_, by omega⟩
      rw [Nat.pow_eq]
  | _ => cases hfinite

/-- A whole number is a binary64 number if, but for a power of two, it fits the significand. -/
theorem toRat_ofRat_natCast {n j : ℕ} (hn : n ≤ 2 ^ 53) (hj : j < 971) :
    (ofRat ((n * 2 ^ j : ℕ) : ℚ)).toRat = ((n * 2 ^ j : ℕ) : ℚ) := by
  have hshifted {unit k : ℕ} (hunit : unit = Nat.pow 2 k) : unit * 2 ^ j = Nat.pow 2 (k + j) := by
    rw [hunit, Nat.pow_eq, Nat.pow_eq, pow_add]
  obtain ⟨exponent, fraction, hunits⟩ :=
    exists_units_eq (hshifted unitsPerOne_eq) hn (by omega) (by omega)
  have hone : (unitsPerOne : ℚ) ≠ 0 := Nat.cast_ne_zero.mpr unitsPerOne_pos.ne'
  have hvalue : ((n * 2 ^ j : ℕ) : ℚ) = mkRat (units exponent fraction) unitsPerOne := by
    rw [Rat.mkRat_eq_div, hunits, Int.cast_natCast, Nat.mul_left_comm, Nat.cast_mul unitsPerOne,
      mul_div_cancel_left₀ _ hone]
  rw [ofRat_of_nonneg (Nat.cast_nonneg _), hvalue, ofRatio_magnitude]
  exact toRat_abs_finite false exponent fraction

section Tie

variable {x : Binary64} {m j s k : ℕ}

/-- An odd factor of a number of units is one of its significand. -/
theorem dvd_significand (h : 2 * (s * 2 ^ k) = 19 * 10 ^ m * 2 ^ j) : 19 * 5 ^ m ∣ s := by
  have hodd : Nat.Coprime (19 * 5 ^ m) (2 ^ (k + 1)) := by
    refine Nat.Coprime.pow_right _ (Nat.Coprime.mul_left (by decide) ?_)
    exact Nat.Coprime.pow_left m (by decide)
  refine hodd.dvd_of_dvd_mul_right ⟨2 ^ (m + j), ?_⟩
  calc s * 2 ^ (k + 1) = 2 * (s * 2 ^ k) := by ring
    _ = 19 * (5 * 2) ^ m * 2 ^ j := h
    _ = 19 * 5 ^ m * 2 ^ (m + j) := by rw [mul_pow, pow_add]; ring

/-- Halfway between `9` and `10` times a power of ten, that power is small. -/
theorem lt_of_halfway (hs : s < 2 ^ 53) (h : 2 * (s * 2 ^ k) = 19 * 10 ^ m * unitsPerOne) :
    19 * 5 ^ m < 2 ^ 53 := by
  have hdvd {unit j : ℕ} (hunit : unit = Nat.pow 2 j) (h : 2 * (s * 2 ^ k) = 19 * 10 ^ m * unit) :
      19 * 5 ^ m ∣ s := by
    rw [hunit, Nat.pow_eq] at h
    exact dvd_significand h
  have hpos : 0 < s := by
    rw [Nat.pos_iff_ne_zero]
    rintro rfl
    rw [Nat.zero_mul, Nat.mul_zero] at h
    have hright : 0 < 19 * 10 ^ m * unitsPerOne :=
      Nat.mul_pos (Nat.mul_pos (by decide) (Nat.pow_pos (by decide))) unitsPerOne_pos
    exact absurd h hright.ne
  exact lt_of_le_of_lt (Nat.le_of_dvd hpos (hdvd unitsPerOne_eq h)) hs

/-- A number of units has no value halfway between `9` and `10` times a negative power of ten. -/
theorem not_halfway {n : ℕ} : 2 * n * 10 ^ (m + 1) ≠ 19 * unitsPerOne := by
  have hfive {unit j : ℕ} (hunit : unit = Nat.pow 2 j) : ¬ 5 ∣ 19 * unit := by
    rw [hunit, Nat.pow_eq]
    intro hdvd
    have hcoprime : Nat.Coprime 5 (19 * 2 ^ j) :=
      Nat.Coprime.mul_right (by decide) (Nat.Coprime.pow_right j (by decide))
    exact absurd (hcoprime.eq_one_of_dvd hdvd) (by decide)
  intro h
  refine hfive unitsPerOne_eq (h ▸ Dvd.dvd.mul_left ?_ _)
  exact (show 5 ∣ 10 by decide).trans (dvd_pow_self 10 m.succ_ne_zero)

/-- Nine times such a power is a binary64 number. -/
theorem toRat_ofRat_nine (h : 19 * 5 ^ m < 2 ^ 53) :
    (ofRat (⟨9, m⟩ : Decimal).toRat).toRat = (⟨9, m⟩ : Decimal).toRat := by
  have hm : m < 53 := by
    refine (Nat.pow_lt_pow_iff_right (show 1 < 2 by decide)).mp ?_
    have hpower := Nat.pow_le_pow_left (show 2 ≤ 5 by decide) m
    omega
  have hnine : (⟨9, m⟩ : Decimal).toRat = ((9 * 5 ^ m * 2 ^ m : ℕ) : ℚ) := by
    rw [Decimal.toRat_mk, zpow_natCast, Nat.mul_assoc, ← mul_pow]
    push_cast
    norm_num
  rw [hnine]
  exact toRat_ofRat_natCast (by omega) (by omega)

/-- Halfway between `9` and `10` times a power of ten the lower one is not rounded up. -/
theorem ofRat_nine_ne (hfinite : x.isFinite = true) {e : ℤ} (h : x.abs.toRat = 19 / 2 * 10 ^ e) :
    ofRat (⟨9, e⟩ : Decimal).toRat ≠ x.abs := by
  obtain ⟨s, k, hunits, hs⟩ := exists_significand hfinite
  have hone : (unitsPerOne : ℚ) ≠ 0 := Nat.cast_ne_zero.mpr unitsPerOne_pos.ne'
  have hscaled : (2 * (s * 2 ^ k : ℕ) : ℚ) = 19 * 10 ^ e * unitsPerOne := by
    rw [h, eq_div_iff hone] at hunits
    rw [← hunits]
    ring
  cases e with
  | ofNat m =>
    rw [Int.ofNat_eq_natCast] at h hscaled ⊢
    rw [zpow_natCast] at hscaled
    have hexact := toRat_ofRat_nine (lt_of_halfway hs (by exact_mod_cast hscaled))
    intro hround
    rw [hround, h, Decimal.toRat_mk] at hexact
    have hpower : (10 : ℚ) ^ (m : ℤ) ≠ 0 := zpow_ne_zero _ (by norm_num)
    have hsame := mul_right_cancel₀ hpower hexact
    norm_num at hsame
  | negSucc m =>
    have hpower : (10 : ℚ) ^ (m + 1) ≠ 0 := pow_ne_zero _ (by norm_num)
    have hcast : (2 * (s * 2 ^ k : ℕ) * 10 ^ (m + 1) : ℚ) = 19 * unitsPerOne := by
      rw [hscaled, zpow_negSucc]
      field_simp
    exact absurd (by exact_mod_cast hcast) (not_halfway (n := s * 2 ^ k) (m := m))

end Tie

section Shortest

variable {x : Binary64} {d : Decimal}

theorem isFinite_abs (hfinite : x.isFinite = true) : x.abs.isFinite = true := by
  cases x with
  | finite negative exponent fraction => rfl
  | _ => cases hfinite

/-- The decimals that are rounded to a magnitude are those around it. -/
theorem readsAround_abs (hzero : x.toRat ≠ 0) :
    Decimal.ReadsAround x.abs.toRat fun c ↦ ofRat c.toRat = x.abs := by
  have hfinite := isFinite_of_toRat hzero
  have hexact : ofRat x.abs.toRat = x.abs := by
    rw [toRat_abs]
    exact ofRat_abs hfinite hzero
  have habs := isFinite_abs hfinite
  refine ⟨fun c hc ↦ ?_, fun c e hc hce he ↦ ?_, fun c e hc he hec ↦ ?_⟩
  · rw [hc, hexact]
  · exact ofRat_between habs c.toRat_nonneg hce he hc hexact
  · exact ofRat_between habs x.toRat_abs_nonneg he hec hexact hc

theorem hasShortest_shortest (hzero : x.toRat ≠ 0) : x.HasShortest x.shortest := by
  have habs : x.abs.toRat ≠ 0 := by
    rw [toRat_abs]
    exact abs_ne_zero.mpr hzero
  have hreads : (fun c : Decimal ↦ decide (ofRat c.toRat = x.abs) = true) =
      fun c ↦ ofRat c.toRat = x.abs := by
    funext c
    exact propext decide_eq_true_iff
  obtain ⟨places, hden⟩ := den_abs x
  have hnine (e : ℤ) (he : x.abs.toRat = 19 / 2 * 10 ^ e) :
      decide (ofRat (⟨9, e⟩ : Decimal).toRat = x.abs) = false :=
    decide_eq_false (ofRat_nine_ne (isFinite_of_toRat hzero) he)
  have hshortest := Decimal.isShortest_shortest (x.toRat_abs_nonneg.lt_of_ne' habs) hden
    (hreads ▸ readsAround_abs hzero) hnine
  rw [hreads] at hshortest
  rw [shortest, if_neg habs]
  exact hshortest

theorem HasShortest.unique (hzero : x.toRat ≠ 0) (h : x.HasShortest d) : d = x.shortest :=
  Decimal.IsShortest.unique h (hasShortest_shortest hzero) (readsAround_abs hzero)

end Shortest

section Whole

variable {x : Binary64} {d : Decimal} {n : ℕ}

theorem toRat_natural (n : ℕ) : (⟨n, 0⟩ : Decimal).toRat = n := by
  rw [Decimal.toRat_mk, zpow_zero, mul_one]

/-- The natural numbers up to `2 ^ 53` are rounded to numbers of their own. -/
theorem natCast_eq_of_ofRat (h : n ≤ 2 ^ 53) (hround : ofRat (n : ℚ) = x) : x.toRat = n := by
  have hexact := toRat_ofRat_natCast (j := 0) h (by decide)
  rwa [pow_zero, Nat.mul_one, hround] at hexact

/-- The shortest decimal of a small whole number lies between its neighbours. -/
theorem HasShortest.between (h : x.HasShortest d) (hzero : x.toRat ≠ 0) (hn : x.abs.toRat = n)
    (hsmall : n < 2 ^ 53) : (n : ℚ) - 1 < d.toRat ∧ d.toRat < n + 1 := by
  have hreads := readsAround_abs hzero
  have hother {m : ℕ} (hm : m ≤ 2 ^ 53) (hround : ofRat (⟨m, 0⟩ : Decimal).toRat = x.abs) :
      m = n := by
    rw [toRat_natural] at hround
    have hsame := natCast_eq_of_ofRat hm hround
    rw [hn] at hsame
    exact_mod_cast hsame.symm
  constructor
  · by_contra hle
    rw [not_lt] at hle
    have hpos : (1 : ℚ) ≤ n := by linarith [d.toRat_nonneg]
    have hcast : ((n - 1 : ℕ) : ℚ) = n - 1 := Nat.cast_pred (by exact_mod_cast hpos)
    have hprevious : ofRat (⟨n - 1, 0⟩ : Decimal).toRat = x.abs := by
      refine hreads.below d _ h.readsBack ?_ ?_
      · rwa [toRat_natural, hcast]
      · rw [toRat_natural, hcast, hn]
        linarith
    have heq := hother (by omega) hprevious
    rw [heq] at hcast
    linarith
  · by_contra hle
    rw [not_lt] at hle
    have hnext : ofRat (⟨n + 1, 0⟩ : Decimal).toRat = x.abs := by
      refine hreads.above d _ h.readsBack ?_ ?_
      · rw [toRat_natural, hn, Nat.cast_succ]
        linarith
      · rwa [toRat_natural, Nat.cast_succ]
    have heq := hother (by omega) hnext
    omega

/-- Besides a whole number itself, only decimals with fewer digits may come before all others. -/
theorem HasShortest.count_lt (h : x.HasShortest d) (hzero : x.toRat ≠ 0) (hn : x.abs.toRat = n)
    (hne : d.toRat ≠ n) : Decimal.digitCount d.coefficient < Decimal.digitCount n := by
  have hself : (⟨n, 0⟩ : Decimal).toRat = x.abs.toRat := (toRat_natural n).trans hn.symm
  have hpos : n ≠ 0 := by
    rintro rfl
    rw [toRat_abs, Nat.cast_zero, abs_eq_zero] at hn
    exact hzero hn
  have hother : (⟨n, 0⟩ : Decimal) ≠ d := by
    rintro rfl
    exact hne (toRat_natural n)
  have hnear : |(⟨n, 0⟩ : Decimal).toRat - x.abs.toRat| = 0 := by
    rw [hself, sub_self, abs_zero]
  have hfar : 0 < |d.toRat - x.abs.toRat| := by
    rw [abs_pos, sub_ne_zero, hn]
    exact hne
  rcases h.precedes ⟨n, 0⟩ hpos ((readsAround_abs hzero).exact _ hself) hother with
    hfewer | ⟨-, hnearer | ⟨hsame, -⟩⟩
  · exact hfewer
  · exact absurd (hnear ▸ hnearer) (abs_nonneg _).not_gt
  · exact absurd (hnear ▸ hsame) hfar.ne'

/-- With fewer digits and places after the point a decimal is less than a tenth of a whole number.
-/
theorem toRat_lt_of_count_lt (hd : d.coefficient ≠ 0) (hfraction : d.exponent < 0)
    (hcount : Decimal.digitCount d.coefficient < Decimal.digitCount n) : 10 * d.toRat < n := by
  have hfirst := Decimal.digitCount_pos d.coefficient
  have hbelow : d.toRat < 10 ^ (Decimal.digitCount n - 2) := by
    refine lt_of_lt_of_le (Decimal.toRat_bounds hd).2 ?_
    rw [← zpow_natCast]
    exact (zpow_le_zpow_iff_right₀ (by norm_num)).mpr (by omega)
  have habove : 10 * 10 ^ (Decimal.digitCount n - 2) ≤ n := by
    rw [← pow_succ', show Decimal.digitCount n - 2 + 1 = Decimal.digitCount n - 1 by omega]
    have hleast : ¬ Decimal.digitCount n ≤ Decimal.digitCount n - 1 := by omega
    rw [Decimal.digitCount_le_iff (by omega)] at hleast
    exact not_lt.mp hleast
  calc 10 * d.toRat < 10 * 10 ^ (Decimal.digitCount n - 2) := by linarith
    _ ≤ n := by exact_mod_cast habove

/-- A whole number below `2 ^ 53` is its own shortest decimal. -/
theorem HasShortest.toRat_eq_of_lt (h : x.HasShortest d) (hzero : x.toRat ≠ 0)
    (hn : x.abs.toRat = n) (hsmall : n < 2 ^ 53) : d.toRat = n := by
  by_contra hne
  obtain ⟨hlow, hhigh⟩ := h.between hzero hn hsmall
  have hcount := h.count_lt hzero hn hne
  rcases lt_or_ge d.exponent 0 with hfraction | hwhole
  · have htenth := toRat_lt_of_count_lt h.coefficient_ne_zero hfraction hcount
    have hten : (10 : ℚ) ≤ n := by
      have hleast : ¬ Decimal.digitCount n ≤ 1 := by
        have hfirst := Decimal.digitCount_pos d.coefficient
        omega
      rw [Decimal.digitCount_le_iff one_pos, not_lt] at hleast
      exact_mod_cast hleast
    linarith
  · obtain ⟨m, hm⟩ := Decimal.exists_onGrid hwhole
    rw [toRat_natural] at hm
    rw [← hm] at hlow hhigh hne
    have hleft : n < m + 1 := by
      have hcast : (n : ℚ) < m + 1 := by linarith
      exact_mod_cast hcast
    have hright : m < n + 1 := by exact_mod_cast hhigh
    exact hne (congrArg Nat.cast (show m = n by omega))

end Whole

end Binary64

end Motion
