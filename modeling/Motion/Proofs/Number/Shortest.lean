import Motion.Number.Shortest
import Motion.Proofs.Number.Rounding
import Mathlib.Data.Nat.Prime.Basic
import Mathlib.Tactic.FieldSimp
import Mathlib.Tactic.Ring

/-!
The shortest decimal of a binary64 number reads back. Where the search finds a decimal it has been
tested; where it finds none, the number itself is a decimal with as many places as its denominator
has binary digits, and that is what is taken.
-/

set_option autoImplicit false
set_option relaxedAutoImplicit false

namespace Motion

namespace Decimal

theorem toRat_stripZeros (fuel : ℕ) (x : Decimal) : (stripZeros fuel x).toRat = x.toRat := by
  induction fuel generalizing x with
  | zero => rfl
  | succ fuel ih =>
    rw [stripZeros]
    split_ifs with h
    · have hten : x.coefficient = x.coefficient / 10 * 10 := by omega
      rw [ih, toRat, toRat, powerOfTen_eq, powerOfTen_eq, zpow_add₀ (by norm_num), zpow_one]
      conv_rhs => rw [hten]
      push_cast
      ring
    · rfl

theorem reads_of_onGrid? {q : ℚ} {reads : Decimal → Bool} {exponent : ℤ} {x : Decimal}
    (h : onGrid? q reads exponent = some x) : reads x = true := by
  unfold onGrid? at h
  dsimp only at h
  split at h
  · split_ifs at h <;> cases h <;> assumption
  · cases h
    assumption
  · cases h
    assumption
  · cases h

theorem reads_of_search {q : ℚ} {reads : Decimal → Bool} {point : ℤ} {count fuel : ℕ} {x : Decimal}
    (h : search q reads point count fuel = some x) : reads x = true := by
  induction fuel generalizing count with
  | zero => cases h
  | succ fuel ih =>
    rw [search] at h
    split at h
    · rename_i hgrid
      cases h
      exact reads_of_onGrid? hgrid
    · exact ih h

/-- A number whose denominator is a power of two is a decimal with that many places. -/
theorem toRat_exact {q : ℚ} (hq : 0 ≤ q) {places : ℕ} (hden : q.den = 2 ^ places) :
    toRat ⟨(q * powerOfTen places).floor.toNat, -places⟩ = q := by
  have hscaled : q * powerOfTen places = ((q.num * 5 ^ places : ℤ) : ℚ) := by
    have hfraction : q = q.num / (2 ^ places : ℚ) := by
      have hself := Rat.num_div_den q
      rw [hden] at hself
      exact_mod_cast hself.symm
    have hten : (10 : ℚ) ^ places = 2 ^ places * 5 ^ places := by
      rw [← mul_pow]
      norm_num
    rw [powerOfTen_eq, zpow_natCast, hten]
    conv_lhs => rw [hfraction]
    push_cast
    field_simp
  have hnonneg : 0 ≤ q.num * 5 ^ places :=
    mul_nonneg (Rat.num_nonneg.mpr hq) (pow_nonneg (by norm_num) places)
  have hfloor : (((q * powerOfTen places).floor.toNat : ℕ) : ℚ) = q * powerOfTen places := by
    rw [hscaled, Rat.floor_intCast, ← Int.cast_natCast, Int.toNat_of_nonneg hnonneg]
  rw [toRat, hfloor, mul_assoc, powerOfTen_eq, powerOfTen_eq, ← zpow_add₀ (by norm_num),
    add_neg_cancel, zpow_zero, mul_one]

/-- The shortest decimal passes the test, if that looks at values only and the number itself
passes. -/
theorem reads_shortest {q : ℚ} {reads : Decimal → Bool} (hq : 0 ≤ q) {places : ℕ}
    (hden : q.den = 2 ^ places) (hexact : ∀ x : Decimal, x.toRat = q → reads x = true)
    (hvalue : ∀ x y : Decimal, x.toRat = y.toRat → reads x = reads y) :
    reads (shortest q reads) = true := by
  unfold shortest
  dsimp only
  split
  · rename_i x hx
    rw [hvalue _ x (toRat_stripZeros _ x)]
    exact reads_of_search hx
  · have hplaces : Nat.log2 q.den = places := by
      rw [hden, Nat.log2_two_pow]
    rw [hplaces]
    exact hexact _ (toRat_exact hq hden)

/-- The place of the point of a quotient: it lies between the powers of ten around it. -/
theorem pointOf_bounds {n d : ℕ} (hn : 0 < n) (hd : 0 < d) :
    (10 : ℚ) ^ (pointOf n d - 1) ≤ mkRat n d ∧ mkRat n d < 10 ^ pointOf n d := by
  have hten : (10 : ℚ) ≠ 0 := by norm_num
  have hcount {m : ℕ} (hm : 0 < m) :
      (10 : ℚ) ^ ((digitCount m : ℤ) - 1) ≤ m ∧ (m : ℚ) < 10 ^ (digitCount m : ℤ) := by
    have hbounds := toRat_bounds (x := ⟨m, 0⟩) hm.ne'
    rwa [toRat, powerOfTen_eq, zpow_zero, mul_one, zero_add] at hbounds
  obtain ⟨hleast, hmost⟩ := hcount hn
  obtain ⟨hleast', hmost'⟩ := hcount hd
  have hpos : (0 : ℚ) < d := Nat.cast_pos.mpr hd
  rw [pointOf, Rat.mkRat_eq_div, Int.cast_natCast, powerOfTen_eq]
  generalize (digitCount n : ℤ) = a at hleast hmost ⊢
  generalize (digitCount d : ℤ) = b at hleast' hmost' ⊢
  split_ifs with h
  · refine ⟨?_, of_decide_eq_true h⟩
    rw [le_div_iff₀ hpos]
    calc (10 : ℚ) ^ (a - b - 1) * d ≤ 10 ^ (a - b - 1) * 10 ^ b :=
          mul_le_mul_of_nonneg_left hmost'.le (zpow_nonneg (by norm_num) _)
      _ = 10 ^ (a - 1) := by rw [← zpow_add₀ hten, sub_right_comm, sub_add_cancel]
      _ ≤ n := hleast
  · rw [decide_eq_true_eq, not_lt] at h
    rw [add_sub_cancel_right]
    refine ⟨h, ?_⟩
    rw [div_lt_iff₀ hpos]
    calc (n : ℚ) < 10 ^ a := hmost
      _ = 10 ^ (a - b + 1) * 10 ^ (b - 1) := by
          rw [← zpow_add₀ hten]
          congr 1
          omega
      _ ≤ 10 ^ (a - b + 1) * d := mul_le_mul_of_nonneg_left hleast' (zpow_nonneg (by norm_num) _)

/-- A neighbour on a grid that holds a power of ten is not on the other side of it. -/
theorem le_toRat_of_onGrid? {q : ℚ} {reads : Decimal → Bool} {exponent k : ℤ} {x : Decimal}
    (hk : exponent ≤ k) (hq : (10 : ℚ) ^ k ≤ q) (h : onGrid? q reads exponent = some x) :
    (10 : ℚ) ^ k ≤ x.toRat := by
  have hpower : (0 : ℚ) < 10 ^ exponent := zpow_pos (by norm_num) _
  obtain ⟨m, hm⟩ := Int.eq_ofNat_of_zero_le (sub_nonneg.mpr hk)
  have hsplit : (10 : ℚ) ^ k = ((10 ^ m : ℕ) : ℚ) * 10 ^ exponent := by
    rw [Nat.cast_pow, Nat.cast_ofNat, ← zpow_natCast, ← zpow_add₀ (by norm_num)]
    congr 1
    omega
  have hscaled : ((10 ^ m : ℕ) : ℤ) ≤ (q / powerOfTen exponent).floor := by
    rw [Rat.le_floor_iff, powerOfTen_eq, le_div_iff₀ hpower, Int.cast_natCast, ← hsplit]
    exact hq
  have hfloor : 10 ^ m ≤ (q / powerOfTen exponent).floor.toNat := by
    rwa [Int.le_toNat (le_trans (Int.natCast_nonneg _) hscaled)]
  have hnear : x.exponent = exponent ∧ (q / powerOfTen exponent).floor.toNat ≤ x.coefficient := by
    unfold onGrid? at h
    dsimp only at h
    split at h
    · split_ifs at h <;> cases h
      · exact ⟨rfl, le_rfl⟩
      · exact ⟨rfl, Nat.le_succ _⟩
    · cases h
      exact ⟨rfl, le_rfl⟩
    · cases h
      exact ⟨rfl, Nat.le_succ _⟩
    · cases h
  rw [toRat, powerOfTen_eq, hnear.1, hsplit]
  exact mul_le_mul_of_nonneg_right (Nat.cast_le.mpr (hfloor.trans hnear.2)) hpower.le

theorem le_toRat_of_search {q : ℚ} {reads : Decimal → Bool} {point k : ℤ} {count fuel : ℕ}
    {x : Decimal} (hk : point - count ≤ k) (hq : (10 : ℚ) ^ k ≤ q)
    (h : search q reads point count fuel = some x) : (10 : ℚ) ^ k ≤ x.toRat := by
  induction fuel generalizing count with
  | zero => cases h
  | succ fuel ih =>
    rw [search] at h
    split at h
    · rename_i hgrid
      cases h
      exact le_toRat_of_onGrid? hk hq hgrid
    · exact ih (by push_cast; omega) h

/-- The place of the point of a positive number. -/
theorem pointOf_bounds_of_pos {q : ℚ} (hq : 0 < q) :
    (10 : ℚ) ^ (pointOf q.num.natAbs q.den - 1) ≤ q ∧ q < 10 ^ pointOf q.num.natAbs q.den := by
  have hself : mkRat q.num.natAbs q.den = q := by
    rw [Int.natAbs_of_nonneg (Rat.num_nonneg.mpr hq.le), Rat.mkRat_self]
  have hbounds := pointOf_bounds (Int.natAbs_pos.mpr (Rat.num_pos.mpr hq).ne') q.den_pos
  rwa [hself] at hbounds

/-- The shortest decimal of a number from a power of ten on is not below that power. -/
theorem le_toRat_shortest {q : ℚ} {reads : Decimal → Bool} {k : ℤ} (hq : (10 : ℚ) ^ k ≤ q)
    {places : ℕ} (hden : q.den = 2 ^ places) : (10 : ℚ) ^ k ≤ (shortest q reads).toRat := by
  have hpos : 0 < q := lt_of_lt_of_le (zpow_pos (by norm_num) k) hq
  obtain ⟨hleast, hmost⟩ := pointOf_bounds_of_pos hpos
  have hpoint : pointOf q.num.natAbs q.den - 1 ≥ k := by
    have hless := (zpow_lt_zpow_iff_right₀ (by norm_num)).mp (lt_of_le_of_lt hq hmost)
    omega
  refine le_trans ((zpow_le_zpow_iff_right₀ (by norm_num)).mpr hpoint) ?_
  unfold shortest
  dsimp only
  split
  · rename_i x hx
    rw [toRat_stripZeros]
    exact le_toRat_of_search (by rw [Nat.cast_one]) hleast hx
  · have hplaces : Nat.log2 q.den = places := by
      rw [hden, Nat.log2_two_pow]
    rw [hplaces, toRat_exact hpos.le hden]
    exact hleast

end Decimal

namespace Binary64

theorem toRat_abs_finite (negative : Bool) (exponent : Fin 2047) (fraction : Fin fractionCount) :
    (finite negative exponent fraction).abs.toRat =
      mkRat (units exponent fraction) unitsPerOne := by
  simp only [abs, toRat, Bool.false_eq_true, if_false]

theorem toRat_abs_nonneg (x : Binary64) : 0 ≤ x.abs.toRat := by
  cases x with
  | nan => exact le_refl _
  | infinite negative => exact le_refl _
  | finite negative exponent fraction =>
    rw [toRat_abs_finite]
    exact Rat.mkRat_nonneg (Int.natCast_nonneg _) _

theorem ofRat_of_nonneg {q : ℚ} (h : 0 ≤ q) : ofRat q = ofRatio false q := by
  rw [ofRat, decide_eq_false (not_lt.mpr h)]

/-- The denominator of a magnitude is a power of two. -/
theorem den_abs (x : Binary64) : ∃ places, x.abs.toRat.den = 2 ^ places := by
  cases x with
  | nan => exact ⟨0, rfl⟩
  | infinite negative => exact ⟨0, rfl⟩
  | finite negative exponent fraction =>
    have hpower {q : ℚ} {n k : ℕ} (hn : n = Nat.pow 2 k) (hdvd : (q.den : ℤ) ∣ n) :
        ∃ places, q.den = 2 ^ places := by
      rw [Int.natCast_dvd_natCast, hn, Nat.pow_eq] at hdvd
      obtain ⟨places, -, hplaces⟩ := (Nat.dvd_prime_pow Nat.prime_two).mp hdvd
      exact ⟨places, hplaces⟩
    rw [toRat_abs_finite, Rat.mkRat_eq_divInt]
    exact hpower unitsPerOne_eq (Rat.den_dvd (units exponent fraction) unitsPerOne)

/-- The shortest decimal of a finite number other than zero is rounded to its magnitude. -/
theorem ofRat_shortest {x : Binary64} (hfinite : x.isFinite = true) (hzero : x.abs.toRat ≠ 0) :
    ofRat x.shortest.toRat = x.abs := by
  obtain ⟨places, hden⟩ := den_abs x
  have hexact : ofRat x.abs.toRat = x.abs := by
    rw [ofRat_of_nonneg x.toRat_abs_nonneg]
    cases x with
    | finite negative exponent fraction =>
      rw [toRat_abs_finite, ofRatio_magnitude, abs]
    | _ => cases hfinite
  rw [shortest, if_neg hzero]
  have hself (d : Decimal) (hd : d.toRat = x.abs.toRat) :
      decide (ofRat d.toRat = x.abs) = true := by
    rw [hd, decide_eq_true hexact]
  have hreads := Decimal.reads_shortest x.toRat_abs_nonneg hden hself
    (fun d e hvalue ↦ by rw [hvalue])
  exact of_decide_eq_true hreads

end Binary64

end Motion
