import Motion.Proofs.Number.Digits

/-!
The search over the grids finds the decimal that comes before all others
(`Decimal.isShortest_shortest`). On one grid only the two neighbours of the number matter, since a
neighbour lies between the number and every other point on its side; a decimal with some count of
digits that is not less than the power of ten below the number lies on the grid of that count, and
one that is less is farther than that power. One tie has to be kept out: `9` and `10` on the first
grid, of which the second loses its zero and is odd.
-/

set_option autoImplicit false
set_option relaxedAutoImplicit false

namespace Motion

namespace Decimal

section Neighbours

variable {q : ℚ} {e : ℤ} {m n : ℕ}

/-- The point of a grid next to a number and not above it. -/
def below (q : ℚ) (e : ℤ) : ℕ :=
  (q / powerOfTen e).floor.toNat

theorem toRat_lt_toRat_iff :
    (⟨m, e⟩ : Decimal).toRat < (⟨n, e⟩ : Decimal).toRat ↔ m < n := by
  have hpower : (0 : ℚ) < 10 ^ e := zpow_pos (by norm_num) _
  rw [toRat_mk, toRat_mk, mul_lt_mul_iff_left₀ hpower, Nat.cast_lt]

theorem toRat_le_toRat_iff :
    (⟨m, e⟩ : Decimal).toRat ≤ (⟨n, e⟩ : Decimal).toRat ↔ m ≤ n := by
  rw [← not_lt, toRat_lt_toRat_iff, not_lt]

theorem natCast_below (hq : 0 ≤ q) (e : ℤ) :
    ((below q e : ℕ) : ℚ) = ((q / powerOfTen e).floor : ℚ) := by
  have hfloor : 0 ≤ (q / powerOfTen e).floor := by
    rw [Rat.le_floor_iff, powerOfTen_eq]
    exact div_nonneg hq (zpow_nonneg (by norm_num) _)
  rw [below, ← Int.cast_natCast, Int.toNat_of_nonneg hfloor]

theorem toRat_below_le (hq : 0 ≤ q) (e : ℤ) : (⟨below q e, e⟩ : Decimal).toRat ≤ q := by
  have hpower : (0 : ℚ) < 10 ^ e := zpow_pos (by norm_num) _
  rw [toRat_mk, natCast_below hq, ← le_div_iff₀ hpower, ← powerOfTen_eq]
  exact Rat.floor_le _

theorem lt_toRat_above (hq : 0 ≤ q) (e : ℤ) : q < (⟨below q e + 1, e⟩ : Decimal).toRat := by
  have hpower : (0 : ℚ) < 10 ^ e := zpow_pos (by norm_num) _
  have hless := Rat.lt_floor_add_one (q / powerOfTen e)
  rw [Int.cast_add, Int.cast_one, ← natCast_below hq] at hless
  rwa [toRat_mk, Nat.cast_succ, ← div_lt_iff₀ hpower, ← powerOfTen_eq]

/-- How far a point of a grid is from a number. -/
def gap (q : ℚ) (e : ℤ) (m : ℕ) : ℚ :=
  |(⟨m, e⟩ : Decimal).toRat - q|

theorem gap_of_le (h : (⟨m, e⟩ : Decimal).toRat ≤ q) :
    gap q e m = q - (⟨m, e⟩ : Decimal).toRat := by
  rw [gap, abs_of_nonpos (sub_nonpos.mpr h), neg_sub]

theorem gap_of_ge (h : q ≤ (⟨m, e⟩ : Decimal).toRat) :
    gap q e m = (⟨m, e⟩ : Decimal).toRat - q := by
  rw [gap, abs_of_nonneg (sub_nonneg.mpr h)]

theorem gap_below (hq : 0 ≤ q) (e : ℤ) :
    gap q e (below q e) = (q / powerOfTen e - below q e) * powerOfTen e := by
  have hpower : powerOfTen e ≠ 0 := powerOfTen_eq e ▸ zpow_ne_zero _ (by norm_num)
  rw [gap_of_le (toRat_below_le hq e), toRat, sub_mul, div_mul_cancel₀ _ hpower]

theorem gap_above (hq : 0 ≤ q) (e : ℤ) :
    gap q e (below q e + 1) = (below q e + 1 - q / powerOfTen e) * powerOfTen e := by
  have hpower : powerOfTen e ≠ 0 := powerOfTen_eq e ▸ zpow_ne_zero _ (by norm_num)
  rw [gap_of_ge (lt_toRat_above hq e).le, toRat, sub_mul, div_mul_cancel₀ _ hpower, Nat.cast_succ]

/-- A point below the lower neighbour is farther than that. -/
theorem gap_below_lt (hq : 0 ≤ q) (h : m < below q e) : gap q e (below q e) < gap q e m := by
  have hless := toRat_lt_toRat_iff (e := e).mpr h
  have hbelow := toRat_below_le hq e
  rw [gap_of_le hbelow, gap_of_le (hless.le.trans hbelow)]
  linarith

/-- A point above the upper neighbour is farther than that. -/
theorem gap_above_lt (hq : 0 ≤ q) (h : below q e + 1 < m) :
    gap q e (below q e + 1) < gap q e m := by
  have hless := toRat_lt_toRat_iff (e := e).mpr h
  have habove := (lt_toRat_above hq e).le
  rw [gap_of_ge habove, gap_of_ge (habove.trans hless.le)]
  linarith

end Neighbours

section Nearest

variable {q : ℚ} {reads : Decimal → Bool} {e : ℤ} {m : ℕ}

/-- Whether a decimal is the nearest on a grid of those that read back, and even where another one
is as near. -/
structure IsNearestOn (q : ℚ) (reads : Decimal → Bool) (e : ℤ) (y : Decimal) : Prop where
  exponent : y.exponent = e
  readsBack : reads y = true
  below_le : below q e ≤ y.coefficient
  le_above : y.coefficient ≤ below q e + 1
  near : ∀ m, reads ⟨m, e⟩ = true → gap q e y.coefficient ≤ gap q e m
  even : ∀ m, reads ⟨m, e⟩ = true → m ≠ y.coefficient → gap q e m = gap q e y.coefficient →
    y.coefficient % 2 = 0

theorem reads_below (hq : 0 ≤ q) (hreads : ReadsAround q fun d ↦ reads d = true)
    (hm : reads ⟨m, e⟩ = true) (h : m ≤ below q e) : reads ⟨below q e, e⟩ = true :=
  hreads.below _ _ hm (toRat_le_toRat_iff.mpr h) (toRat_below_le hq e)

theorem reads_above (hq : 0 ≤ q) (hreads : ReadsAround q fun d ↦ reads d = true)
    (hm : reads ⟨m, e⟩ = true) (h : below q e + 1 ≤ m) : reads ⟨below q e + 1, e⟩ = true :=
  hreads.above _ _ hm (lt_toRat_above hq e).le (toRat_le_toRat_iff.mpr h)

/-- The lower neighbour is the nearest if the upper one is not nearer. -/
theorem isNearestOn_below (hq : 0 ≤ q) (hreads : ReadsAround q fun d ↦ reads d = true)
    (hbelow : reads ⟨below q e, e⟩ = true)
    (habove : reads ⟨below q e + 1, e⟩ = true → gap q e (below q e) ≤ gap q e (below q e + 1) ∧
      (gap q e (below q e) = gap q e (below q e + 1) → below q e % 2 = 0)) :
    IsNearestOn q reads e ⟨below q e, e⟩ where
  exponent := rfl
  readsBack := hbelow
  below_le := le_rfl
  le_above := Nat.le_succ _
  near := by
    intro m hm
    rcases lt_trichotomy m (below q e) with h | rfl | h
    · exact (gap_below_lt hq h).le
    · exact le_rfl
    · refine (habove (reads_above hq hreads hm h)).1.trans ?_
      rcases (Nat.succ_le_of_lt h).lt_or_eq with h | rfl
      · exact (gap_above_lt hq h).le
      · exact le_rfl
  even := by
    intro m hm hne hgap
    rcases lt_or_gt_of_ne hne with h | h
    · exact absurd hgap (gap_below_lt hq h).ne'
    · obtain ⟨hle, heven⟩ := habove (reads_above hq hreads hm h)
      rcases (Nat.succ_le_of_lt h).lt_or_eq with h | rfl
      · exact absurd hgap (lt_of_le_of_lt hle (gap_above_lt hq h)).ne'
      · exact heven hgap.symm

/-- The upper neighbour is the nearest if the lower one is not nearer. -/
theorem isNearestOn_above (hq : 0 ≤ q) (hreads : ReadsAround q fun d ↦ reads d = true)
    (habove : reads ⟨below q e + 1, e⟩ = true)
    (hbelow : reads ⟨below q e, e⟩ = true → gap q e (below q e + 1) ≤ gap q e (below q e) ∧
      (gap q e (below q e + 1) = gap q e (below q e) → (below q e + 1) % 2 = 0)) :
    IsNearestOn q reads e ⟨below q e + 1, e⟩ where
  exponent := rfl
  readsBack := habove
  below_le := Nat.le_succ _
  le_above := le_rfl
  near := by
    intro m hm
    rcases lt_trichotomy m (below q e + 1) with h | rfl | h
    · refine (hbelow (reads_below hq hreads hm (Nat.le_of_lt_succ h))).1.trans ?_
      rcases (Nat.le_of_lt_succ h).lt_or_eq with h | rfl
      · exact (gap_below_lt hq h).le
      · exact le_rfl
    · exact le_rfl
    · exact (gap_above_lt hq h).le
  even := by
    intro m hm hne hgap
    rcases lt_or_gt_of_ne hne with h | h
    · obtain ⟨hle, heven⟩ := hbelow (reads_below hq hreads hm (Nat.le_of_lt_succ h))
      rcases (Nat.le_of_lt_succ h).lt_or_eq with h | rfl
      · exact absurd hgap (lt_of_le_of_lt hle (gap_below_lt hq h)).ne'
      · exact heven hgap.symm
    · exact absurd hgap (gap_above_lt hq h).ne'

/-- What is taken on a grid is the nearest that reads back. -/
theorem isNearestOn_of_onGrid? (hq : 0 ≤ q) (hreads : ReadsAround q fun d ↦ reads d = true)
    {y : Decimal} (h : onGrid? q reads e = some y) : IsNearestOn q reads e y := by
  have hpower : 0 < powerOfTen e := powerOfTen_eq e ▸ zpow_pos (by norm_num) e
  have hhalf : mkRat 1 2 = (1 / 2 : ℚ) := by norm_num [Rat.mkRat_eq_div]
  have hle : gap q e (below q e) ≤ gap q e (below q e + 1) ↔
      q / powerOfTen e - below q e ≤ 1 / 2 := by
    rw [gap_below hq, gap_above hq, mul_le_mul_iff_left₀ hpower]
    constructor <;> intro h <;> linarith
  have hge : gap q e (below q e + 1) ≤ gap q e (below q e) ↔
      1 / 2 ≤ q / powerOfTen e - below q e := by
    rw [gap_below hq, gap_above hq, mul_le_mul_iff_left₀ hpower]
    constructor <;> intro h <;> linarith
  unfold onGrid? at h
  rw [hhalf] at h
  dsimp only at h
  rw [← below] at h
  split at h
  · rename_i hbelow habove
    split_ifs at h with hnear
    · cases h
      refine isNearestOn_below hq hreads hbelow fun _ ↦ ⟨hle.mpr ?_, fun heq ↦ ?_⟩
      · rcases hnear with hless | hhalf
        · exact hless.le
        · exact hhalf.1.le
      · rcases hnear with hless | hhalf
        · exact absurd (hge.mp heq.ge) hless.not_ge
        · exact hhalf.2
    · cases h
      rw [not_or, not_and, not_lt] at hnear
      refine isNearestOn_above hq hreads habove fun _ ↦ ⟨hge.mpr hnear.1, fun heq ↦ ?_⟩
      have hodd := hnear.2 (le_antisymm (hle.mp heq.ge) hnear.1)
      omega
  · rename_i hbelow habove
    cases h
    refine isNearestOn_below hq hreads hbelow fun h ↦ ?_
    rw [habove] at h
    cases h
  · rename_i hbelow habove
    cases h
    refine isNearestOn_above hq hreads habove fun h ↦ ?_
    rw [hbelow] at h
    cases h
  · cases h

/-- Where nothing is taken on a grid, nothing on it reads back. -/
theorem reads_of_onGrid?_eq_none (hq : 0 ≤ q) (hreads : ReadsAround q fun d ↦ reads d = true)
    (h : onGrid? q reads e = none) (m : ℕ) : reads ⟨m, e⟩ = false := by
  rw [Bool.eq_false_iff]
  intro hm
  unfold onGrid? at h
  dsimp only at h
  rw [← below] at h
  split at h
  · split_ifs at h
  · cases h
  · cases h
  · rename_i hbelow habove
    rcases le_or_gt m (below q e) with hle | hgt
    · rw [reads_below hq hreads hm hle] at hbelow
      cases hbelow
    · rw [reads_above hq hreads hm hgt] at habove
      cases habove

end Nearest

section Search

variable {q : ℚ} {reads : Decimal → Bool} {point : ℤ}

/-- What the search finds is the nearest on its grid, and nothing on an earlier grid reads back. -/
theorem isNearestOn_of_search (hq : 0 ≤ q) (hreads : ReadsAround q fun d ↦ reads d = true)
    {y : Decimal} {count fuel : ℕ} (h : search q reads point count fuel = some y) :
    ∃ k, count ≤ k ∧ IsNearestOn q reads (point - k) y ∧
      ∀ j : ℕ, count ≤ j → j < k → ∀ m, reads ⟨m, point - j⟩ = false := by
  induction fuel generalizing count with
  | zero => cases h
  | succ fuel ih =>
    rw [search] at h
    split at h
    · rename_i hgrid
      cases h
      exact ⟨count, le_rfl, isNearestOn_of_onGrid? hq hreads hgrid, fun j hle hlt ↦ by omega⟩
    · rename_i hgrid
      obtain ⟨k, hle, hnearest, hearlier⟩ := ih h
      refine ⟨k, by omega, hnearest, fun j hj hlt m ↦ ?_⟩
      rcases hj.eq_or_lt with rfl | hj
      · exact reads_of_onGrid?_eq_none hq hreads hgrid m
      · exact hearlier j hj hlt m

/-- The search finds something if a point reads back on a grid that it comes to. -/
theorem search_ne_none (hq : 0 ≤ q) (hreads : ReadsAround q fun d ↦ reads d = true) {j m : ℕ}
    (hm : reads ⟨m, point - j⟩ = true) {count fuel : ℕ} (hle : count ≤ j) (hlt : j < count + fuel) :
    search q reads point count fuel ≠ none := by
  induction fuel generalizing count with
  | zero => omega
  | succ fuel ih =>
    rw [search]
    split
    · exact Option.some_ne_none _
    · rename_i hgrid
      have hne : count ≠ j := by
        rintro rfl
        rw [reads_of_onGrid?_eq_none hq hreads hgrid m] at hm
        cases hm
      exact ih (by omega) (by omega)

theorem stripZeros_le (fuel : ℕ) (x : Decimal) :
    (stripZeros fuel x).coefficient ≤ x.coefficient := by
  induction fuel generalizing x with
  | zero => exact le_rfl
  | succ fuel ih =>
    rw [stripZeros]
    split_ifs
    · exact (ih _).trans (Nat.div_le_self _ _)
    · exact le_rfl

theorem stripZeros_ten (e : ℤ) : stripZeros (digitCount 10) ⟨10, e⟩ = ⟨1, e + 1⟩ := by
  have hcount : digitCount 10 = 2 := by decide
  rw [hcount]
  simp [stripZeros]

/-- Whether a decimal is the nearest on a grid of some count of digits, and nothing on a grid of
fewer digits reads back. -/
structure IsFound (q : ℚ) (reads : Decimal → Bool) (point : ℤ) (k : ℕ) (y : Decimal) : Prop where
  count_pos : 1 ≤ k
  nearest : IsNearestOn q reads (point - k) y
  earlier : ∀ j : ℕ, 1 ≤ j → j < k → ∀ m, reads ⟨m, point - j⟩ = false

/-- The shortest decimal is, but for zeros at its end, the one that is found. -/
theorem exists_isFound (hq : 0 < q) {places : ℕ} (hden : q.den = 2 ^ places)
    (hreads : ReadsAround q fun d ↦ reads d = true) : ∃ k y,
      IsFound q reads (pointOf q.num.natAbs q.den) k y ∧
        shortest q reads = stripZeros (digitCount y.coefficient) y := by
  have hplaces : Nat.log2 q.den = places := by
    rw [hden, Nat.log2_two_pow]
  obtain ⟨-, hmost⟩ := pointOf_bounds_of_pos hq
  unfold shortest
  dsimp only
  rw [hplaces]
  generalize pointOf q.num.natAbs q.den = point at hmost ⊢
  -- The number itself lies on the last grid that the search comes to.
  have hexact := toRat_exact hq.le hden
  generalize (q * powerOfTen places).floor.toNat = m at hexact ⊢
  have hleast : (10 : ℚ) ^ (-places : ℤ) ≤ q := by
    rw [← hexact, ← toRat_one, toRat_le_toRat_iff, Nat.one_le_iff_ne_zero]
    rintro rfl
    rw [toRat_mk, Nat.cast_zero, zero_mul] at hexact
    exact hq.ne hexact
  have hpoint := (zpow_lt_zpow_iff_right₀ (by norm_num)).mp (lt_of_le_of_lt hleast hmost)
  obtain ⟨j, hj⟩ := Int.eq_ofNat_of_zero_le (show 0 ≤ point + places by omega)
  have hlast : reads ⟨m, point - j⟩ = true := by
    rw [show point - j = -(places : ℤ) by omega]
    exact hreads.exact _ hexact
  have hfound : search q reads point 1 (point + places).toNat ≠ none :=
    search_ne_none hq.le hreads hlast (by omega) (by omega)
  split
  · rename_i y hy
    obtain ⟨k, hk, hnearest, hearlier⟩ := isNearestOn_of_search hq.le hreads hy
    exact ⟨k, y, ⟨hk, hnearest, hearlier⟩, rfl⟩
  · rename_i hnone
    exact absurd hnone hfound

end Search

section Found

variable {q : ℚ} {reads : Decimal → Bool} {point : ℤ} {k : ℕ} {y : Decimal}

theorem IsFound.toRat_eq (h : IsFound q reads point k y) {m : ℕ} (hm : m = y.coefficient) :
    (⟨m, point - k⟩ : Decimal).toRat = y.toRat := by
  rw [hm, ← h.nearest.exponent]

theorem IsFound.count_le (h : IsFound q reads point k y) {j m : ℕ} (hj : 1 ≤ j)
    (hm : reads ⟨m, point - j⟩ = true) : k ≤ j := by
  by_contra hlt
  rw [h.earlier j hj (not_le.mp hlt) m] at hm
  cases hm

theorem IsFound.coefficient_pos (h : IsFound q reads point k y) (hq : 0 < q)
    (hleast : (10 : ℚ) ^ (point - 1) ≤ q) : y.coefficient ≠ 0 := by
  have hfiner : (⟨1, point - k⟩ : Decimal).toRat ≤ 10 ^ (point - 1) := by
    rw [toRat_one]
    exact (zpow_le_zpow_iff_right₀ (by norm_num)).mpr (by have := h.count_pos; omega)
  have hless := lt_of_le_of_lt (hfiner.trans hleast) (lt_toRat_above hq.le (point - k))
  rw [toRat_lt_toRat_iff] at hless
  have hbelow := h.nearest.below_le
  omega

/-- A power of ten on the grid of some count of digits. -/
theorem toRat_tenPow (k : ℕ) (point : ℤ) : (⟨10 ^ k, point - k⟩ : Decimal).toRat = 10 ^ point := by
  rw [toRat_mk, Nat.cast_pow, Nat.cast_ofNat, ← zpow_natCast, ← zpow_add₀ (by norm_num),
    add_sub_cancel]

theorem IsFound.coefficient_le (h : IsFound q reads point k y) (hq : 0 < q)
    (hmost : q < 10 ^ point) : y.coefficient ≤ 10 ^ k := by
  have hless := lt_of_le_of_lt (toRat_below_le hq.le (point - k)) hmost
  rw [← toRat_tenPow k, toRat_lt_toRat_iff] at hless
  have habove := h.nearest.le_above
  omega

/-- If the next power of ten is taken, then already on the first grid. -/
theorem IsFound.count_eq_one (h : IsFound q reads point k y)
    (hreads : ReadsAround q fun d ↦ reads d = true) (hy : y.coefficient = 10 ^ k) : k = 1 := by
  refine le_antisymm (h.count_le le_rfl (m := 10 ^ 1) ?_) h.count_pos
  refine hreads.congr h.nearest.readsBack ?_
  rw [toRat_tenPow, ← h.toRat_eq hy.symm, toRat_tenPow]

/-- What is left without the zeros at the end has no more digits than the grid. -/
theorem IsFound.digitCount_stripZeros_le (h : IsFound q reads point k y)
    (hreads : ReadsAround q fun d ↦ reads d = true) (hle : y.coefficient ≤ 10 ^ k) :
    digitCount (stripZeros (digitCount y.coefficient) y).coefficient ≤ k := by
  rcases hle.lt_or_eq with hless | hpower
  · exact (digitCount_mono (stripZeros_le _ y)).trans ((digitCount_le_iff h.count_pos).mpr hless)
  · have hone := h.count_eq_one hreads hpower
    subst hone
    have hy : y = ⟨10, y.exponent⟩ := by
      rw [← show y.coefficient = 10 from hpower]
    have hsingle : digitCount 1 = 1 := rfl
    rw [hy, stripZeros_ten]
    exact hsingle.le

/-- As near as ten and below it is nine, if the number is halfway between the two, or eight, if the
number is nine. -/
theorem half_or_nine {m : ℕ} {e : ℤ} (hgap : gap q e m = gap q e 10) (hm : m ≤ 9)
    (hleast : (⟨9, e⟩ : Decimal).toRat ≤ q) (hmost : q ≤ (⟨10, e⟩ : Decimal).toRat) :
    m = 9 ∧ q = 19 / 2 * 10 ^ e ∨ q = (⟨9, e⟩ : Decimal).toRat := by
  have hpower : (0 : ℚ) < 10 ^ e := zpow_pos (by norm_num) _
  rw [gap_of_le ((toRat_le_toRat_iff.mpr hm).trans hleast), gap_of_ge hmost] at hgap
  rw [toRat_mk, Nat.cast_ofNat] at hleast
  rw [toRat_mk, toRat_mk, Nat.cast_ofNat] at hgap
  have hmiddle : 2 * q = (m + 10) * 10 ^ e := by linarith
  have hscaled : (18 : ℚ) ≤ m + 10 := by
    refine le_of_mul_le_mul_right ?_ hpower
    linarith
  have height : 8 ≤ m := by
    have hcast : (8 : ℚ) ≤ m := by linarith
    exact_mod_cast hcast
  obtain rfl | rfl : m = 8 ∨ m = 9 := by omega
  · right
    rw [toRat_mk]
    push_cast at hmiddle ⊢
    linarith
  · left
    push_cast at hmiddle
    exact ⟨rfl, by linarith⟩

/-- Where ten is taken on the first grid, nothing else is as near, unless nine is. -/
theorem IsFound.not_tied (h : IsFound q reads point 1 y)
    (hreads : ReadsAround q fun d ↦ reads d = true) (hq : 0 < q) (hmost : q < 10 ^ point)
    (hten : y.coefficient = 10)
    (hnine : q = 19 / 2 * 10 ^ (point - 1) → reads ⟨9, point - 1⟩ = false) {m : ℕ}
    (hm : reads ⟨m, point - 1⟩ = true) (hne : m ≠ 10) :
    gap q (point - 1) m ≠ gap q (point - 1) 10 := by
  intro hgap
  have htop : (⟨10, point - 1⟩ : Decimal).toRat = 10 ^ point := toRat_tenPow 1 point
  have hless : q < (⟨10, point - 1⟩ : Decimal).toRat := hmost.trans_eq htop.symm
  have hbelow : 9 ≤ below q (point - 1) := by
    have habove := h.nearest.le_above
    rw [hten] at habove
    exact Nat.le_of_succ_le_succ habove
  have hleast : (⟨9, point - 1⟩ : Decimal).toRat ≤ q :=
    (toRat_le_toRat_iff.mpr hbelow).trans (toRat_below_le hq.le _)
  rcases lt_or_gt_of_ne hne with hbefore | hafter
  · rcases half_or_nine hgap (Nat.le_of_lt_succ hbefore) hleast hless.le with
      ⟨rfl, hhalf⟩ | hexact
    · rw [hnine hhalf] at hm
      cases hm
    · -- Nine would be nearer than ten.
      have hnear := h.nearest.near 9 (hreads.exact _ hexact.symm)
      rw [hten, Nat.cast_one, gap_of_ge hless.le, gap_of_le hleast] at hnear
      linarith
  · have hfarther := (toRat_lt_toRat_iff (e := point - 1)).mpr hafter
    rw [gap_of_ge (hless.le.trans hfarther.le), gap_of_ge hless.le] at hgap
    linarith

/-- On its grid, what is found is nearer than all others, or it is even and has no zero at its end
to lose. -/
theorem IsFound.near_or_even (h : IsFound q reads point k y)
    (hreads : ReadsAround q fun d ↦ reads d = true) (hq : 0 < q) (hmost : q < 10 ^ point)
    (hnine : q = 19 / 2 * 10 ^ (point - 1) → reads ⟨9, point - 1⟩ = false) {m : ℕ}
    (hm : reads ⟨m, point - k⟩ = true) (hne : m ≠ y.coefficient) :
    gap q (point - k) y.coefficient < gap q (point - k) m ∨
      gap q (point - k) y.coefficient = gap q (point - k) m ∧ y.coefficient % 2 = 0 ∧
        y.coefficient < 10 ^ k := by
  refine (h.nearest.near m hm).lt_or_eq.imp_right fun heq ↦ ?_
  refine ⟨heq, h.nearest.even m hm hne heq.symm, ?_⟩
  refine lt_of_le_of_ne (h.coefficient_le hq hmost) fun hpower ↦ ?_
  have hone := h.count_eq_one hreads hpower
  subst hone
  rw [hpower] at heq hne
  exact h.not_tied hreads hq hmost hpower hnine hm hne heq.symm

variable {c d : Decimal}

/-- The decimal that is found comes before those below the power of ten that is below the number:
such a decimal reads back only if that power does. -/
theorem IsFound.precedes_of_lt (h : IsFound q reads point k y)
    (hreads : ReadsAround q fun d ↦ reads d = true) (hleast : (10 : ℚ) ^ (point - 1) ≤ q)
    (hvalue : d.toRat = y.toRat) (hcount : digitCount d.coefficient ≤ k) (hc : reads c = true)
    (hless : c.toRat < 10 ^ (point - 1)) : Precedes q d c := by
  have hpower : reads ⟨1, point - 1⟩ = true :=
    hreads.below c _ hc (by rw [toRat_one]; exact hless.le) (by rw [toRat_one]; exact hleast)
  have hone : k = 1 := le_antisymm (h.count_le le_rfl hpower) h.count_pos
  subst hone
  have hnearer : |d.toRat - q| < |c.toRat - q| := by
    calc |d.toRat - q| = gap q (point - 1) y.coefficient := by
          rw [hvalue, ← h.toRat_eq rfl]
          rfl
      _ ≤ gap q (point - 1) 1 := h.nearest.near 1 hpower
      _ = q - 10 ^ (point - 1) := by rw [gap_of_le ((toRat_one _).trans_le hleast), toRat_one]
      _ < q - c.toRat := sub_lt_sub_left hless q
      _ = |c.toRat - q| := by rw [abs_sub_comm, abs_of_pos (sub_pos.mpr (hless.trans_le hleast))]
  rcases (hcount.trans (digitCount_pos c.coefficient)).lt_or_eq with hfewer | hsame
  · exact Or.inl hfewer
  · exact Or.inr ⟨hsame, Or.inl hnearer⟩

/-- It comes before the others too, since these lie on the grid of their count of digits. -/
theorem IsFound.precedes_of_le (h : IsFound q reads point k y)
    (hreads : ReadsAround q fun d ↦ reads d = true) (hq : 0 < q) (hmost : q < 10 ^ point)
    (hnine : q = 19 / 2 * 10 ^ (point - 1) → reads ⟨9, point - 1⟩ = false)
    (hd : d.coefficient ≠ 0) (hle : d.coefficient ≤ y.coefficient) (hvalue : d.toRat = y.toRat)
    (hcount : digitCount d.coefficient ≤ k) (hc : c.coefficient ≠ 0) (hcreads : reads c = true)
    (hne : c ≠ d) (hleast : (10 : ℚ) ^ (point - 1) ≤ c.toRat) : Precedes q d c := by
  have hpoint : point - digitCount c.coefficient ≤ c.exponent := by
    have hpowers := lt_of_le_of_lt hleast (toRat_bounds hc).2
    rw [zpow_lt_zpow_iff_right₀ (by norm_num)] at hpowers
    omega
  obtain ⟨m, hm⟩ := exists_onGrid hpoint
  have hmreads : reads ⟨m, point - digitCount c.coefficient⟩ = true := hreads.congr hcreads hm
  have hk := h.count_le (digitCount_pos c.coefficient) hmreads
  rcases (hcount.trans hk).lt_or_eq with hfewer | hsame
  · exact Or.inl hfewer
  · refine Or.inr ⟨hsame, ?_⟩
    obtain rfl : k = digitCount c.coefficient := by omega
    have hgapd : |d.toRat - q| = gap q (point - digitCount c.coefficient) y.coefficient := by
      rw [hvalue, ← h.toRat_eq rfl]
      rfl
    have hgapc : |c.toRat - q| = gap q (point - digitCount c.coefficient) m := by
      rw [← hm]
      rfl
    have hother : m ≠ y.coefficient := by
      intro hmy
      refine hne (eq_of_toRat_eq hc hd hsame.symm ?_)
      rw [← hm, h.toRat_eq hmy, hvalue]
    rw [hgapd, hgapc]
    rcases h.near_or_even hreads hq hmost hnine hmreads hother with hnearer | ⟨heq, heven, hless⟩
    · exact Or.inl hnearer
    · -- Nothing was stripped, as the count of digits would be less.
      have hycount := (digitCount_le_iff h.count_pos).mpr hless
      have hdcount := digitCount_mono hle
      have hy : d = y := eq_of_toRat_eq hd (by omega) (by omega) hvalue
      exact Or.inr ⟨heq, hy ▸ heven⟩

/-- The decimal that is found, without the zeros at its end, comes before all others, unless nine
and ten tie. -/
theorem IsFound.isShortest (h : IsFound q reads point k y)
    (hreads : ReadsAround q fun d ↦ reads d = true) (hq : 0 < q)
    (hleast : (10 : ℚ) ^ (point - 1) ≤ q) (hmost : q < 10 ^ point)
    (hnine : q = 19 / 2 * 10 ^ (point - 1) → reads ⟨9, point - 1⟩ = false) :
    IsShortest q (fun d ↦ reads d = true) (stripZeros (digitCount y.coefficient) y) := by
  have hvalue := toRat_stripZeros (digitCount y.coefficient) y
  have hcount := h.digitCount_stripZeros_le hreads (h.coefficient_le hq hmost)
  have hle := stripZeros_le (digitCount y.coefficient) y
  have hpositive : 0 < y.toRat := by
    rw [toRat, powerOfTen_eq]
    exact mul_pos (Nat.cast_pos.mpr (Nat.pos_of_ne_zero (h.coefficient_pos hq hleast)))
      (zpow_pos (by norm_num) _)
  generalize stripZeros (digitCount y.coefficient) y = d at hvalue hcount hle ⊢
  have hd : d.coefficient ≠ 0 := by
    intro hzero
    rw [← hvalue, toRat, hzero, Nat.cast_zero, zero_mul] at hpositive
    exact lt_irrefl _ hpositive
  refine ⟨hd, hreads.congr h.nearest.readsBack hvalue, fun c hc hcreads hne ↦ ?_⟩
  rcases lt_or_ge c.toRat (10 ^ (point - 1)) with hless | hge
  · exact h.precedes_of_lt hreads hleast hvalue hcount hcreads hless
  · exact h.precedes_of_le hreads hq hmost hnine hd hle hvalue hcount hc hcreads hne hge

end Found

/-- The shortest decimal comes before all others that read back, if nine and ten do not tie. -/
theorem isShortest_shortest {q : ℚ} {reads : Decimal → Bool} (hq : 0 < q) {places : ℕ}
    (hden : q.den = 2 ^ places) (hreads : ReadsAround q fun d ↦ reads d = true)
    (hnine : ∀ e : ℤ, q = 19 / 2 * 10 ^ e → reads ⟨9, e⟩ = false) :
    IsShortest q (fun d ↦ reads d = true) (shortest q reads) := by
  obtain ⟨hleast, hmost⟩ := pointOf_bounds_of_pos hq
  obtain ⟨k, y, hfound, hshortest⟩ := exists_isFound hq hden hreads
  rw [hshortest]
  exact hfound.isShortest hreads hq hleast hmost (hnine _)

end Decimal

end Motion
