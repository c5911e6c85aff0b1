import Motion.Proofs.Number.RoundTrip

/-!
Rounding respects the order. A larger quotient is rounded to a whole number that is not smaller, and
so is the word of the fields of the binary64 number nearest to it (`Binary64.word_le_word`). So what
lies between two magnitudes that are rounded to one finite number is rounded to that number too
(`Binary64.ofRat_between`).
-/

set_option autoImplicit false
set_option relaxedAutoImplicit false

namespace Motion

theorem roundHalfEven_le_roundHalfEven {a b d : ℕ} (h : a ≤ b) :
    roundHalfEven a d ≤ roundHalfEven b d := by
  have hquotient : a / d ≤ b / d := Nat.div_le_div_right h
  have hremainder (hsame : a / d = b / d) : a % d ≤ b % d := by
    have ha := Nat.div_add_mod a d
    have hb := Nat.div_add_mod b d
    rw [hsame] at ha
    omega
  unfold roundHalfEven
  dsimp only
  split_ifs <;> omega

/-- The same for quotients with different denominators. -/
theorem roundHalfEven_mono {n d n' d' : ℕ} (hd : 0 < d) (hd' : 0 < d') (h : n * d' ≤ n' * d) :
    roundHalfEven n d ≤ roundHalfEven n' d' := by
  calc roundHalfEven n d = roundHalfEven (n * d') (d * d') := (roundHalfEven_mul_mul hd' n d).symm
    _ ≤ roundHalfEven (n' * d) (d * d') := roundHalfEven_le_roundHalfEven h
    _ = roundHalfEven (n' * d) (d' * d) := by rw [Nat.mul_comm d d']
    _ = roundHalfEven n' d' := roundHalfEven_mul_mul hd n' d'

namespace Binary64

/-- How many binary digits a significand of `n / d` units is moved by. -/
def shift (n d : ℕ) : ℕ :=
  Nat.log2 (n / d) - 52

/-- The word whose fields are those of the binary64 number nearest to `n / d` units. -/
def word (n d : ℕ) : ℕ :=
  shift n d * fractionCount + roundHalfEven n (d * 2 ^ shift n d)

theorem ofUnits_eq (negative : Bool) (n d : ℕ) : ofUnits negative n d =
    if h : word n d / fractionCount < 2047 then
      .finite negative ⟨word n d / fractionCount, h⟩
        ⟨word n d % fractionCount, Nat.mod_lt (word n d) (Nat.zero_lt_succ _)⟩
    else .infinite negative :=
  rfl

/-- The word of a finite number is the one of its fields. -/
theorem word_eq_of_ofUnits {s t : Bool} {n d : ℕ} {exponent : Fin 2047}
    {fraction : Fin fractionCount} (h : ofUnits s n d = finite t exponent fraction) :
    word n d = fractionCount * exponent.val + fraction.val := by
  rw [ofUnits_eq] at h
  split_ifs at h with hfits
  obtain ⟨-, hexponent, hfraction⟩ := finite.inj h
  rw [← hexponent, ← hfraction]
  exact (Nat.div_add_mod (word n d) fractionCount).symm

theorem ofUnits_congr_word {s : Bool} {n d n' d' : ℕ} (h : word n d = word n' d') :
    ofUnits s n d = ofUnits s n' d' := by
  simp only [ofUnits_eq, h]

section Words

variable {n d n' d' : ℕ}

theorem div_le_div_of_cross (hd : 0 < d) (hd' : 0 < d') (h : n * d' ≤ n' * d) :
    n / d ≤ n' / d' := by
  rw [Nat.le_div_iff_mul_le hd']
  refine Nat.le_of_mul_le_mul_right ?_ hd
  calc n / d * d' * d = n / d * d * d' := Nat.mul_right_comm _ _ _
    _ ≤ n * d' := Nat.mul_le_mul_right d' (Nat.div_mul_le_self n d)
    _ ≤ n' * d := h

theorem shift_mono (hd : 0 < d) (hd' : 0 < d') (h : n * d' ≤ n' * d) :
    shift n d ≤ shift n' d' := by
  unfold shift
  rw [Nat.log2_eq_log_two, Nat.log2_eq_log_two]
  exact Nat.sub_le_sub_right (Nat.log_mono_right (div_le_div_of_cross hd hd' h)) 52

/-- A significand has at most 53 binary digits, or is the next power of two. -/
theorem significand_le (hd : 0 < d) :
    roundHalfEven n (d * 2 ^ shift n d) ≤ 2 * fractionCount := by
  have hpos : 0 < d * 2 ^ shift n d := Nat.mul_pos hd (Nat.two_pow_pos _)
  have hless : n / d < 2 * fractionCount * 2 ^ shift n d := by
    have hdigits : 2 ^ (Nat.log2 (n / d) + 1) ≤ 2 * fractionCount * 2 ^ shift n d := by
      rw [show 2 * fractionCount = 2 ^ 53 from rfl, ← pow_add]
      exact Nat.pow_le_pow_right (by decide) (by unfold shift; omega)
    exact lt_of_lt_of_le Nat.lt_log2_self hdigits
  have hbelow : n ≤ 2 * fractionCount * (d * 2 ^ shift n d) := by
    rw [Nat.div_lt_iff_lt_mul hd] at hless
    rw [Nat.mul_left_comm, Nat.mul_comm d]
    exact hless.le
  calc roundHalfEven n (d * 2 ^ shift n d)
      ≤ roundHalfEven (2 * fractionCount * (d * 2 ^ shift n d)) (d * 2 ^ shift n d) :=
        roundHalfEven_le_roundHalfEven hbelow
    _ = 2 * fractionCount := roundHalfEven_mul hpos _

/-- A significand that is moved has at least 53 binary digits. -/
theorem le_significand (hd : 0 < d) (hshift : 0 < shift n d) :
    fractionCount ≤ roundHalfEven n (d * 2 ^ shift n d) := by
  have hpos : 0 < d * 2 ^ shift n d := Nat.mul_pos hd (Nat.two_pow_pos _)
  have hnonzero : n / d ≠ 0 := by
    intro hzero
    rw [shift, hzero] at hshift
    exact absurd hshift (by decide)
  have hleast : fractionCount * 2 ^ shift n d ≤ n / d := by
    rw [show fractionCount = 2 ^ 52 from rfl, ← pow_add]
    refine le_trans (Nat.pow_le_pow_right (by decide) ?_) (Nat.log2_self_le hnonzero)
    unfold shift at hshift ⊢
    omega
  have habove : fractionCount * (d * 2 ^ shift n d) ≤ n := by
    rw [Nat.le_div_iff_mul_le hd] at hleast
    rw [Nat.mul_left_comm, Nat.mul_comm d]
    exact hleast
  calc fractionCount = roundHalfEven (fractionCount * (d * 2 ^ shift n d)) (d * 2 ^ shift n d) :=
        (roundHalfEven_mul hpos _).symm
    _ ≤ roundHalfEven n (d * 2 ^ shift n d) := roundHalfEven_le_roundHalfEven habove

/-- The words of numbers are in the order of the numbers. -/
theorem word_le_word (hd : 0 < d) (hd' : 0 < d') (h : n * d' ≤ n' * d) :
    word n d ≤ word n' d' := by
  unfold word
  rcases (shift_mono hd hd' h).eq_or_lt with hsame | hless
  · rw [← hsame]
    refine Nat.add_le_add_left (roundHalfEven_mono (Nat.mul_pos hd (Nat.two_pow_pos _))
      (Nat.mul_pos hd' (Nat.two_pow_pos _)) ?_) _
    rw [← Nat.mul_assoc, ← Nat.mul_assoc]
    exact Nat.mul_le_mul_right _ h
  · -- The greatest significand of a shift makes the word with the least one of the next shift.
    calc shift n d * fractionCount + roundHalfEven n (d * 2 ^ shift n d)
        ≤ shift n d * fractionCount + 2 * fractionCount :=
          Nat.add_le_add_left (significand_le hd) _
      _ = (shift n d + 1) * fractionCount + fractionCount := by ring
      _ ≤ shift n' d' * fractionCount + fractionCount :=
          Nat.add_le_add_right (Nat.mul_le_mul_right _ hless) _
      _ ≤ shift n' d' * fractionCount + roundHalfEven n' (d' * 2 ^ shift n' d') :=
          Nat.add_le_add_left (le_significand hd' (Nat.zero_lt_of_lt hless)) _

end Words

section Between

variable {p q r : ℚ}

/-- The units of magnitudes are in their order. -/
theorem cross_le_cross (hp : 0 ≤ p) (h : p ≤ q) :
    p.num.natAbs * unitsPerOne * q.den ≤ q.num.natAbs * unitsPerOne * p.den := by
  have hcross : p.num * q.den ≤ q.num * p.den := (Rat.le_iff p q).mp h
  have hnatural : p.num.natAbs * q.den ≤ q.num.natAbs * p.den := by
    have hpnum := Int.natAbs_of_nonneg (Rat.num_nonneg.mpr hp)
    have hqnum := Int.natAbs_of_nonneg (Rat.num_nonneg.mpr (hp.trans h))
    rw [← hpnum, ← hqnum] at hcross
    exact_mod_cast hcross
  rw [Nat.mul_right_comm, Nat.mul_right_comm q.num.natAbs]
  exact Nat.mul_le_mul_right _ hnatural

/-- What lies between two magnitudes that are rounded to one finite number is rounded to it too. -/
theorem ofRat_between {x : Binary64} (hfinite : x.isFinite = true) (hp : 0 ≤ p) (hpq : p ≤ q)
    (hqr : q ≤ r) (hfirst : ofRat p = x) (hlast : ofRat r = x) : ofRat q = x := by
  have hq : 0 ≤ q := hp.trans hpq
  rw [ofRat_of_nonneg hp] at hfirst
  rw [ofRat_of_nonneg (hq.trans hqr)] at hlast
  rw [ofRat_of_nonneg hq]
  cases x with
  | finite negative exponent fraction =>
    have hbelow := word_le_word p.den_pos q.den_pos (cross_le_cross hp hpq)
    have habove := word_le_word q.den_pos r.den_pos (cross_le_cross hq hqr)
    have hends := (word_eq_of_ofUnits hlast).trans (word_eq_of_ofUnits hfirst).symm
    exact (ofUnits_congr_word ((habove.trans_eq hends).antisymm hbelow)).trans hfirst
  | _ => cases hfinite

end Between

end Binary64

end Motion
