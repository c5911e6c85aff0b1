import Motion.Number.Text
import Mathlib.Data.Rat.Lemmas

/-!
The characters in the texts of numbers, and what normalizing keeps of a number.
-/

set_option autoImplicit false
set_option relaxedAutoImplicit false

namespace Motion

/-- The characters in the texts of numbers. -/
def isNumberCharacter (c : Char) : Bool :=
  c.isAlphanum || "+-.".toList.contains c

theorem isNumberCharacter_of_isDigit {c : Char} (h : c.isDigit = true) :
    isNumberCharacter c = true := by
  simp [isNumberCharacter, Char.isAlphanum, h]

theorem isNumberCharacter_of_mem_digitsOf (n : Nat) :
    ∀ c ∈ Decimal.digitsOf n, isNumberCharacter c = true := fun _ hc ↦
  isNumberCharacter_of_isDigit (Nat.isDigit_of_mem_toDigits (by decide) (by decide) hc)

theorem digitsOf_ne_nil (n : Nat) : Decimal.digitsOf n ≠ [] :=
  Nat.toDigits_ne_nil

namespace Layout

theorem isNumberCharacter_of_mem_zeros (n : Nat) :
    ∀ c ∈ List.replicate n '0', isNumberCharacter c = true := by
  intro c hc
  rw [List.eq_of_mem_replicate hc]
  decide

theorem isNumberCharacter_of_mem_padded (width n : Nat) :
    ∀ c ∈ padded width n, isNumberCharacter c = true :=
  List.forall_mem_append.mpr
    ⟨isNumberCharacter_of_mem_zeros _, isNumberCharacter_of_mem_digitsOf n⟩

/-- A magnitude is written in characters of numbers if its digits and the suffix of whole numbers
are. -/
theorem isNumberCharacter_of_mem_magnitude {layout : Layout} {digits : List Char} (point : Int)
    (hdigits : ∀ c ∈ digits, isNumberCharacter c = true)
    (hsuffix : ∀ c ∈ layout.wholeSuffix, isNumberCharacter c = true) :
    ∀ c ∈ layout.magnitude digits point, isNumberCharacter c = true := by
  have hzero : isNumberCharacter '0' = true := by decide
  have hpoint : isNumberCharacter '.' = true := by decide
  unfold magnitude
  dsimp only
  split_ifs
  · exact List.forall_mem_append.mpr ⟨List.forall_mem_append.mpr
      ⟨hdigits, isNumberCharacter_of_mem_zeros _⟩, hsuffix⟩
  · exact List.forall_mem_append.mpr ⟨fun c hc ↦ hdigits c (List.mem_of_mem_take hc),
      List.forall_mem_cons.mpr ⟨hpoint, fun c hc ↦ hdigits c (List.mem_of_mem_drop hc)⟩⟩
  · exact List.forall_mem_append.mpr ⟨List.forall_mem_cons.mpr ⟨hzero, List.forall_mem_cons.mpr
      ⟨hpoint, isNumberCharacter_of_mem_zeros _⟩⟩, hdigits⟩
  all_goals
    refine List.forall_mem_append.mpr ⟨?_, List.forall_mem_cons.mpr ⟨by decide,
      List.forall_mem_cons.mpr ⟨by decide, isNumberCharacter_of_mem_padded _ _⟩⟩⟩
    split
    · exact List.forall_mem_nil _
    · exact hdigits
    · obtain ⟨hfirst, hrest⟩ := List.forall_mem_cons.mp hdigits
      exact List.forall_mem_cons.mpr ⟨hfirst, List.forall_mem_cons.mpr ⟨hpoint, hrest⟩⟩

theorem isNumberCharacter_of_mem_render (x : Binary64) :
    ∀ c ∈ expression.render x, isNumberCharacter c = true := by
  have hbody (body : List Char) (h : ∀ c ∈ body, isNumberCharacter c = true) :
      ∀ c ∈ (if x.isNegative then '-' :: body else body), isNumberCharacter c = true := by
    split_ifs
    · exact List.forall_mem_cons.mpr ⟨by decide, h⟩
    · exact h
  unfold render
  refine hbody _ ?_
  cases x with
  | nan => exact List.all_eq_true.mp (by decide : "NaN".toList.all isNumberCharacter = true)
  | infinite negative =>
    exact List.all_eq_true.mp (by decide : "Infinity".toList.all isNumberCharacter = true)
  | finite negative exponent fraction =>
    exact isNumberCharacter_of_mem_magnitude _ (isNumberCharacter_of_mem_digitsOf _)
      (List.forall_mem_nil _)

theorem magnitude_ne_nil (layout : Layout) {digits : List Char} (hdigits : digits ≠ [])
    (point : Int) : layout.magnitude digits point ≠ [] := by
  unfold magnitude
  dsimp only
  split_ifs <;> simp [hdigits]

theorem render_ne_nil (x : Binary64) : expression.render x ≠ [] := by
  unfold render
  split_ifs
  · exact List.cons_ne_nil _ _
  · cases x with
    | nan => exact (by decide : "NaN".toList ≠ [])
    | infinite negative => exact (by decide : "Infinity".toList ≠ [])
    | finite negative exponent fraction => exact magnitude_ne_nil _ (digitsOf_ne_nil _) _

end Layout

namespace Number

theorem isNumberCharacter_of_mem_textChars (n : Number) :
    ∀ c ∈ n.textChars, isNumberCharacter c = true := by
  unfold textChars
  cases n.normalize with
  | int i =>
    cases i with
    | ofNat n => exact isNumberCharacter_of_mem_digitsOf n
    | negSucc n => exact List.forall_mem_cons.mpr ⟨by decide, isNumberCharacter_of_mem_digitsOf _⟩
  | float x => exact Layout.isNumberCharacter_of_mem_render x

/-- Every number has a text. -/
theorem textChars_ne_nil (n : Number) : n.textChars ≠ [] := by
  unfold textChars
  cases n.normalize with
  | int i =>
    cases i with
    | ofNat n => exact digitsOf_ne_nil n
    | negSucc n => exact List.cons_ne_nil _ _
  | float x => exact Layout.render_ne_nil x

theorem normalize_float (x : Binary64) :
    (Number.float x).normalize = .float x ∨ ∃ i, (Number.float x).normalize = .int i := by
  unfold normalize
  dsimp only
  split
  · split_ifs
    · exact Or.inr ⟨_, rfl⟩
    · exact Or.inl rfl
  · exact Or.inl rfl

/-- A number that is normalized already stays as it is. -/
theorem normalize_normalize (n : Number) : n.normalize.normalize = n.normalize := by
  cases n with
  | int i => rfl
  | float x =>
    rcases normalize_float x with h | ⟨i, h⟩
    · rw [h, h]
    · rw [h]
      rfl

theorem isNaN_normalize {n : Number} (h : n.isNaN = false) : n.normalize.isNaN = false := by
  cases n with
  | int i => rfl
  | float x =>
    rcases normalize_float x with hx | ⟨i, hx⟩
    · rw [hx, h]
    · rw [hx]
      rfl

theorem compare?_of_toRat? {x y : Number} {p q : Rat} (hx : x.toRat? = some p)
    (hy : y.toRat? = some q) : x.compare? y = some (compareRat p q) := by
  unfold compare?
  simp only [hx, hy]

theorem compareRat_eq_iff {p q : Rat} : compareRat p q = .eq ↔ p = q := by
  unfold compareRat
  split_ifs with hless hmore
  · exact iff_of_false (by decide) fun h ↦ Rat.lt_irrefl (h ▸ hless)
  · exact iff_of_false (by decide) fun h ↦ Rat.lt_irrefl (h ▸ hmore)
  · exact iff_of_true rfl (Rat.le_antisymm (Rat.not_lt.mp hmore) (Rat.not_lt.mp hless))

theorem compareRat_self (q : Rat) : compareRat q q = .eq :=
  compareRat_eq_iff.mpr rfl

/-- A number equals an integer if it has that value. -/
theorem same_iff {n : Number} {i : Int} : n.same (.int i) = true ↔ n.toRat? = some (i : Rat) := by
  cases hn : n.toRat? with
  | none =>
    have hcompare : n.compare? (.int i) ≠ some .eq := by
      unfold compare?
      rw [hn]
      dsimp only [toRat?]
      split
      · split_ifs <;> decide
      · decide
    simp [same, hcompare]
  | some q =>
    rw [same, compare?_of_toRat? hn rfl, beq_iff_eq, Option.some.injEq, compareRat_eq_iff,
      Option.some.injEq]

/-- Finite numbers are the same if they have one value. -/
theorem same_float_iff {x y : Binary64} (hx : x.isFinite = true) (hy : y.isFinite = true) :
    (Number.float x).same (.float y) = true ↔ x.toRat = y.toRat := by
  have hvalue {z : Binary64} (hz : z.isFinite = true) : (float z).toRat? = some z.toRat :=
    if_pos hz
  rw [same, compare?_of_toRat? (hvalue hx) (hvalue hy), beq_iff_eq, Option.some.injEq,
    compareRat_eq_iff]

theorem same_int {i j : Int} : (Number.int i).same (.int j) = true ↔ i = j := by
  rw [same_iff, toRat?, Option.some.injEq]
  exact Rat.intCast_inj

theorem same_self {n : Number} (h : n.isNaN = false) : n.same n = true := by
  cases n with
  | int i => simp [same, compare?, toRat?, compareRat_self]
  | float x =>
    cases x with
    | nan => cases h
    | infinite negative => simp [same, compare?, toRat?, Binary64.isFinite]
    | finite negative exponent fraction =>
      simp [same, compare?, toRat?, Binary64.isFinite, compareRat_self]

theorem toRat?_of_toInt? {x : Binary64} {i : Int} (h : x.toInt? = some i) :
    (Number.float x).toRat? = some (i : Rat) := by
  unfold Binary64.toInt? at h
  split_ifs at h with hwhole
  cases h
  rw [Bool.and_eq_true, beq_iff_eq] at hwhole
  rw [toRat?, if_pos hwhole.1, Rat.coe_int_num_of_den_eq_one hwhole.2]

/-- Normalizing keeps the value. -/
theorem same_normalize {n : Number} (h : n.isNaN = false) : n.normalize.same n = true := by
  cases n with
  | int i => exact same_self h
  | float x =>
    unfold normalize
    dsimp only
    split
    · rename_i i hi
      split_ifs
      · rw [same, compare?_of_toRat? rfl (toRat?_of_toInt? hi), compareRat_self]
        rfl
      · exact same_self h
    · exact same_self h

end Number

end Motion
