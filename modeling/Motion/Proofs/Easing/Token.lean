import Motion.Easing.Token
import Mathlib.Data.List.TakeWhile

/-!
The names and tokens of easings. Each number has a name of its own and each name a token, which
stands for it. Where tokens are found in a text: at each reference mark that a token begins with,
and nowhere else.
-/

set_option autoImplicit false
set_option relaxedAutoImplicit false

namespace Motion

/-- The characters of the token of the easing with a number. -/
def tokenChars (index : Nat) : List Char :=
  tokenStem ++ Nat.toDigits 10 index

theorem toList_token (index : Nat) : (tokenOf (easeName index)).toList = tokenChars index := by
  simp [tokenOf, easeName, tokenChars, tokenStem, String.toList_ofList]

theorem ofList_tokenChars (index : Nat) :
    String.ofList (tokenChars index) = tokenOf (easeName index) := by
  rw [← toList_token, String.ofList_toList]

/-- Behind one stem each number makes a name of its own. -/
theorem numbered_injective (stem : List Char) :
    Function.Injective fun n ↦ String.ofList (stem ++ Nat.toDigits 10 n) := by
  intro m n h
  have hdigits : Nat.toDigits 10 m = Nat.toDigits 10 n :=
    List.append_cancel_left (String.ofList_injective h)
  have hm : Nat.ofDigitChars 10 (Nat.toDigits 10 m) 0 = m := Nat.ofDigitChars_ten_toDigits
  rw [← hm, hdigits, Nat.ofDigitChars_ten_toDigits]

theorem easeName_injective : Function.Injective easeName :=
  numbered_injective easeStem

theorem tokenOf_injective : Function.Injective tokenOf := by
  intro name other h
  exact String.toList_injective (List.cons.inj (String.ofList_injective h)).2

theorem nameOf_easeName (n : ℕ) : nameOf (easeName n) = easeName n := by
  rw [nameOf, easeName, String.toList_ofList]
  rfl

theorem nameOf_tokenOf (name : String) : nameOf (tokenOf name) = nameOf name := by
  rw [nameOf, tokenOf, String.toList_ofList, List.dropWhile_cons_of_pos rfl, nameOf]

theorem leadingToken?_without_stem {s : List Char} (h : ¬ tokenStem <+: s) :
    leadingToken? s = none := by
  rw [← List.isPrefixOf_iff_prefix, Bool.not_eq_true] at h
  simp [leadingToken?, h]

/-- A token is its stem and all the digits that follow, if there are any. -/
theorem leadingToken?_stem (rest : List Char) : leadingToken? (tokenStem ++ rest) =
    if (rest.takeWhile Text.isDigit).isEmpty then none
    else some (tokenStem ++ rest.takeWhile Text.isDigit) := by
  have htest : tokenStem.isPrefixOf (tokenStem ++ rest) = true :=
    List.isPrefixOf_iff_prefix.mpr (List.prefix_append _ _)
  unfold leadingToken?
  dsimp only
  rw [htest, List.drop_left]
  cases (rest.takeWhile Text.isDigit).isEmpty <;> rfl

theorem leadingToken?_eq_none {c : Char} (h : c ≠ referenceMark) (rest : List Char) :
    leadingToken? (c :: rest) = none := by
  refine leadingToken?_without_stem ?_
  rintro ⟨tail, htail⟩
  exact h (List.cons.inj htail).1.symm

/-- A text without reference marks has no tokens. -/
theorem tokensIn_append {s : List Char} (h : referenceMark ∉ s) (t : List Char) :
    tokensIn (s ++ t) = tokensIn t := by
  induction s with
  | nil => rfl
  | cons c rest ih =>
    rw [List.mem_cons, not_or] at h
    rw [List.cons_append, tokensIn, leadingToken?_eq_none (Ne.symm h.1)]
    exact ih h.2

theorem isDigit_of_isDecimal {c : Char} (h : c.isDigit = true) : Text.isDigit c = true := by
  have hrange : 48 ≤ c.toNat ∧ c.toNat < 58 := by
    have hcode : 48 ≤ c.val.toNat ∧ c.val.toNat ≤ 57 := by
      simpa [Char.isDigit, UInt32.le_iff_toNat_le] using h
    exact ⟨hcode.1, Nat.lt_succ_of_le hcode.2⟩
  simp [Text.isDigit, Text.digitValue?, Text.zeros, hrange]

/-- A token that is not followed by a digit is found whole. -/
theorem leadingToken?_tokenChars (index : Nat) {rest : List Char}
    (h : rest.head?.any Text.isDigit = false) :
    leadingToken? (tokenChars index ++ rest) = some (tokenChars index) := by
  have hrest : rest.takeWhile Text.isDigit = [] := by
    cases rest with
    | nil => rfl
    | cons c rest =>
      have hc : Text.isDigit c = false := h
      exact List.takeWhile_cons_of_neg (by simp [hc])
  have hdigits : (Nat.toDigits 10 index ++ rest).takeWhile Text.isDigit = Nat.toDigits 10 index := by
    rw [List.takeWhile_append_of_pos, hrest, List.append_nil]
    exact fun c hc ↦ isDigit_of_isDecimal (Nat.isDigit_of_mem_toDigits (by decide) (by decide) hc)
  have hne : ¬ (Nat.toDigits 10 index).isEmpty = true := by
    rw [List.isEmpty_iff]
    exact Nat.toDigits_ne_nil
  rw [tokenChars, List.append_assoc, leadingToken?_stem, hdigits, if_neg hne]

theorem tokensIn_tokenChars (index : Nat) {rest : List Char}
    (h : rest.head?.any Text.isDigit = false) :
    tokensIn (tokenChars index ++ rest) = tokenOf (easeName index) :: tokensIn rest := by
  have hsplit : tokenChars index = referenceMark :: (easeStem ++ Nat.toDigits 10 index) := rfl
  have htail : referenceMark ∉ easeStem ++ Nat.toDigits 10 index := by
    rw [List.mem_append, not_or]
    refine ⟨by decide, fun hmem ↦ ?_⟩
    have hdigit := Nat.isDigit_of_mem_toDigits (by decide) (by decide) hmem
    revert hdigit
    decide
  have hleading := leadingToken?_tokenChars index h
  rw [hsplit, List.cons_append] at hleading ⊢
  rw [tokensIn, hleading, tokensIn_append htail, ← hsplit, ← ofList_tokenChars]

/-- What is found in a part of a text is found in the text. -/
theorem mem_tokensIn_append {token : String} {t : List Char} (h : token ∈ tokensIn t)
    (s : List Char) : token ∈ tokensIn (s ++ t) := by
  induction s with
  | nil => exact h
  | cons c rest ih =>
    rw [List.cons_append, tokensIn]
    split
    · exact List.mem_cons_of_mem _ ih
    · exact ih

end Motion
