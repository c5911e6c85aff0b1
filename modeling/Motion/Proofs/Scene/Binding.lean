import Motion.Proofs.Expression.Token
import Motion.Proofs.Number.Numeral
import Motion.Proofs.Number.Text
import Motion.Scene.Binding

/-!
Data bindings and texts of numbers. No simple binding denotes a number, so its kind is decided by
its characters alone, and its bare expression is what stands between its braces.
-/

set_option autoImplicit false
set_option relaxedAutoImplicit false

namespace Motion

namespace Numeral

theorem plain?_dollar (rest : List Char) : plain? ('$' :: rest) = none := by
  have hname (word : String) (hword : word.toList.head? ≠ some '$') :
      String.ofList (('$' :: rest).map Char.toLower) ≠ word := by
    rintro rfl
    rw [String.toList_ofList] at hword
    exact hword rfl
  have hsign : takeSign ('$' :: rest) = (false, '$' :: rest) := rfl
  unfold plain?
  rw [hsign]
  dsimp only
  rw [if_neg (not_or.mpr ⟨hname "inf" (by decide), hname "infinity" (by decide)⟩),
    if_neg (hname "nan" (by decide)), decimal?_eq_none (by decide) (by decide)]
  rfl

theorem dropWhile_concat {p : Char → Bool} {c : Char} (hc : p c = false) (s : List Char) :
    ∃ t, (s ++ [c]).dropWhile p = t ++ [c] := by
  induction s with
  | nil => exact ⟨[], by simp [hc]⟩
  | cons d rest ih =>
    rw [List.cons_append, List.dropWhile_cons]
    split_ifs
    · exact ih
    · exact ⟨d :: rest, rfl⟩

theorem trim_dollar (rest : List Char) : ∃ t, Text.trim ('$' :: rest) = '$' :: t := by
  have hdollar : Text.isBlank '$' = false := by decide
  obtain ⟨t, ht⟩ := dropWhile_concat hdollar rest.reverse
  refine ⟨t.reverse, ?_⟩
  rw [Text.trim, Text.trimBy, List.dropWhile_cons_of_neg (by simp [hdollar]), List.reverse_cons, ht,
    List.reverse_append]
  rfl

/-- A text that begins with a dollar sign denotes no number. -/
theorem wide?_dollar (rest : List Char) : wide? ('$' :: rest) = none := by
  obtain ⟨t, ht⟩ := trim_dollar rest
  have hplain : plainDigits ('$' :: t) = '$' :: plainDigits t := by
    simp only [plainDigits, List.map_cons]
    rfl
  rw [wide?, ht, hplain, grouped?, joinGroups?, if_neg (by decide)]
  cases joinGroups? ('$'.isDigit) (plainDigits t) with
  | none => rfl
  | some joined => exact plain?_dollar joined

end Numeral

/-- The characters of simple bindings other than blanks. -/
def isDense (c : Char) : Bool :=
  Data.isBindingCharacter c && !Text.isBlank c

theorem isDense_of_isLetter {c : Char} (h : Token.isLetter c = true) : isDense c = true := by
  have hblank : Text.isBlank c = false := by
    rw [Bool.eq_false_iff]
    intro hblank
    rw [Token.isLetter_eq_false_of_isBlank hblank] at h
    cases h
  have hbinding : Data.isBindingCharacter c = true := by
    simp only [Token.isLetter, Bool.or_eq_true] at h
    rcases h with h | h
    · simp [Data.isBindingCharacter, h]
    · have hmarks : "_@.".toList.all Data.isBindingCharacter = true := by decide
      exact List.all_eq_true.mp hmarks c (by simpa using h)
  rw [isDense, hbinding, hblank]
  rfl

theorem isDense_of_isNumberCharacter {c : Char} (h : isNumberCharacter c = true) :
    isDense c = true := by
  simp only [isNumberCharacter, Bool.or_eq_true] at h
  rcases h with h | h
  · exact isDense_of_isLetter (by simp [Token.isLetter, h])
  · have hmarks : "+-.".toList.all isDense = true := by decide
    exact List.all_eq_true.mp hmarks c (by simpa using h)

theorem removeBlanks_of_isDense {s : List Char} (h : ∀ c ∈ s, isDense c = true) :
    Text.removeBlanks s = s := by
  refine List.filter_eq_self.mpr fun c hc ↦ ?_
  have hdense := h c hc
  rw [isDense, Bool.and_eq_true] at hdense
  exact hdense.2

namespace Data

theorem bindingInterior?_eq_some {s expression : List Char} :
    bindingInterior? s = some expression ↔
      s = '$' :: '\x7b' :: expression ++ ['\x7d'] ∧ expression.all isBindingCharacter = true := by
  constructor
  · intro h
    unfold bindingInterior? at h
    split at h
    · rename_i rest
      split_ifs at h with hrest
      cases h
      refine ⟨?_, hrest.2⟩
      rw [List.cons_append, List.cons_append, List.dropLast_append_getLast?]
      exact hrest.1
    · cases h
  · rintro ⟨rfl, hall⟩
    simp only [bindingInterior?, List.cons_append]
    rw [List.getLast?_concat, List.dropLast_concat, if_pos ⟨rfl, hall⟩]

theorem number?_eq_none {value : Data} {expression : List Char}
    (h : value.interior? = some expression) : value.number? = none := by
  cases value with
  | str s =>
    obtain ⟨hs, -⟩ := bindingInterior?_eq_some.mp h
    rw [number?, hs, List.cons_append, Numeral.wide?_dollar]
  | _ => cases h

theorem all_of_interior? {value : Data} {expression : List Char}
    (h : value.interior? = some expression) : expression.all isBindingCharacter = true := by
  cases value with
  | str s => exact (bindingInterior?_eq_some.mp h).2
  | _ => cases h

theorem isTruthy_of_interior? {value : Data} {expression : List Char}
    (h : value.interior? = some expression) : value.isTruthy = true := by
  cases value with
  | str s =>
    obtain ⟨hs, -⟩ := bindingInterior?_eq_some.mp h
    have hne : s ≠ "" := by
      rintro rfl
      cases hs
    simpa [isTruthy] using hne
  | _ => cases h

theorem kind_of_interior? {value : Data} {expression : List Char}
    (h : value.interior? = some expression) : value.kind = .binding := by
  rw [kind, isNumeric, number?_eq_none h, isSimpleBinding, h]
  rfl

theorem interior?_binding {text : String} (h : text.toList.all isBindingCharacter = true) :
    (Data.str (Scalar.binding text)).interior? = some text.toList := by
  refine bindingInterior?_eq_some.mpr ⟨?_, h⟩
  simp [Scalar.binding]

/-- The bare expression of a binding is what stands between its braces. -/
theorem bareExpression?_of_interior? {value : Data} {expression : List Char}
    (h : value.interior? = some expression) : bareExpression? value = some expression := by
  unfold bareExpression?
  rw [number?_eq_none h]
  cases value <;> exact h

end Data

end Motion
