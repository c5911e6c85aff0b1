import Motion.Document.Hoisting
import Motion.Proofs.Data.Entries
import Motion.Proofs.Easing.Token
import Motion.Proofs.Scene.Binding

/-!
Where texts and data mention easings. No token reaches across a character that tokens are not made
of (`tokensIn_append_cons`), every token is a reference, and a text that denotes a number has none.
-/

set_option autoImplicit false
set_option relaxedAutoImplicit false

namespace Motion

section Texts

/-- Whether a character ends any token before it and begins none. -/
def isSeam (c : Char) : Bool :=
  !tokenStem.contains c && !Text.isDigit c

theorem isSeam_iff {c : Char} : isSeam c = true ↔ c ∉ tokenStem ∧ Text.isDigit c = false := by
  simp [isSeam]

theorem takeWhile_append_cons {p : Char → Bool} {c : Char} (hc : p c = false) (s t : List Char) :
    (s ++ c :: t).takeWhile p = s.takeWhile p := by
  induction s with
  | nil => simp [hc]
  | cons d rest ih => cases hd : p d <;> simp [hd, ih]

/-- A token at the beginning of a text does not reach across a seam. -/
theorem leadingToken?_append_cons {c : Char} (hc : isSeam c = true) {s : List Char} (t : List Char) :
    leadingToken? (s ++ c :: t) = leadingToken? s := by
  obtain ⟨hstem, hdigit⟩ := isSeam_iff.mp hc
  by_cases hprefix : tokenStem <+: s
  · obtain ⟨rest, rfl⟩ := hprefix
    rw [List.append_assoc, leadingToken?_stem, leadingToken?_stem, takeWhile_append_cons hdigit]
  · have hlong : ¬ tokenStem <+: s ++ c :: t := by
      rintro ⟨rest, hrest⟩
      rcases List.append_eq_append_iff.mp hrest with ⟨across, hacross, -⟩ | ⟨across, hacross, hat⟩
      · exact hprefix ⟨across, hacross.symm⟩
      · cases across with
        | nil => exact hprefix ⟨[], by simpa using hacross⟩
        | cons d across =>
          obtain ⟨rfl, -⟩ := List.cons_eq_cons.mp hat
          exact hstem (hacross ▸ List.mem_append_right s List.mem_cons_self)
    rw [leadingToken?_without_stem hprefix, leadingToken?_without_stem hlong]

/-- The tokens on both sides of a seam are those of the whole text. -/
theorem tokensIn_append_cons {c : Char} (hc : isSeam c = true) (s t : List Char) :
    tokensIn (s ++ c :: t) = tokensIn s ++ tokensIn t := by
  have hmark : c ≠ referenceMark := fun h ↦ (isSeam_iff.mp hc).1 (h ▸ List.mem_cons_self)
  induction s with
  | nil =>
    have hnone : tokensIn (c :: t) = tokensIn t := by
      rw [tokensIn, leadingToken?_eq_none hmark]
    exact hnone
  | cons d rest ih =>
    have hleading := leadingToken?_append_cons hc (s := d :: rest) t
    rw [List.cons_append] at hleading
    rw [List.cons_append, tokensIn, tokensIn, hleading, ih]
    cases leadingToken? (d :: rest) <;> rfl

theorem tokensIn_cons {c : Char} (hc : isSeam c = true) (s : List Char) :
    tokensIn (c :: s) = tokensIn s :=
  tokensIn_append_cons hc [] s

/-- Parentheses hide no tokens. -/
theorem tokensIn_parenthesis (s : List Char) : tokensIn ('(' :: s ++ [')']) = tokensIn s := by
  rw [tokensIn_append_cons (by decide), tokensIn_cons (by decide)]
  exact List.append_nil _

/-- The tokens of a data binding are those of its expression. -/
theorem tokensIn_braces (s : List Char) :
    tokensIn ('$' :: '\x7b' :: s ++ ['\x7d']) = tokensIn s := by
  rw [tokensIn_append_cons (by decide), tokensIn_cons (by decide), tokensIn_cons (by decide)]
  exact List.append_nil _

theorem tokensIn_eq_nil {s : List Char} (h : referenceMark ∉ s) : tokensIn s = [] := by
  have happend := tokensIn_append h []
  rwa [List.append_nil] at happend

/-- Every token is a reference. -/
theorem tokensIn_of_hasReference {s : List Char} (h : hasReference s = false) : tokensIn s = [] := by
  induction s with
  | nil => rfl
  | cons c rest ih =>
    rw [hasReference, Bool.or_eq_false_iff] at h
    have hleading : leadingToken? (c :: rest) = none := by
      by_cases hmark : c = referenceMark
      · have hhead : rest.head?.any Text.isWordCharacter = false := by simpa [hmark] using h.1
        refine leadingToken?_without_stem ?_
        rintro ⟨tail, htail⟩
        have hrest : rest = easeStem ++ tail := (List.cons.inj htail).2.symm
        rw [hrest, show (easeStem ++ tail).head? = some 'e' from rfl] at hhead
        exact Bool.false_ne_true (hhead.symm.trans (by decide))
      · exact leadingToken?_eq_none hmark rest
    rw [tokensIn, hleading]
    exact ih h.2

end Texts

section Numerals

namespace Numeral

theorem mem_of_joinGroups? {c : Char} (hc : c ≠ '_') : ∀ {s joined : List Char} {afterDigit : Bool},
    joinGroups? afterDigit s = some joined → c ∈ s → c ∈ joined
  | d :: rest, joined, afterDigit, hjoined, hmem => by
    rw [joinGroups?] at hjoined
    split_ifs at hjoined with hgroup hbetween
    · exact mem_of_joinGroups? hc hjoined
        ((List.mem_cons.mp hmem).resolve_left fun h ↦ hc (h.trans hgroup))
    · obtain ⟨others, hothers, rfl⟩ := Option.map_eq_some_iff.mp hjoined
      rcases List.mem_cons.mp hmem with rfl | hmem
      · exact List.mem_cons_self
      · exact List.mem_cons_of_mem _ (mem_of_joinGroups? hc hothers hmem)

/-- The characters of plain numerals that are no names. -/
def isNumeralCharacter (c : Char) : Bool :=
  c.isDigit || ".eE+-".toList.contains c

theorem isNumeralCharacter_of_isDigit {c : Char} (h : c.isDigit = true) :
    isNumeralCharacter c = true := by
  simp [isNumeralCharacter, h]

/-- Where the text behind a sign is made of characters of numerals, so is the text. -/
theorem forall_mem_of_takeSign {s : List Char}
    (h : ∀ c ∈ (takeSign s).2, isNumeralCharacter c = true) : ∀ c ∈ s, isNumeralCharacter c = true := by
  unfold takeSign at h
  split at h
  · exact List.forall_mem_cons.mpr ⟨by decide, h⟩
  · exact List.forall_mem_cons.mpr ⟨by decide, h⟩
  · exact h

theorem forall_mem_of_exponent? {s : List Char} {e : ℤ} (h : exponent? s = some e) :
    ∀ c ∈ s, isNumeralCharacter c = true := by
  cases s with
  | nil => exact List.forall_mem_nil _
  | cons c rest =>
    rw [exponent?] at h
    split_ifs at h with hletter
    have hfirst : isNumeralCharacter c = true := by
      rcases hletter with rfl | rfl <;> decide
    dsimp only at h
    split_ifs at h with hdigits
    rw [Bool.or_eq_true, not_or, Bool.not_eq_true', Bool.not_eq_false, List.all_eq_true] at hdigits
    have hrest := forall_mem_of_takeSign fun d hd ↦
      isNumeralCharacter_of_isDigit (hdigits.2 d hd)
    exact List.forall_mem_cons.mpr ⟨hfirst, hrest⟩

theorem forall_mem_of_decimal? {s : List Char} {x : Decimal} (h : decimal? s = some x) :
    ∀ c ∈ s, isNumeralCharacter c = true := by
  have hdigits (t : List Char) : ∀ c ∈ t.takeWhile Char.isDigit, isNumeralCharacter c = true :=
    fun c hc ↦ isNumeralCharacter_of_isDigit (List.mem_takeWhile_imp hc)
  unfold decimal? at h
  rw [← List.takeWhile_append_dropWhile (p := Char.isDigit) (l := s)]
  dsimp only at h
  split_ifs at h with hempty
  obtain ⟨e, he, -⟩ := Option.map_eq_some_iff.mp h
  have hexponent := forall_mem_of_exponent? he
  refine List.forall_mem_append.mpr ⟨hdigits s, ?_⟩
  split at hexponent
  · rename_i rest hrest
    rw [hrest, ← List.takeWhile_append_dropWhile (p := Char.isDigit) (l := rest)]
    exact List.forall_mem_cons.mpr
      ⟨by decide, List.forall_mem_append.mpr ⟨hdigits rest, hexponent⟩⟩
  · exact hexponent

/-- A plain numeral is a name or made of the characters of numerals, so it has no reference mark. -/
theorem referenceMark_notMem_of_plain? {s : List Char} {x : Binary64} (h : plain? s = some x) :
    referenceMark ∉ s := by
  intro hmem
  have hbody : referenceMark ∈ (takeSign s).2 := by
    unfold takeSign
    split
    · exact (List.mem_cons.mp hmem).resolve_left (by decide)
    · exact (List.mem_cons.mp hmem).resolve_left (by decide)
    · exact hmem
  have hname (word : String) (hword : referenceMark ∉ word.toList) :
      String.ofList ((takeSign s).2.map Char.toLower) ≠ word := by
    rintro rfl
    rw [String.toList_ofList] at hword
    exact hword (List.mem_map.mpr ⟨referenceMark, hbody, by decide⟩)
  unfold plain? at h
  dsimp only at h
  rw [if_neg (not_or.mpr ⟨hname "inf" (by decide), hname "infinity" (by decide)⟩),
    if_neg (hname "nan" (by decide))] at h
  obtain ⟨decimal, hdecimal, -⟩ := Option.map_eq_some_iff.mp h
  exact absurd (forall_mem_of_decimal? hdecimal _ hbody) (by decide)

theorem mem_dropWhile {p : Char → Bool} {c : Char} (hc : p c = false) {s : List Char} (h : c ∈ s) :
    c ∈ s.dropWhile p := by
  rw [← List.takeWhile_append_dropWhile (p := p) (l := s), List.mem_append] at h
  refine h.resolve_left fun hmem ↦ ?_
  rw [List.mem_takeWhile_imp hmem] at hc
  cases hc

/-- A text that denotes a number has no reference mark. -/
theorem referenceMark_notMem_of_wide? {s : List Char} {x : Binary64} (h : wide? s = some x) :
    referenceMark ∉ s := by
  intro hmem
  have htrim : referenceMark ∈ Text.trim s := by
    have hblank : Text.isBlank referenceMark = false := by decide
    have hfront := mem_dropWhile hblank hmem
    exact List.mem_reverse.mpr (mem_dropWhile hblank (List.mem_reverse.mpr hfront))
  have hplain : referenceMark ∈ plainDigits (Text.trim s) :=
    List.mem_map.mpr ⟨referenceMark, htrim, by decide⟩
  obtain ⟨joined, hjoined, hx⟩ := Option.bind_eq_some_iff.mp h
  exact referenceMark_notMem_of_plain? hx (mem_of_joinGroups? (by decide) hjoined hplain)

end Numeral

end Numerals

namespace Data

/-- A number mentions no easing, and neither does a text that denotes one. -/
theorem easingTokens_of_number? {value : Data} {n : Number} (h : value.number? = some n) :
    value.easingTokens = [] := by
  cases value with
  | str s =>
    rw [number?] at h
    cases hwide : Numeral.wide? s.toList with
    | none => simp [hwide] at h
    | some x =>
      rw [easingTokens]
      exact tokensIn_eq_nil (Numeral.referenceMark_notMem_of_wide? hwide)
  | num _ => simp [easingTokens]
  | _ => cases h

/-- A simple binding mentions what its expression does. -/
theorem easingTokens_of_interior? {value : Data} {expression : List Char}
    (h : value.interior? = some expression) : value.easingTokens = tokensIn expression := by
  cases value with
  | str s =>
    obtain ⟨hs, -⟩ := bindingInterior?_eq_some.mp h
    rw [easingTokens, hs]
    exact tokensIn_braces expression
  | _ => cases h

mutual

/-- What refers to no resource mentions no easing. -/
theorem easingTokens_of_refersToResource : ∀ value : Data, value.refersToResource = false →
    value.easingTokens = []
  | .str s, h => by
    rw [easingTokens]
    exact tokensIn_of_hasReference h
  | .list items, h => by
    rw [easingTokens]
    exact tokensInList_of_refersInList items h
  | .obj members, h => by
    rw [easingTokens]
    exact tokensInMembers_of_refersInMembers members h
  | .null, _ | .bool _, _ | .num _, _ => by simp [easingTokens]

theorem tokensInList_of_refersInList : ∀ items : List Data, refersInList items = false →
    tokensInList items = []
  | [], _ => rfl
  | item :: rest, h => by
    rw [refersInList, Bool.or_eq_false_iff] at h
    rw [tokensInList, easingTokens_of_refersToResource item h.1,
      tokensInList_of_refersInList rest h.2]
    rfl

theorem tokensInMembers_of_refersInMembers : ∀ members : List (String × Data),
    refersInMembers members = false → tokensInMembers members = []
  | [], _ => rfl
  | (key, value) :: rest, h => by
    rw [refersInMembers, Bool.or_eq_false_iff] at h
    rw [tokensInMembers, easingTokens_of_refersToResource value h.1,
      tokensInMembers_of_refersInMembers rest h.2]
    exact ite_self _

end

/-- The tokens of the easings that a document uses: those in public texts below its items. -/
def usedTokens (document : Data) : List String :=
  ((document.get? itemsKey).getD .null).easingTokens

theorem mem_tokensInMembers {token : String} {members : Members} :
    token ∈ tokensInMembers members ↔
      ∃ member ∈ members, isPrivate member.1 = false ∧ token ∈ member.2.easingTokens := by
  induction members with
  | nil => simp [tokensInMembers]
  | cons member rest ih =>
    obtain ⟨key, value⟩ := member
    cases hkey : isPrivate key <;> simp [tokensInMembers, hkey, ih]

/-- A value in the place of another one that mentions the same easings changes nothing. -/
theorem tokensInMembers_put {members : Members} {key : String} {value other : Data}
    (hget : Entries.get? members key = some value)
    (h : other.easingTokens = value.easingTokens) :
    tokensInMembers (Entries.put members key other) = tokensInMembers members := by
  induction members with
  | nil => simp at hget
  | cons member rest ih =>
    obtain ⟨first, current⟩ := member
    rw [Entries.get?_cons] at hget
    by_cases hkey : first = key
    · rw [if_pos hkey, Option.some.injEq] at hget
      rw [Entries.put, if_pos hkey, tokensInMembers, tokensInMembers, h, ← hget, ← hkey]
    · rw [if_neg hkey] at hget
      rw [Entries.put, if_neg hkey, tokensInMembers, tokensInMembers, ih hget]

end Data

/-- The tokens of gradients are not those of easings. -/
theorem tokensIn_gradient (n : ℕ) : tokensIn (tokenOf (gradientName n)).toList = [] := by
  have hchars : (tokenOf (gradientName n)).toList =
      referenceMark :: (gradientKey.toList ++ Nat.toDigits 10 n) := by
    rw [tokenOf, gradientName, String.toList_ofList, String.toList_ofList]
  have hmark : referenceMark ∉ gradientKey.toList ++ Nat.toDigits 10 n := by
    rw [List.mem_append, not_or]
    refine ⟨by decide, fun hmem ↦ ?_⟩
    exact absurd (Nat.isDigit_of_mem_toDigits (by decide) (by decide) hmem) (by decide)
  rw [hchars, tokensIn, tokensIn_eq_nil hmark]
  rfl

end Motion
