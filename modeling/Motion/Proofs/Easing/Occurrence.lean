import Motion.Proofs.Easing.Mention

/-!
Which easings a value uses, told without the scan. A token is found in a text exactly if it stands
there with as many digits as there are (`mem_tokensIn_iff`), and a value mentions those tokens that are
found in its texts, private members apart (`Data.mem_easingTokens_iff`).
-/

set_option autoImplicit false
set_option relaxedAutoImplicit false

namespace Motion

section Texts

variable {s : List Char} {token : String}

/-- Whether a token stands in a text: the stem of tokens and digits, which no digit follows. -/
def IsTokenIn (token : String) (s : List Char) : Prop :=
  ∃ before digits after, s = before ++ (tokenStem ++ digits ++ after) ∧ digits ≠ [] ∧
    (∀ c ∈ digits, Text.isDigit c = true) ∧ (∀ c ∈ after.head?, Text.isDigit c = false) ∧
      token.toList = tokenStem ++ digits

/-- The token with which a text begins takes all digits that follow its stem. -/
theorem leadingToken?_eq_some {leading : List Char} (h : leadingToken? s = some leading) :
    ∃ digits after, s = tokenStem ++ digits ++ after ∧ digits ≠ [] ∧
      (∀ c ∈ digits, Text.isDigit c = true) ∧ (∀ c ∈ after.head?, Text.isDigit c = false) ∧
        leading = tokenStem ++ digits := by
  have hprefix : tokenStem <+: s := by
    by_contra hnot
    rw [leadingToken?_without_stem hnot] at h
    cases h
  obtain ⟨rest, rfl⟩ := hprefix
  rw [leadingToken?_stem] at h
  split_ifs at h with hempty
  refine ⟨rest.takeWhile Text.isDigit, rest.dropWhile Text.isDigit, ?_, ?_, ?_, ?_, ?_⟩
  · rw [List.append_assoc, List.takeWhile_append_dropWhile]
  · rwa [List.isEmpty_iff] at hempty
  · exact fun c hc ↦ List.mem_takeWhile_imp hc
  · intro c hc
    have hhead := List.head?_dropWhile_not Text.isDigit rest
    rw [hc] at hhead
    exact hhead
  · exact (Option.some.inj h).symm

/-- Scanning finds the tokens that stand in a text. -/
theorem mem_tokensIn_iff : token ∈ tokensIn s ↔ IsTokenIn token s := by
  constructor
  · intro h
    induction s with
    | nil => cases h
    | cons c rest ih =>
      have hlater (h : token ∈ tokensIn rest) : IsTokenIn token (c :: rest) := by
        obtain ⟨before, digits, after, rfl, hmatch⟩ := ih h
        exact ⟨c :: before, digits, after, rfl, hmatch⟩
      rw [tokensIn] at h
      split at h
      · rename_i leading hleading
        rcases List.mem_cons.mp h with rfl | h
        · obtain ⟨digits, after, heq, hne, hdigits, hafter, rfl⟩ := leadingToken?_eq_some hleading
          exact ⟨[], digits, after, heq, hne, hdigits, hafter, String.toList_ofList⟩
        · exact hlater h
      · exact hlater h
  · rintro ⟨before, digits, after, rfl, hne, hdigits, hafter, htoken⟩
    have hall : (digits ++ after).takeWhile Text.isDigit = digits := by
      rw [List.takeWhile_append_of_pos hdigits]
      cases after with
      | nil => simp
      | cons c after =>
        have hc : Text.isDigit c = false := hafter c rfl
        rw [List.takeWhile_cons_of_neg (by simp [hc]), List.append_nil]
    have hleading : leadingToken? (tokenStem ++ digits ++ after) = some token.toList := by
      have hempty : ¬ digits.isEmpty = true := fun hnil ↦ hne (List.isEmpty_iff.mp hnil)
      rw [List.append_assoc, leadingToken?_stem, hall, if_neg hempty, htoken]
    refine mem_tokensIn_append ?_ before
    have hcons : tokenStem ++ digits ++ after = referenceMark :: (easeStem ++ digits ++ after) := rfl
    rw [hcons] at hleading ⊢
    rw [tokensIn, hleading]
    exact List.mem_cons.mpr (Or.inl String.ofList_toList.symm)

end Texts

namespace Data

/-- The texts within a value, private members apart. -/
inductive HoldsText : Data → String → Prop
  | text (s : String) : HoldsText (.str s) s
  | item {items : List Data} {item : Data} {s : String} (hitem : item ∈ items)
      (h : HoldsText item s) : HoldsText (.list items) s
  | member {members : Members} {member : String × Data} {s : String} (hmember : member ∈ members)
      (hpublic : isPrivate member.1 = false) (h : HoldsText member.2 s) :
      HoldsText (.obj members) s

/-- Whether the token of an easing stands in a text within a value. -/
def UsesEasing (value : Data) (name : String) : Prop :=
  ∃ s, value.HoldsText s ∧ IsTokenIn (tokenOf name) s.toList

theorem mem_tokensInList {token : String} {items : List Data} :
    token ∈ tokensInList items ↔ ∃ item ∈ items, token ∈ item.easingTokens := by
  induction items with
  | nil => simp [tokensInList]
  | cons item rest ih => simp [tokensInList, ih]

mutual

theorem exists_holdsText {token : String} : ∀ value : Data, token ∈ value.easingTokens →
    ∃ s, value.HoldsText s ∧ token ∈ tokensIn s.toList
  | .str s, h => by
    rw [easingTokens] at h
    exact ⟨s, .text s, h⟩
  | .list items, h => by
    rw [easingTokens] at h
    obtain ⟨item, hitem, s, hs, htoken⟩ := exists_holdsText_inList items h
    exact ⟨s, .item hitem hs, htoken⟩
  | .obj members, h => by
    rw [easingTokens] at h
    obtain ⟨member, hmember, hpublic, s, hs, htoken⟩ := exists_holdsText_inMembers members h
    exact ⟨s, .member hmember hpublic hs, htoken⟩
  | .null, h | .bool _, h | .num _, h => by simp [easingTokens] at h

theorem exists_holdsText_inList {token : String} : ∀ items : List Data, token ∈ tokensInList items →
    ∃ item ∈ items, ∃ s, item.HoldsText s ∧ token ∈ tokensIn s.toList
  | [], h => by cases h
  | item :: rest, h => by
    rw [tokensInList, List.mem_append] at h
    rcases h with h | h
    · exact ⟨item, List.mem_cons_self, exists_holdsText item h⟩
    · obtain ⟨other, hother, hs⟩ := exists_holdsText_inList rest h
      exact ⟨other, List.mem_cons_of_mem item hother, hs⟩

theorem exists_holdsText_inMembers {token : String} : ∀ members : List (String × Data),
    token ∈ tokensInMembers members → ∃ member ∈ members, isPrivate member.1 = false ∧
      ∃ s, member.2.HoldsText s ∧ token ∈ tokensIn s.toList
  | [], h => by cases h
  | (key, value) :: rest, h => by
    have hlater (h : token ∈ tokensInMembers rest) :
        ∃ member ∈ (key, value) :: rest, isPrivate member.1 = false ∧
          ∃ s, member.2.HoldsText s ∧ token ∈ tokensIn s.toList := by
      obtain ⟨other, hother, hs⟩ := exists_holdsText_inMembers rest h
      exact ⟨other, List.mem_cons_of_mem _ hother, hs⟩
    rw [tokensInMembers] at h
    split_ifs at h with hprivate
    · exact hlater h
    · rcases List.mem_append.mp h with h | h
      · exact ⟨(key, value), List.mem_cons_self, Bool.eq_false_iff.mpr hprivate,
          exists_holdsText value h⟩
      · exact hlater h

end

/-- A value mentions the tokens that are found in its texts. -/
theorem mem_easingTokens_iff {token : String} {value : Data} : token ∈ value.easingTokens ↔
    ∃ s, value.HoldsText s ∧ token ∈ tokensIn s.toList := by
  constructor
  · exact exists_holdsText value
  · rintro ⟨s, hs, htoken⟩
    induction hs with
    | text s =>
      rw [easingTokens]
      exact htoken
    | item hitem _ ih =>
      rw [easingTokens]
      exact mem_tokensInList.mpr ⟨_, hitem, ih htoken⟩
    | member hmember hpublic _ ih =>
      rw [easingTokens]
      exact mem_tokensInMembers.mpr ⟨_, hmember, hpublic, ih htoken⟩

theorem usesEasing_iff {value : Data} {name : String} :
    value.UsesEasing name ↔ tokenOf name ∈ value.easingTokens := by
  rw [mem_easingTokens_iff]
  simp only [UsesEasing, mem_tokensIn_iff]

end Data

end Motion
