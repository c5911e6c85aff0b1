import Motion.Document.Pruning
import Motion.Proofs.Scalar.Text
import Motion.Proofs.Scene.Binding

/-!
Scalars in documents. A number that is embedded is numeric; an expression that is embedded is
a simple binding without blanks, which takes part in arithmetic as it stands, since its signs are
all within parentheses. The easings that are found in it are those whose calls its text holds.
-/

set_option autoImplicit false
set_option relaxedAutoImplicit false

namespace Motion

/-- Signs are not at the top level where no parenthesis is closed that was open before. -/
theorem hasTopLevelSign_append {s : List Char} (hclosed : ∀ c ∈ s, c ≠ '(' ∧ c ≠ ')') {depth : Int}
    (hdepth : depth ≠ 0 ∨ ∀ c ∈ s, c ≠ '+' ∧ c ≠ '-') (rest : List Char) :
    hasTopLevelSign depth (s ++ rest) = hasTopLevelSign depth rest := by
  induction s with
  | nil => rfl
  | cons c s ih =>
    obtain ⟨hc, hs⟩ := List.forall_mem_cons.mp hclosed
    have hskip : ((c = '+' || c = '-') && depth == 0) = false := by
      rcases hdepth with hdepth | hsign
      · simp [hdepth]
      · simp [hsign c List.mem_cons_self]
    rw [List.cons_append, hasTopLevelSign, if_neg hc.1, if_neg hc.2, hskip, Bool.false_or]
    refine ih hs (hdepth.imp_right fun hsign d hd ↦ hsign d (List.mem_cons_of_mem c hd))

namespace Formula

theorem isDense_text (f : Formula) : ∀ c ∈ f.text, isDense c = true := by
  have hopening : isDense '(' = true := by decide
  have hclosing : ∀ c ∈ [')'], isDense c = true := List.all_eq_true.mp (by decide)
  have hsymbol (op : Operator) : ∀ c ∈ op.symbol.toList, isDense c = true :=
    List.all_eq_true.mp (by cases op <;> decide)
  induction f with
  | number n =>
    exact fun c hc ↦ isDense_of_isNumberCharacter (n.isNumberCharacter_of_mem_textChars c hc)
  | atom index =>
    refine List.forall_mem_append.mpr ⟨fun c hc ↦ ?_, List.all_eq_true.mp (by decide)⟩
    exact isDense_of_isLetter (isLetter_of_mem_token hc)
  | neg operand ih =>
    exact List.forall_mem_append.mpr ⟨List.forall_mem_cons.mpr ⟨hopening,
      List.forall_mem_cons.mpr ⟨by decide, ih⟩⟩, hclosing⟩
  | binary op left right ihleft ihright =>
    exact List.forall_mem_append.mpr ⟨List.forall_mem_append.mpr ⟨List.forall_mem_append.mpr
      ⟨List.forall_mem_cons.mpr ⟨hopening, ihleft⟩, hsymbol op⟩, ihright⟩, hclosing⟩

/-- The parentheses in the text of a formula are balanced. Where one is open already, or where the
formula is no number, no sign in the text is at the top level. -/
theorem hasTopLevelSign_text (f : Formula) {depth : Int}
    (hdepth : 0 < depth ∨ 0 ≤ depth ∧ f.isNumber = false) (rest : List Char) :
    hasTopLevelSign depth (f.text ++ rest) = hasTopLevelSign depth rest := by
  induction f generalizing depth rest with
  | number n =>
    have hpositive : depth ≠ 0 := by
      rcases hdepth with h | ⟨-, h⟩
      · exact h.ne'
      · cases h
    refine hasTopLevelSign_append (fun c hc ↦ ?_) (Or.inl hpositive) rest
    have hnumber := n.isNumberCharacter_of_mem_textChars c hc
    constructor <;> rintro rfl <;> revert hnumber <;> decide
  | atom index =>
    have hletters (c : Char) (hc : c ∈ (tokenOf (easeName index)).toList) (d : Char)
        (hd : Token.isLetter d = false) : c ≠ d := by
      rintro rfl
      rw [isLetter_of_mem_token hc] at hd
      cases hd
    rw [text, atomText, List.append_assoc, hasTopLevelSign_append
      (fun c hc ↦ ⟨hletters c hc _ (by decide), hletters c hc _ (by decide)⟩)
      (Or.inr fun c hc ↦ ⟨hletters c hc _ (by decide), hletters c hc _ (by decide)⟩)]
    simp [hasTopLevelSign]
  | neg operand ih =>
    have hinner : 0 < depth + 1 := by omega
    have hne : (depth + 1 == 0) = false := by simpa using hinner.ne'
    rw [text, List.append_assoc, List.cons_append, List.cons_append, hasTopLevelSign, if_pos rfl,
      hasTopLevelSign, if_neg (by decide), if_neg (by decide), hne, Bool.and_false, Bool.false_or,
      ih (Or.inl hinner)]
    simp [hasTopLevelSign]
  | binary op left right ihleft ihright =>
    have hinner : 0 < depth + 1 := by omega
    have hsymbol : ∀ c ∈ op.symbol.toList, c ≠ '(' ∧ c ≠ ')' := by
      cases op <;> simp [Operator.symbol]
    rw [text, List.append_assoc, List.append_assoc, List.append_assoc, List.cons_append,
      hasTopLevelSign, if_pos rfl, ihleft (Or.inl hinner),
      hasTopLevelSign_append hsymbol (Or.inl hinner.ne'), ihright (Or.inl hinner)]
    simp [hasTopLevelSign]

theorem head_text {f : Formula} (h : f.isNumber = false) : f.text.head? ≠ some '-' := by
  cases f with
  | number n => cases h
  | atom index => simp [text, atomText, toList_token, tokenChars, tokenStem, referenceMark]
  | neg operand => simp [text]
  | binary op left right => simp [text]

/-- The tokens in the text of a formula are those of its easings. -/
theorem tokensIn_text (f : Formula) (rest : List Char) :
    tokensIn (f.text ++ rest) =
      f.atoms.map (fun index ↦ tokenOf (easeName index)) ++ tokensIn rest := by
  induction f generalizing rest with
  | number n =>
    refine tokensIn_append (fun hmem ↦ ?_) rest
    have hnumber := n.isNumberCharacter_of_mem_textChars _ hmem
    revert hnumber
    decide
  | atom index =>
    rw [text, atomText, toList_token, List.append_assoc, tokensIn_tokenChars index rfl,
      tokensIn_append (by decide)]
    rfl
  | neg operand ih =>
    have hopening : referenceMark ∉ ['(', '-'] := by decide
    rw [text, show '(' :: '-' :: operand.text ++ [')'] ++ rest =
      ['(', '-'] ++ (operand.text ++ ([')'] ++ rest)) by simp, tokensIn_append hopening, ih,
      tokensIn_append (by decide), atoms]
  | binary op left right ihleft ihright =>
    have hsymbol : referenceMark ∉ op.symbol.toList := by cases op <;> decide
    rw [text, show '(' :: left.text ++ op.symbol.toList ++ right.text ++ [')'] ++ rest =
      ['('] ++ (left.text ++ (op.symbol.toList ++ (right.text ++ ([')'] ++ rest)))) by simp,
      tokensIn_append (by decide), ihleft, tokensIn_append hsymbol, ihright,
      tokensIn_append (by decide), atoms, List.map_append, List.append_assoc]

theorem atomText_infix {f : Formula} {index : ℕ} (h : index ∈ f.atoms) :
    atomText index <:+: f.text := by
  induction f with
  | number n => cases h
  | atom other =>
    rw [List.mem_singleton.mp h]
    exact List.infix_rfl
  | neg operand ih => exact (ih h).trans ⟨['(', '-'], [')'], rfl⟩
  | binary op left right ihleft ihright =>
    rcases List.mem_append.mp h with h | h
    · exact (ihleft h).trans ⟨['('], op.symbol.toList ++ right.text ++ [')'], by simp [text]⟩
    · exact (ihright h).trans ⟨'(' :: left.text ++ op.symbol.toList, [')'], by simp [text]⟩

end Formula

/-- The easings in a text that a formula writes, as they are found there. -/
theorem mem_tokensIn_binding {text : String} {f : Formula} (htext : text.toList = f.text)
    {token : String} : token ∈ tokensIn (Scalar.binding text).toList ↔
      ∃ index, token = tokenOf (easeName index) ∧ Formula.atomText index <:+: text.toList := by
  have hbinding : (Scalar.binding text).toList = ['$', '{'] ++ (f.text ++ ['}']) := by
    simp [Scalar.binding, htext]
  constructor
  · intro h
    rw [hbinding, tokensIn_append (by decide), f.tokensIn_text, List.mem_append] at h
    rcases h with h | h
    · obtain ⟨index, hindex, rfl⟩ := List.mem_map.mp h
      exact ⟨index, rfl, htext ▸ Formula.atomText_infix hindex⟩
    · cases h
  · rintro ⟨index, rfl, before, after, hinfix⟩
    have hsplit : (Scalar.binding text).toList = ['$', '{'] ++ before ++
        (tokenChars index ++ ("(frame)".toList ++ (after ++ ['}']))) := by
      rw [hbinding, ← htext, ← hinfix, Formula.atomText, toList_token]
      simp
    rw [hsplit]
    refine mem_tokensIn_append ?_ _
    rw [tokensIn_tokenChars index rfl]
    exact List.mem_cons_self

namespace Scalar

/-- A number that is embedded is numeric and has its value. -/
theorem embed_literal {n : Number} (h : n.isNaN = false) :
    (literal n).embed.kind = .numeric ∧
      ∃ m, (literal n).embed.asNumber = .ok (.num m) ∧ m.same n = true := by
  refine ⟨?_, n.normalize, ?_, n.same_normalize h⟩
  · simp [embed, Data.kind, Data.isNumeric, Data.number?, Number.isNaN_normalize h]
  · simp [embed, Data.asNumber, Data.normalized, Number.normalize_normalize]

/-- An expression that a formula writes is embedded as a simple binding that takes part in
arithmetic as it stands. -/
theorem embed_expr {text : String} {slope : Option Slope} {f : Formula}
    (h : IsWrittenBy (.expr text slope) f) :
    (expr text slope).embed.kind = .binding ∧
      Text.removeBlanks (binding text).toList = (binding text).toList ∧
        ∀ op, operandText (expr text slope).embed op = text.toList := by
  obtain ⟨hnumber, htext⟩ := h
  have hdense : ∀ c ∈ text.toList, isDense c = true := htext ▸ f.isDense_text
  have hbinding : text.toList.all Data.isBindingCharacter = true := by
    refine List.all_eq_true.mpr fun c hc ↦ ?_
    have hc := hdense c hc
    rw [isDense, Bool.and_eq_true] at hc
    exact hc.1
  have hinterior := Data.interior?_binding hbinding
  have hinner := removeBlanks_of_isDense hdense
  refine ⟨Data.kind_of_interior? hinterior, ?_, fun op ↦ ?_⟩
  · have hbraces : (binding text).toList = ['$', '{'] ++ text.toList ++ ['}'] := by
      simp [binding]
    have hends : Text.removeBlanks ['$', '{'] = ['$', '{'] ∧
        Text.removeBlanks ['}'] = ['}'] := by decide
    rw [hbraces, Text.removeBlanks, List.filter_append, List.filter_append]
    exact congrArg₂ _ (congrArg₂ _ hends.1 hinner) hends.2
  · have hsign : hasTopLevelSign 0 text.toList = false := by
      have hclosed := f.hasTopLevelSign_text (Or.inr ⟨le_refl 0, hnumber⟩) []
      rw [List.append_nil, ← htext] at hclosed
      exact hclosed
    have hhead : (text.toList.head? == some '-') = false := by
      simpa [htext] using Formula.head_text hnumber
    rw [operandText, embed, Data.bareExpression?_of_interior? hinterior]
    dsimp only
    rw [hinner, needsParentheses, hhead, hsign, Bool.and_false]
    rfl

end Scalar

/-- What is embedded of a scalar made of numbers and easings is understood where scenes are
collapsed: a number as that number, an expression as a binding without blanks that stands as an
operand as it is, and with just the easings whose calls it holds. -/
theorem Recipe.build_embed {recipe : Recipe} {v : Scalar} (h : recipe.build = .ok v)
    (hnan : ∀ n, v = .literal n → n.isNaN = false) :
    (∀ n, v = .literal n → v.embed.kind = .numeric ∧
      ∃ m, v.embed.asNumber = .ok (.num m) ∧ m.same n = true) ∧
    ∀ text slope, v = .expr text slope → v.embed.kind = .binding ∧
      Text.removeBlanks (Scalar.binding text).toList = (Scalar.binding text).toList ∧
      (∀ op, operandText v.embed op = v.text.toList) ∧
      ∀ limit, ∃ found, v.embed.usedEasings limit = .ok found ∧
        ∀ token, token ∈ found ↔ ∃ index, token = tokenOf (easeName index) ∧
          Formula.atomText index <:+: v.text.toList := by
  obtain ⟨f, hf, -⟩ := build_isWrittenBy h
  constructor
  · rintro n rfl
    exact Scalar.embed_literal (hnan n rfl)
  · rintro text slope rfl
    obtain ⟨hkind, hblanks, hoperand⟩ := Scalar.embed_expr hf
    refine ⟨hkind, hblanks, hoperand, fun limit ↦ ⟨_, rfl, fun token ↦ ?_⟩⟩
    rw [List.mem_eraseDups]
    exact mem_tokensIn_binding hf.2

/-- An easing times the negative infinity. -/
def boundlessRecipe : Recipe :=
  .binary .mul (.atom 3) (.number (.float (.infinite true)))

theorem Recipe.build_embed_boundless : ∃ v, boundlessRecipe.build = .ok v ∧
    v.text = "(@ease3(frame)*-Infinity)" ∧ (∀ n, v = .literal n → n.isNaN = false) ∧
      v.embed.kind = .binding ∧ operandText v.embed (some .sub) = v.text.toList ∧
        ∃ found, v.embed.usedEasings 256 = .ok found ∧ "@ease3" ∈ found := by
  have hbuild : boundlessRecipe.build.toOption.map (fun v ↦ (v.isNumber, v.text)) =
      some (false, "(@ease3(frame)*-Infinity)") := by decide +kernel
  cases hv : boundlessRecipe.build with
  | error fault =>
    rw [hv] at hbuild
    cases hbuild
  | ok v =>
    rw [hv] at hbuild
    cases v with
    | literal n => cases hbuild
    | expr text slope =>
      have htext : text = "(@ease3(frame)*-Infinity)" := congrArg Prod.snd (Option.some.inj hbuild)
      have hnan (n : Number) (hn : Scalar.expr text slope = .literal n) : n.isNaN = false := by
        cases hn
      obtain ⟨hkind, -, hoperand, heasings⟩ := (build_embed hv hnan).2 text slope rfl
      obtain ⟨found, hfound, hmem⟩ := heasings 256
      refine ⟨_, rfl, htext, hnan, hkind, hoperand _, found, hfound, (hmem _).mpr ⟨3, by decide, ?_⟩⟩
      have hcall : ['('] ++ Formula.atomText 3 ++ "*-Infinity)".toList =
          "(@ease3(frame)*-Infinity)".toList := by decide
      exact ⟨['('], "*-Infinity)".toList, htext ▸ hcall⟩

end Motion
