import Motion.Proofs.Expression.Basic
import Motion.Scene.Binding
import Mathlib.Data.List.Chain

/-!
The tokens of an expression. Letters, digits and points that stand together are a word; each sign,
operator and parenthesis is a token of its own, and blanks part tokens (`Token.scan`). A reader that
always takes the longest token it can makes one token of two equal signs instead
(`Token.scanLongest`); where no such pair stands in a text, the two agree.
-/

set_option autoImplicit false
set_option relaxedAutoImplicit false

namespace Motion

/-- A token of an expression. The last four arise only where the longest token is taken. -/
inductive Token where
  | word (letters : List Char)
  | operator (op : Operator)
  | opening
  | closing
  | increment
  | decrement
  | power
  | comment
deriving DecidableEq, Repr

namespace Token

def isWord : Token → Bool
  | word _ => true
  | _ => false

/-- Plus and minus signs, whether they join two operands or stand in front of one. -/
def isSign : Token → Bool
  | operator op => op.isAdditive
  | _ => false

/-- How many parentheses are open after a token. -/
def depthAfter (depth : Int) : Token → Int
  | opening => depth + 1
  | closing => depth - 1
  | _ => depth

/-- Whether a sign occurs where as many parentheses have been closed as opened. -/
def hasTopLevelSign (depth : Int) : List Token → Bool
  | [] => false
  | token :: rest =>
    (token.isSign && depth == 0) || hasTopLevelSign (token.depthAfter depth) rest

/-- Tokens without two words in a row. -/
def WordsApart (tokens : List Token) : Prop :=
  tokens.IsChain fun first second ↦ first.isWord = true → second.isWord = false

/-- The characters of names and numbers. -/
def isLetter (c : Char) : Bool :=
  c.isAlphanum || "_@.".toList.contains c

/-- The token that a single character is. -/
def ofChar? : Char → Option Token
  | '+' => some (.operator .add)
  | '-' => some (.operator .sub)
  | '*' => some (.operator .mul)
  | '/' => some (.operator .div)
  | '(' => some .opening
  | ')' => some .closing
  | _ => none

/-- Puts a letter in front of tokens: into their first word if it is joined to that, else as a word
of its own. -/
def withLetter (c : Char) (joined : Bool) : List Token → List Token
  | .word letters :: rest =>
    if joined then .word (c :: letters) :: rest else .word [c] :: .word letters :: rest
  | tokens => .word [c] :: tokens

/-- The tokens of a text that begins with a character, from those of its rest. -/
def scanStep (c : Char) (rest : List Char) (tokens? : Option (List Token)) :
    Option (List Token) :=
  if isLetter c then tokens?.map (withLetter c (rest.head?.any isLetter))
  else if Text.isBlank c then tokens?
  else
    match ofChar? c with
    | some token => tokens?.map (token :: ·)
    | none => none

/-- The tokens of a text. -/
def scan : List Char → Option (List Token)
  | [] => some []
  | c :: rest => scanStep c rest (scan rest)

/-- The token that two characters are together. -/
def ofPair? : Char → Char → Option Token
  | '+', '+' => some .increment
  | '-', '-' => some .decrement
  | '*', '*' => some .power
  | '/', '/' => some .comment
  | '/', '*' => some .comment
  | _, _ => none

/-- The tokens of a text, each as long as it can be. -/
def scanLongest : List Char → Option (List Token)
  | [] => some []
  | [c] => scanStep c [] (some [])
  | c :: d :: rest =>
    match ofPair? c d with
    | some token => (scanLongest rest).map (token :: ·)
    | none => scanStep c (d :: rest) (scanLongest (d :: rest))

/-- Where no two characters in a row are one token, the longest tokens are the plain ones. -/
theorem scanLongest_eq_scan {s : List Char} (h : s.IsChain fun c d ↦ ofPair? c d = none) :
    scanLongest s = scan s := by
  induction s with
  | nil => rfl
  | cons c rest ih =>
    cases rest with
    | nil => rfl
    | cons d rest =>
      obtain ⟨hpair, hrest⟩ := List.isChain_cons_cons.mp h
      rw [scanLongest, hpair]
      exact congrArg (scanStep c (d :: rest)) (ih hrest)

theorem withLetter_ne_nil (c : Char) (joined : Bool) (tokens : List Token) :
    withLetter c joined tokens ≠ [] := by
  unfold withLetter
  split
  · split_ifs <;> simp
  · simp

theorem withLetter_append (c : Char) {joined : Bool} {first : List Token}
    (h : joined = true → first ≠ []) (second : List Token) :
    withLetter c joined (first ++ second) = withLetter c joined first ++ second := by
  cases first with
  | nil =>
    have hjoined : joined = false := by
      rw [Bool.eq_false_iff]
      exact fun hjoined ↦ h hjoined rfl
    subst hjoined
    cases second with
    | nil => rfl
    | cons token rest => cases token <;> rfl
  | cons token rest => cases token <;> cases joined <;> rfl

theorem scan_ne_nil {s : List Char} {tokens : List Token} (h : scan s = some tokens)
    (hletter : s.head?.any isLetter = true) : tokens ≠ [] := by
  cases s with
  | nil => cases hletter
  | cons c rest =>
    have hc : isLetter c = true := hletter
    rw [scan, scanStep, if_pos hc, Option.map_eq_some_iff] at h
    obtain ⟨more, -, rfl⟩ := h
    exact withLetter_ne_nil c _ more

/-- A text may be parted where its second part does not begin with a letter. -/
theorem scan_append {s t : List Char} (ht : t.head?.any isLetter = false) {first second : List Token}
    (hs : scan s = some first) (hsecond : scan t = some second) :
    scan (s ++ t) = some (first ++ second) := by
  induction s generalizing first with
  | nil =>
    cases hs
    exact hsecond
  | cons c rest ih =>
    have hjoined : (rest ++ t).head?.any isLetter = rest.head?.any isLetter := by
      cases rest with
      | nil => simpa using ht
      | cons d rest => rfl
    rw [scan, scanStep] at hs
    rw [List.cons_append, scan, scanStep, hjoined]
    by_cases hc : isLetter c = true
    · rw [if_pos hc, Option.map_eq_some_iff] at hs
      obtain ⟨tokens, hrest, rfl⟩ := hs
      rw [if_pos hc, ih hrest, Option.map_some, withLetter_append c (scan_ne_nil hrest)]
    · rw [if_neg hc] at hs ⊢
      by_cases hblank : Text.isBlank c = true
      · rw [if_pos hblank] at hs ⊢
        exact ih hs
      · rw [if_neg hblank] at hs ⊢
        cases htoken : ofChar? c with
        | none => simp [htoken] at hs
        | some token =>
          simp only [htoken, Option.map_eq_some_iff] at hs ⊢
          obtain ⟨tokens, hrest, rfl⟩ := hs
          exact ⟨tokens ++ second, ih hrest, rfl⟩

/-- A character that is a token of its own. -/
theorem scan_cons {c : Char} {token : Token} (hc : ofChar? c = some token) {s : List Char}
    {tokens : List Token} (hs : scan s = some tokens) : scan (c :: s) = some (token :: tokens) := by
  have hplain : isLetter c = false ∧ Text.isBlank c = false := by
    unfold ofChar? at hc
    split at hc
    all_goals first | decide | cases hc
  rw [scan, scanStep, hplain.1, hplain.2, hc, hs]
  rfl

/-- The first token of a text is a word exactly if the text begins with a letter, blanks apart. -/
theorem isWord_head_scan {s : List Char} {tokens : List Token} (h : scan s = some tokens)
    (hblank : s.head?.any Text.isBlank = false) :
    tokens.head?.any isWord = s.head?.any isLetter := by
  cases s with
  | nil =>
    cases h
    rfl
  | cons c rest =>
    have hplain : Text.isBlank c = false := hblank
    rw [scan, scanStep] at h
    by_cases hc : isLetter c = true
    · rw [if_pos hc, Option.map_eq_some_iff] at h
      obtain ⟨more, -, rfl⟩ := h
      rw [List.head?_cons, Option.any_some, hc]
      unfold withLetter
      split
      · split_ifs <;> rfl
      · rfl
    · rw [if_neg hc, hplain, if_neg Bool.false_ne_true] at h
      rw [List.head?_cons, Option.any_some, Bool.eq_false_iff.mpr hc]
      unfold ofChar? at h
      split at h
      · rename_i htoken
        rw [Option.map_eq_some_iff] at h
        obtain ⟨more, -, rfl⟩ := h
        split at htoken <;> cases htoken <;> rfl
      · cases h

theorem isLetter_eq_false_of_isBlank {c : Char} (h : Text.isBlank c = true) :
    isLetter c = false := by
  have hcode : c.toNat = c.val.toNat := rfl
  have halphanum : c.isAlphanum = false := by
    have hranges : c.isAlphanum = ((decide (c.val ≥ 65 ∧ c.val ≤ 90) ||
        decide (c.val ≥ 97) && decide (c.val ≤ 122)) ||
        decide (c.val ≥ 48) && decide (c.val ≤ 57)) := rfl
    simp [Text.isBlank, Text.inRanges, Text.blankRanges] at h
    simp [hranges, UInt32.le_iff_toNat_le]
    omega
  have hmark : "_@.".toList.contains c = false := by
    rw [Bool.eq_false_iff]
    intro hmem
    have hcases : c = '_' ∨ c = '@' ∨ c = '.' := by simpa using hmem
    rcases hcases with rfl | rfl | rfl <;> revert h <;> decide
  rw [isLetter, halphanum, hmark]
  rfl

theorem wordsApart_of_withLetter {c : Char} {joined : Bool} {tokens : List Token}
    (h : WordsApart (withLetter c joined tokens)) : WordsApart tokens := by
  cases tokens with
  | nil => exact .nil
  | cons token rest =>
    cases token with
    | word letters =>
      cases joined with
      | true =>
        cases rest with
        | nil => exact .singleton _
        | cons second rest =>
          obtain ⟨hfirst, hrest⟩ := List.isChain_cons_cons.mp h
          exact List.isChain_cons_cons.mpr ⟨hfirst, hrest⟩
      | false => exact (List.isChain_cons_cons.mp h).2
    | _ => exact (List.isChain_cons_cons.mp h).2

/-- A letter that stands alone is not followed by a word. -/
theorem isWord_head_of_wordsApart {c : Char} {tokens : List Token}
    (h : WordsApart (withLetter c false tokens)) : tokens.head?.any isWord = false := by
  cases tokens with
  | nil => rfl
  | cons token rest =>
    cases token with
    | word letters => exact (List.isChain_cons_cons.mp h).1 rfl
    | _ => rfl

theorem head_removeBlanks (s : List Char) :
    (Text.removeBlanks s).head?.any Text.isBlank = false := by
  rw [Option.any_eq_false]
  intro c hc
  have hmem := List.mem_of_mem_head? hc
  simpa [Text.removeBlanks] using (List.mem_filter.mp hmem).2

theorem not_isBlank_head {s : List Char} (h : s.head?.any isLetter = true) :
    s.head?.any Text.isBlank = false := by
  rw [Option.any_eq_false]
  intro c hc
  rw [Bool.eq_false_iff]
  intro hblank
  rw [Option.mem_def.mp hc, Option.any_some, isLetter_eq_false_of_isBlank hblank] at h
  exact Bool.false_ne_true h

/-- Where no two words stand side by side, blanks part nothing. -/
theorem scan_removeBlanks {s : List Char} {tokens : List Token} (h : scan s = some tokens)
    (hapart : WordsApart tokens) : scan (Text.removeBlanks s) = some tokens := by
  induction s generalizing tokens with
  | nil => exact h
  | cons c rest ih =>
    by_cases hblank : Text.isBlank c = true
    · have hdense : Text.removeBlanks (c :: rest) = Text.removeBlanks rest := by
        simp [Text.removeBlanks, hblank]
      rw [scan, scanStep, isLetter_eq_false_of_isBlank hblank, if_neg Bool.false_ne_true,
        if_pos hblank] at h
      rw [hdense]
      exact ih h hapart
    · have hdense : Text.removeBlanks (c :: rest) = c :: Text.removeBlanks rest := by
        simp [Text.removeBlanks, hblank]
      rw [scan, scanStep] at h
      rw [hdense, scan, scanStep]
      by_cases hc : isLetter c = true
      · rw [if_pos hc, Option.map_eq_some_iff] at h ⊢
        obtain ⟨more, hrest, rfl⟩ := h
        have hmore := ih hrest (wordsApart_of_withLetter hapart)
        refine ⟨more, hmore, ?_⟩
        rw [← isWord_head_scan hmore (head_removeBlanks rest)]
        by_cases hjoined : rest.head?.any isLetter = true
        · rw [hjoined, isWord_head_scan hrest (not_isBlank_head hjoined), hjoined]
        · rw [Bool.eq_false_iff.mpr hjoined] at hapart ⊢
          rw [isWord_head_of_wordsApart hapart]
      · rw [if_neg hc, if_neg hblank] at h ⊢
        cases htoken : ofChar? c with
        | none => simp [htoken] at h
        | some token =>
          simp only [htoken, Option.map_eq_some_iff] at h ⊢
          obtain ⟨more, hrest, rfl⟩ := h
          exact ⟨more, ih hrest (List.IsChain.of_cons hapart), rfl⟩

theorem hasTopLevelSign_withLetter (c : Char) (joined : Bool) (tokens : List Token) (depth : Int) :
    hasTopLevelSign depth (withLetter c joined tokens) = hasTopLevelSign depth tokens := by
  unfold withLetter
  split
  · split_ifs <;> rfl
  · rfl

theorem plain_marks : "+-()".toList.all (fun c ↦ !isLetter c && !Text.isBlank c) = true := by
  decide

/-- The signs at the top level of a text are those of its tokens. -/
theorem hasTopLevelSign_eq {s : List Char} {tokens : List Token} (h : scan s = some tokens)
    (depth : Int) : Motion.hasTopLevelSign depth s = hasTopLevelSign depth tokens := by
  induction s generalizing tokens depth with
  | nil =>
    cases h
    rfl
  | cons c rest ih =>
    rw [scan, scanStep] at h
    -- Letters and blanks are neither signs nor parentheses.
    have hskip (hplain : isLetter c = true ∨ Text.isBlank c = true) :
        Motion.hasTopLevelSign depth (c :: rest) = Motion.hasTopLevelSign depth rest := by
      have hother : ∀ d ∈ "+-()".toList, c ≠ d := by
        rintro d hd rfl
        have hmark := List.all_eq_true.mp plain_marks c hd
        rcases hplain with hletter | hblank
        · simp [hletter] at hmark
        · simp [hblank] at hmark
      simp at hother
      simp [Motion.hasTopLevelSign, hother]
    by_cases hc : isLetter c = true
    · rw [if_pos hc, Option.map_eq_some_iff] at h
      obtain ⟨more, hrest, rfl⟩ := h
      rw [hskip (Or.inl hc), ih hrest, hasTopLevelSign_withLetter]
    · rw [if_neg hc] at h
      by_cases hblank : Text.isBlank c = true
      · rw [if_pos hblank] at h
        rw [hskip (Or.inr hblank), ih h]
      · rw [if_neg hblank] at h
        unfold ofChar? at h
        split at h
        · rename_i token htoken
          rw [Option.map_eq_some_iff] at h
          obtain ⟨more, hrest, rfl⟩ := h
          split at htoken <;> cases htoken <;>
            simp [Motion.hasTopLevelSign, hasTopLevelSign, isSign, depthAfter,
              Operator.isAdditive, ih hrest]
        · cases h

end Token

end Motion
