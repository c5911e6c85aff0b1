import Motion.Proofs.Scene.Values

/-!
Where texts are joined, their signs meet. Two equal signs next to each other would be one token of
a reader that takes the longest (`hasTwinSigns`). Joining puts none next to each other as long as no
expression begins with a plus sign or ends in a sign once its blanks are gone, nor has two equal
signs in a row then (`isSeamless`). So if all bindings of a scene are like that, none of the texts of
its transform properties has two equal signs in a row after merging
(`Data.collapse_hasTwinSigns`); without that they can (`Data.collapse_fusing`).
-/

set_option autoImplicit false
set_option relaxedAutoImplicit false

namespace Motion

/-- Plus and minus signs. -/
def isSign (c : Char) : Bool :=
  "+-".toList.contains c

/-- Whether two equal signs stand next to each other in a text. -/
def hasTwinSigns (s : List Char) : Bool :=
  occurs ['+', '+'] s || occurs ['-', '-'] s

/-- Whether a text can be joined to others without two equal signs meeting, if it stands in
parentheses where it begins with a minus sign. -/
def isSeamless (s : List Char) : Bool :=
  !hasTwinSigns s && !decide (s.head? = some '+') && !s.getLast?.any isSign

/-- Two characters that are not twin signs. -/
def IsApart (c d : Char) : Prop :=
  c = d → isSign c = false

/-- What holds of a text that can be joined to others. -/
structure IsSeamless (s : List Char) : Prop where
  apart : s.IsChain IsApart
  head : s.head? ≠ some '+'
  last : ∀ c ∈ s.getLast?, isSign c = false

/-- What holds of a text that can follow any operator. -/
structure IsOperand (s : List Char) : Prop extends IsSeamless s where
  minus : s.head? ≠ some '-'

theorem isSign_iff {c : Char} : isSign c = true ↔ c = '+' ∨ c = '-' := by
  simp [isSign]

theorem hasTwinSigns_cons_cons (c d : Char) (rest : List Char) :
    hasTwinSigns (c :: d :: rest) = (decide (c = d ∧ isSign c = true) || hasTwinSigns (d :: rest)) := by
  rw [Bool.eq_iff_iff]
  simp only [hasTwinSigns, occurs, List.isPrefixOf_cons_cons, List.isPrefixOf_nil_left, Bool.or_eq_true, Bool.and_eq_true,
    beq_iff_eq, decide_eq_true_eq, isSign_iff]
  grind

theorem hasTwinSigns_eq_false_iff {s : List Char} :
    hasTwinSigns s = false ↔ s.IsChain IsApart := by
  induction s with
  | nil => exact ⟨fun _ ↦ .nil, fun _ ↦ rfl⟩
  | cons c rest ih =>
    cases rest with
    | nil =>
      have hsingle : hasTwinSigns [c] = false := by simp [hasTwinSigns, occurs, List.isPrefixOf]
      exact ⟨fun _ ↦ .singleton c, fun _ ↦ hsingle⟩
    | cons d rest =>
      rw [hasTwinSigns_cons_cons, Bool.or_eq_false_iff, ih, List.isChain_cons_cons]
      simp [IsApart]

theorem isSeamless_iff {s : List Char} : isSeamless s = true ↔ IsSeamless s := by
  have hlast : s.getLast?.any isSign = false ↔ ∀ c ∈ s.getLast?, isSign c = false := by
    cases s.getLast? <;> simp
  simp only [isSeamless, Bool.and_eq_true, Bool.not_eq_true', decide_eq_false_iff_not,
    hasTwinSigns_eq_false_iff, hlast]
  exact ⟨fun ⟨⟨hapart, hhead⟩, hlast⟩ ↦ ⟨hapart, hhead, hlast⟩,
    fun h ↦ ⟨⟨h.apart, h.head⟩, h.last⟩⟩

section Joining

variable {first second : List Char} {c : Char}

theorem isApart_of_left {d : Char} (h : isSign c = false) : IsApart c d :=
  fun _ ↦ h

theorem isApart_of_right {d : Char} (h : isSign d = false) : IsApart c d := by
  rintro rfl
  exact h

/-- A text without signs can follow any operator. -/
theorem isOperand_of_signless {s : List Char} (h : ∀ c ∈ s, isSign c = false) : IsOperand s := by
  have hhead (c : Char) (hc : isSign c = true) : s.head? ≠ some c := by
    intro hsome
    rw [h c (List.mem_of_mem_head? hsome)] at hc
    cases hc
  refine ⟨⟨?_, hhead '+' (by decide), fun c hc ↦ h c (List.mem_of_mem_getLast? hc)⟩,
    hhead '-' (by decide)⟩
  induction s with
  | nil => exact .nil
  | cons c rest ih =>
    obtain ⟨hc, hrest⟩ := List.forall_mem_cons.mp h
    cases rest with
    | nil => exact .singleton c
    | cons d rest =>
      refine .cons_cons (isApart_of_left hc) (ih hrest fun e he hsome ↦ ?_)
      rw [hrest e (List.mem_of_mem_head? hsome)] at he
      cases he

/-- A text in parentheses can follow any operator. -/
theorem isOperand_parenthesis (h : first.IsChain IsApart) : IsOperand ('(' :: first ++ [')']) := by
  have hopening : ('(' :: first).IsChain IsApart := by
    refine List.isChain_cons.mpr ⟨fun d _ ↦ isApart_of_left (by decide), h⟩
  refine ⟨⟨?_, by simp, ?_⟩, by simp⟩
  · refine List.isChain_append.mpr ⟨hopening, .singleton _, fun d _ e he ↦ ?_⟩
    cases he
    exact isApart_of_right (by decide)
  · rw [List.getLast?_concat]
    rintro d ⟨⟩
    decide

/-- An operand after a sign, or another operator, and what stands before that. -/
theorem IsSeamless.join (hfirst : IsSeamless first) (hsecond : IsOperand second)
    (hne : second ≠ []) (hplus : first = [] → c ≠ '+') : IsSeamless (first ++ c :: second) where
  apart := by
    have hnext : (c :: second).IsChain IsApart := by
      refine List.isChain_cons.mpr ⟨fun d hd hcd ↦ Bool.eq_false_iff.mpr fun hsign ↦ ?_, hsecond.apart⟩
      rcases isSign_iff.mp hsign with rfl | rfl
      · exact hsecond.head (hcd ▸ hd)
      · exact hsecond.minus (hcd ▸ hd)
    exact List.isChain_append.mpr ⟨hfirst.apart, hnext, fun d hd e _ ↦
      isApart_of_left (hfirst.last d hd)⟩
  head := by
    cases first with
    | nil =>
      have hc := hplus rfl
      simpa using hc
    | cons d rest => exact hfirst.head
  last := by
    rw [List.getLast?_append_of_ne_nil _ (List.cons_ne_nil c second),
      List.getLast?_cons_of_ne_nil hne]
    exact hsecond.last

theorem IsOperand.join (hfirst : IsOperand first) (hsecond : IsOperand second) (hleft : first ≠ [])
    (hright : second ≠ []) : IsOperand (first ++ c :: second) where
  toIsSeamless := hfirst.toIsSeamless.join hsecond hright fun hnil ↦ absurd hnil hleft
  minus := by
    rw [List.head?_append_of_ne_nil _ hleft]
    exact hfirst.minus

theorem isSeamless_nil : IsSeamless [] :=
  (isOperand_of_signless (List.forall_mem_nil _)).toIsSeamless

end Joining

section Numbers

theorem isSign_of_isDigit {c : Char} (h : c.isDigit = true) : isSign c = false := by
  rw [Bool.eq_false_iff]
  intro hsign
  rcases isSign_iff.mp hsign with rfl | rfl <;> cases h

theorem isSign_of_mem_digitsOf {n : ℕ} {c : Char} (h : c ∈ Decimal.digitsOf n) :
    isSign c = false :=
  isSign_of_isDigit (Numeral.isDigit_of_mem_digitsOf h)

/-- A minus sign may stand in front of what can follow any operator. -/
theorem IsOperand.negative {s : List Char} (h : IsOperand s) (hne : s ≠ []) :
    IsSeamless ('-' :: s) :=
  isSeamless_nil.join h hne fun _ ↦ (by decide)

namespace Layout

theorem isSign_of_mem_zeros {n : ℕ} {c : Char} (h : c ∈ List.replicate n '0') :
    isSign c = false := by
  rw [List.eq_of_mem_replicate h]
  decide

theorem isOperand_exponent {mantissa : List Char} (h : ∀ c ∈ mantissa, isSign c = false) (c : Char)
    (width n : ℕ) : IsOperand (mantissa ++ 'e' :: c :: padded width n) := by
  have hmantissa : ∀ d ∈ mantissa ++ ['e'], isSign d = false :=
    List.forall_mem_append.mpr ⟨h, List.forall_mem_cons.mpr ⟨by decide, List.forall_mem_nil _⟩⟩
  have hpadded : ∀ d ∈ padded width n, isSign d = false :=
    List.forall_mem_append.mpr ⟨fun d ↦ isSign_of_mem_zeros, fun d ↦ isSign_of_mem_digitsOf⟩
  have hne : padded width n ≠ [] := by simp [padded, digitsOf_ne_nil]
  rw [List.append_cons]
  exact (isOperand_of_signless hmantissa).join (isOperand_of_signless hpadded) (by simp) hne

/-- A magnitude has one sign at most, that of its exponent. -/
theorem isOperand_magnitude {digits : List Char} (hdigits : ∀ c ∈ digits, isSign c = false)
    (point : ℤ) : IsOperand (expression.magnitude digits point) := by
  have hzero : isSign '0' = false := by decide
  have hpoint : isSign '.' = false := by decide
  unfold magnitude
  dsimp only
  split_ifs
  · exact isOperand_of_signless (List.forall_mem_append.mpr ⟨List.forall_mem_append.mpr
      ⟨hdigits, fun c ↦ isSign_of_mem_zeros⟩, List.forall_mem_nil _⟩)
  · exact isOperand_of_signless (List.forall_mem_append.mpr
      ⟨fun c hc ↦ hdigits c (List.mem_of_mem_take hc),
        List.forall_mem_cons.mpr ⟨hpoint, fun c hc ↦ hdigits c (List.mem_of_mem_drop hc)⟩⟩)
  · exact isOperand_of_signless (List.forall_mem_append.mpr ⟨List.forall_mem_cons.mpr
      ⟨hzero, List.forall_mem_cons.mpr ⟨hpoint, fun c ↦ isSign_of_mem_zeros⟩⟩, hdigits⟩)
  all_goals
    refine isOperand_exponent ?_ _ _ _
    split
    · exact List.forall_mem_nil _
    · exact hdigits
    · obtain ⟨hfirst, hrest⟩ := List.forall_mem_cons.mp hdigits
      exact List.forall_mem_cons.mpr ⟨hfirst, List.forall_mem_cons.mpr ⟨hpoint, hrest⟩⟩

end Layout

/-- The text of a number can be joined to others. -/
theorem isSeamless_textChars (n : Number) : IsSeamless n.textChars := by
  have hsigned {body : List Char} (h : IsOperand body ∧ body ≠ []) (negative : Bool) :
      IsSeamless (if negative then '-' :: body else body) := by
    split_ifs
    · exact h.1.negative h.2
    · exact h.1.toIsSeamless
  have hdigits (k : ℕ) : IsOperand (Decimal.digitsOf k) ∧ Decimal.digitsOf k ≠ [] :=
    ⟨isOperand_of_signless fun _ ↦ isSign_of_mem_digitsOf, digitsOf_ne_nil k⟩
  have hname (name : List Char) (h : name.all (fun c ↦ !isSign c) = true) (hne : name ≠ []) :
      IsOperand name ∧ name ≠ [] :=
    ⟨isOperand_of_signless fun c hc ↦ by simpa using List.all_eq_true.mp h c hc, hne⟩
  unfold Number.textChars
  cases n.normalize with
  | int i =>
    cases i with
    | ofNat k => exact (hdigits k).1.toIsSeamless
    | negSucc k => exact (hdigits (k + 1)).1.negative (hdigits (k + 1)).2
  | float x =>
    refine hsigned ?_ x.isNegative
    cases x with
    | nan => exact hname "NaN".toList (by decide) (by decide)
    | infinite negative => exact hname "Infinity".toList (by decide) (by decide)
    | finite negative exponent fraction =>
      exact ⟨Layout.isOperand_magnitude (fun _ ↦ isSign_of_mem_digitsOf) _,
        Layout.magnitude_ne_nil _ (digitsOf_ne_nil _) _⟩

end Numbers

section Operands

variable {value current : Data}

/-- A value whose bare expression can be joined to others can follow any operator once it is an
operand. -/
theorem isOperand_operandText (h : ∀ s, bareExpression? value = some s →
    IsSeamless (Text.removeBlanks s)) (op : Option Operator) : IsOperand (operandText value op) := by
  unfold operandText
  cases hs : bareExpression? value with
  | none => exact isOperand_of_signless (List.forall_mem_nil _)
  | some s =>
    have hdense := h s hs
    dsimp only
    split_ifs with hparentheses
    · exact isOperand_parenthesis hdense.apart
    · refine ⟨hdense, fun hminus ↦ hparentheses ?_⟩
      simp [needsParentheses, hminus]

/-- What is joined from operands can be joined to others. -/
theorem IsJoined.isSeamless {operator : Operator} {text : List Char}
    (h : IsJoined operator current value text) (hvalue : ∀ op, IsOperand (operandText value op))
    (hcurrent : ∀ op, IsOperand (operandText current op)) : IsSeamless text := by
  cases h with
  | operand => exact (hvalue _).toIsSeamless
  | opposite _ hne => exact (hvalue _).negative hne
  | both hleft hright =>
    have hsymbol : ∃ c, operator.symbol.toList = [c] := by cases operator <;> exact ⟨_, rfl⟩
    obtain ⟨c, hc⟩ := hsymbol
    rw [hc, ← List.append_cons]
    exact ((hcurrent _).join (hvalue _) hleft hright).toIsSeamless

/-- What holds of the values under tags while no expression in them makes twin signs: numbers,
bindings without blanks that can be joined, and special texts without twin signs. -/
def IsSeamlessOf : Kind → Data → Prop
  | .numeric, value => ∃ n, value = .num n
  | .binding, value => ∃ s, value.interior? = some s ∧ Text.removeBlanks s = s ∧ IsSeamless s
  | .special, value => ∀ s, value = .str s → hasTwinSigns s.toList = false

theorem IsSeamlessOf.isArithmetic {kind : Kind} (h : IsSeamlessOf kind value)
    (hkind : kind ≠ .special) : value.IsArithmetic := by
  cases kind with
  | numeric => exact Or.inl h
  | binding =>
    obtain ⟨s, hs, -⟩ := h
    exact Or.inr ⟨s, hs⟩
  | special => exact absurd rfl hkind

theorem IsSeamlessOf.isOperand {kind : Kind} (h : IsSeamlessOf kind value) (hkind : kind ≠ .special)
    (op : Option Operator) : IsOperand (operandText value op) := by
  refine isOperand_operandText (fun s hs ↦ ?_) op
  cases kind with
  | numeric =>
    obtain ⟨n, rfl⟩ := h
    have htext : Text.removeBlanks n.textChars = n.textChars := removeBlanks_of_isDense
      fun c hc ↦ isDense_of_isNumberCharacter (n.isNumberCharacter_of_mem_textChars c hc)
    rw [Data.eq_textChars hs, htext]
    exact isSeamless_textChars n
  | binding =>
    obtain ⟨interior, hinterior, hdense, hseamless⟩ := h
    rw [Data.bareExpression?_of_interior? hinterior, Option.some_inj] at hs
    rwa [← hs, hdense]
  | special => exact absurd rfl hkind

/-- Merging makes numbers of numbers and seamless bindings of seamless values. -/
theorem isKept_isSeamlessOf : IsKept IsSeamlessOf where
  number := fun n ↦ ⟨n, rfl⟩
  joined := by
    intro operator kind current value text hkind hvalue hcurrent hjoined
    have hbinding : Kind.binding ≠ .special := by decide
    have harithmetic : current = .null ∨ current.IsArithmetic :=
      hcurrent.imp_right fun h ↦ h.isArithmetic hbinding
    have hoperand (op : Option Operator) : IsOperand (operandText current op) := by
      rcases hcurrent with rfl | hcurrent
      · exact isOperand_of_signless (List.forall_mem_nil _)
      · exact hcurrent.isOperand hbinding op
    have hdense := hjoined.isDense (hvalue.isArithmetic hkind) harithmetic
    refine ⟨text, hjoined.interior? (hvalue.isArithmetic hkind) harithmetic,
      removeBlanks_of_isDense hdense, hjoined.isSeamless (hvalue.isOperand hkind) hoperand⟩

end Operands

namespace Data

/-- Whether merging a text makes no twin signs: a simple binding can be joined to others once its
blanks are gone, and any other text has no twin signs itself. -/
def isSeamlessText (s : String) : Bool :=
  match bindingInterior? s.toList with
  | some expression => isSeamless (Text.removeBlanks expression)
  | none => !hasTwinSigns s.toList

/-- The texts among the transform properties of a group. -/
def textsOf (members : Members) : List String :=
  members.filterMap fun member ↦
    match Property.ofName? member.1, member.2 with
    | some _, .str s => some s
    | _, _ => none

/-- The texts among the transform properties of all groups of a scene tree. -/
def transformTexts (tree : Data) : List String :=
  tree.groups.flatMap textsOf

theorem mem_transformTexts {tree : Data} {s : String} : s ∈ tree.transformTexts ↔
    ∃ members ∈ tree.groups, ∃ property, (Property.name property, .str s) ∈ members := by
  rw [transformTexts, List.mem_flatMap]
  refine exists_congr fun members ↦ and_congr_right fun _ ↦ ?_
  rw [textsOf, List.mem_filterMap]
  constructor
  · rintro ⟨⟨key, value⟩, hmember, htext⟩
    split at htext
    · rename_i property text hproperty hvalue
      have hname := Property.name_of_ofName? hproperty
      refine ⟨property, ?_⟩
      rw [hname, ← Option.some_inj.mp htext, ← hvalue]
      exact hmember
    · cases htext
  · rintro ⟨property, hmember⟩
    exact ⟨_, hmember, by rw [Property.ofName?_name]⟩

theorem isSeamlessOf_tagged {value : Data} (h : ∀ s, value = .str s → isSeamlessText s = true) :
    IsSeamlessOf value.kind value.tagged := by
  rcases value.tagged_cases with ⟨n, -, hkind, htagged⟩ |
    ⟨s, expression, rfl, hinterior, hkind, htagged⟩ | ⟨-, hinterior, hkind, htagged⟩
  · rw [htagged, hkind]
    exact ⟨n, rfl⟩
  · have hseamless := h s rfl
    unfold isSeamlessText at hseamless
    rw [show bindingInterior? s.toList = some expression from hinterior] at hseamless
    rw [hkind]
    exact ⟨_, htagged, removeBlanks_removeBlanks _, isSeamless_iff.mp hseamless⟩
  · rw [htagged, hkind]
    rintro s rfl
    have hseamless := h s rfl
    unfold isSeamlessText at hseamless
    rw [show bindingInterior? s.toList = none from hinterior] at hseamless
    simpa using hseamless

theorem hasTwinSigns_of_isSeamlessOf {kind : Kind} {s : String} (h : IsSeamlessOf kind (.str s)) :
    hasTwinSigns s.toList = false := by
  cases kind with
  | numeric =>
    obtain ⟨n, hn⟩ := h
    cases hn
  | binding =>
    obtain ⟨expression, hinterior, -, hseamless⟩ := h
    obtain ⟨hs, -⟩ := bindingInterior?_eq_some.mp hinterior
    have hopening : ('$' :: '\x7b' :: expression).IsChain IsApart :=
      List.isChain_cons.mpr ⟨fun d _ ↦ isApart_of_left (by decide),
        List.isChain_cons.mpr ⟨fun d _ ↦ isApart_of_left (by decide), hseamless.apart⟩⟩
    rw [hs, hasTwinSigns_eq_false_iff]
    refine List.isChain_append.mpr ⟨hopening, .singleton _, fun d _ e he ↦ ?_⟩
    cases he
    exact isApart_of_right (by decide)
  | special => exact h s rfl

/-- Merging transforms puts no two equal signs next to each other, as long as each binding can be
joined to others once its blanks are gone, and no other text has two equal signs in a row. -/
theorem collapse_hasTwinSigns {limit : Int} {tree result : Data}
    (htree : ∀ s ∈ tree.transformTexts, isSeamlessText s = true)
    (h : tree.collapse true limit = .ok result) :
    ∀ s ∈ result.transformTexts, hasTwinSigns s.toList = false := by
  intro s hs
  obtain ⟨members, hmembers, property, hmember⟩ := mem_transformTexts.mp hs
  have htagged : ∀ members ∈ tree.groups, ∀ property value,
      (Property.name property, value) ∈ members → value.isNull = false →
        IsSeamlessOf value.kind value.tagged := by
    intro members hmembers property value hmember _
    refine isSeamlessOf_tagged ?_
    rintro text rfl
    exact htree text (mem_transformTexts.mpr ⟨members, hmembers, property, hmember⟩)
  obtain ⟨kind, hkind⟩ :=
    collapse_values isKept_isSeamlessOf htagged h members hmembers property (.str s) hmember
  exact hasTwinSigns_of_isSeamlessOf hkind

/-- A group that turns by a negative angle about a pivot, around one that is shifted by a difference
and by a negative number. -/
def signedScene : Data :=
  .obj [("items", .list [.obj [("type", .str "group"), ("rotation", .str (Scalar.binding "- r")),
    ("pivotX", .num (.int (-4))), ("items", .list [.obj [("type", .str "group"),
      ("translateX", .str (Scalar.binding "-x - y")), ("translateY", .num (.int (-3))),
      ("items", .list [.obj [("type", .str "path")], .obj [("type", .str "path")]])]])]])]

theorem collapse_hasTwinSigns_signed :
    (∀ s ∈ signedScene.transformTexts, isSeamlessText s = true) ∧ ∃ result,
      signedScene.collapse true 256 = .ok result ∧ result.transformTexts.length = 3 ∧
        ∀ s ∈ result.transformTexts, hasTwinSigns s.toList = false := by
  have hseamless : ∀ s ∈ signedScene.transformTexts, isSeamlessText s = true := by decide +kernel
  have htexts : (signedScene.collapse true 256).toOption.map
      (fun result ↦ result.transformTexts.length) = some 3 := by decide +kernel
  refine ⟨hseamless, ?_⟩
  cases hresult : signedScene.collapse true 256 with
  | error fault =>
    rw [hresult] at htexts
    cases htexts
  | ok result =>
    rw [hresult] at htexts
    exact ⟨result, rfl, Option.some_inj.mp htexts, collapse_hasTwinSigns hseamless hresult⟩

/-- A difference of a negative, with a blank between the signs, and a name with a plus sign in front
around another name. -/
def fusingScene : Data :=
  .obj [("items", .list [.obj [("type", .str "group"), ("translateX", .str (Scalar.binding "a - -b")),
    ("translateY", .str (Scalar.binding "+a")), ("items", .list [.obj [("type", .str "group"),
      ("translateY", .str (Scalar.binding "b")),
      ("items", .list [.obj [("type", .str "path")], .obj [("type", .str "path")]])]])]])]

theorem collapse_fusing :
    (∀ s ∈ fusingScene.transformTexts, hasTwinSigns s.toList = false) ∧ ∃ result,
      fusingScene.collapse true 256 = .ok result ∧
        result.transformTexts = ["$\x7ba--b\x7d", "$\x7bb++a\x7d"] ∧
          ∀ s ∈ result.transformTexts, hasTwinSigns s.toList = true := by
  have htexts : (fusingScene.collapse true 256).toOption.map transformTexts =
      some ["$\x7ba--b\x7d", "$\x7bb++a\x7d"] := by decide +kernel
  refine ⟨by decide +kernel, ?_⟩
  cases hresult : fusingScene.collapse true 256 with
  | error fault =>
    rw [hresult] at htexts
    cases htexts
  | ok result =>
    rw [hresult] at htexts
    have hresults := Option.some_inj.mp htexts
    refine ⟨result, rfl, hresults, ?_⟩
    rw [hresults]
    decide

end Data

end Motion
