import Motion.Proofs.Data.Entries
import Motion.Proofs.Scene.Operand
import Motion.Scene.Tagging

/-!
What the values of transform properties amount to. An integer amounts to itself, a binding to the
value of its expression and any other value to whatever the assignment says; a property that is not
given amounts to what changes nothing (`reading`). Dropping what does not show keeps the readings,
except that of a pivot about which nothing turns or scales.
-/

set_option autoImplicit false
set_option relaxedAutoImplicit false

namespace Motion

namespace Data

/-- The expression that a value of a property stands for, unless it is a number that is no integer
or a binding that is not well-formed. -/
def expression? (value : Data) : Option Expression :=
  match value.number? with
  | some (.int i) => some (.number i)
  | some (.float _) => none
  | none =>
    match value.interior? with
    | some s => Expression.read? s
    | none => some (.special value)

/-- The number that a value of a property stands for; zero if it stands for none. -/
def amount (env : Assignment) (value : Data) : ℚ :=
  value.expression?.elim 0 (Expression.eval env)

/-- One more than the magnitude of a value that is an integer. -/
def size (value : Data) : ℕ :=
  match value.number? with
  | some (.int i) => i.natAbs + 1
  | _ => 1

theorem amount_of_expression? {value : Data} {e : Expression} (h : value.expression? = some e)
    (env : Assignment) : value.amount env = e.eval env := by
  rw [amount, h, Option.elim_some]

theorem one_le_size (value : Data) : 1 ≤ value.size := by
  unfold size
  split <;> omega

theorem expression?_of_number? {value : Data} {i : ℤ} (h : value.number? = some (.int i)) :
    value.expression? = some (.number i) := by
  rw [expression?, h]

theorem size_of_number? {value : Data} {i : ℤ} (h : value.number? = some (.int i)) :
    value.size = i.natAbs + 1 := by
  rw [size, h]

theorem size_of_number?_none {value : Data} (h : value.number? = none) : value.size = 1 := by
  rw [size, h]

theorem number?_int (i : ℤ) : (Data.num (.int i)).number? = some (.int i) :=
  rfl

theorem IsBindingOf.expression? {value : Data} {e : Expression} (h : value.IsBindingOf e) :
    value.expression? = some e := by
  obtain ⟨s, hs, hread⟩ := h
  rw [Data.expression?, number?_eq_none hs, hs]
  exact hread

theorem IsBindingOf.size {value : Data} {e : Expression} (h : value.IsBindingOf e) :
    value.size = 1 :=
  size_of_number?_none (number?_eq_none h.choose_spec.1)

/-- What holds of a value under a tag of the given kind: it is an integer, a binding with a
well-formed expression, or neither a number nor a binding nor null. -/
def IsOf : Kind → Data → Prop
  | .numeric, value => ∃ i : ℤ, value = .num (.int i)
  | .binding, value => ∃ e, value.IsBindingOf e
  | .special, value => value.number? = none ∧ value.interior? = none ∧ value.isNull = false

theorem IsOf.expression? {kind : Kind} {value : Data} (h : value.IsOf kind) :
    ∃ e, value.expression? = some e := by
  cases kind with
  | numeric =>
    obtain ⟨i, rfl⟩ := h
    exact ⟨_, expression?_of_number? (number?_int i)⟩
  | binding =>
    obtain ⟨e, he⟩ := h
    exact ⟨e, he.expression?⟩
  | special => exact ⟨.special value, by rw [Data.expression?, h.1, h.2.1]⟩

theorem IsOf.isNull {kind : Kind} {value : Data} (h : value.IsOf kind) : value.isNull = false := by
  cases kind with
  | numeric =>
    obtain ⟨i, rfl⟩ := h
    rfl
  | binding =>
    obtain ⟨e, s, hs, -⟩ := h
    cases value with
    | str _ => rfl
    | _ => cases hs
  | special => exact h.2.2

/-- A number or binding stands for what it amounts to. -/
theorem IsOf.standsFor {kind : Kind} {value : Data} (h : value.IsOf kind) (hkind : kind ≠ .special) :
    value.StandsFor fun env ↦ value.amount env := by
  cases kind with
  | numeric =>
    obtain ⟨i, rfl⟩ := h
    exact Or.inl ⟨i, rfl, amount_of_expression? (expression?_of_number? (number?_int i))⟩
  | binding =>
    obtain ⟨e, he⟩ := h
    exact Or.inr ⟨e, he, amount_of_expression? he.expression?⟩
  | special => exact absurd rfl hkind

theorem interior?_tagged {s : String} {expression : List Char}
    (h : (Data.str s).interior? = some expression) :
    (Data.str (String.ofList (Text.removeBlanks s.toList))).interior? =
      some (Text.removeBlanks expression) := by
  obtain ⟨hs, hall⟩ := bindingInterior?_eq_some.mp h
  refine bindingInterior?_eq_some.mpr ⟨?_, all_removeBlanks hall⟩
  have hopen : Text.isBlank '$' = false ∧ Text.isBlank '\x7b' = false := by decide
  have hclose : Text.isBlank '\x7d' = false := by decide
  rw [String.toList_ofList, hs]
  simp [Text.removeBlanks, hopen, hclose]

theorem tagged_of_number? {value : Data} {n : Number} (h : value.number? = some n) :
    value.tagged = .num n ∧ value.kind = .numeric := by
  constructor
  · unfold tagged
    rw [h]
  · rw [kind, isNumeric, h]
    rfl

theorem tagged_of_interior? {s : String} {expression : List Char}
    (h : (Data.str s).interior? = some expression) :
    (Data.str s).tagged = .str (String.ofList (Text.removeBlanks s.toList)) := by
  unfold tagged
  rw [number?_eq_none h]
  dsimp only
  rw [isSimpleBinding, h]
  rfl

theorem tagged_of_special {value : Data} (hnumber : value.number? = none)
    (hinterior : value.interior? = none) : value.tagged = value ∧ value.kind = .special := by
  constructor
  · unfold tagged
    rw [hnumber]
    cases value with
    | str s => simp [isSimpleBinding, hinterior]
    | _ => rfl
  · rw [kind, isNumeric, isSimpleBinding, hnumber, hinterior]
    rfl

/-- What a value is under its tag: the number that it denotes, the binding without its blanks, or what it
is anyway. -/
theorem tagged_cases (value : Data) :
    (∃ n, value.number? = some n ∧ value.kind = .numeric ∧ value.tagged = .num n) ∨
      (∃ s expression, value = .str s ∧ value.interior? = some expression ∧ value.kind = .binding ∧
        value.tagged.interior? = some (Text.removeBlanks expression)) ∨
      (value.number? = none ∧ value.interior? = none ∧ value.kind = .special ∧
        value.tagged = value) := by
  cases hnumber : value.number? with
  | some n =>
    obtain ⟨htagged, hkind⟩ := tagged_of_number? hnumber
    exact Or.inl ⟨n, rfl, hkind, htagged⟩
  | none =>
    cases hinterior : value.interior? with
    | some expression =>
      cases value with
      | str s => exact Or.inr (Or.inl ⟨s, expression, rfl, rfl, kind_of_interior? hinterior,
          tagged_of_interior? hinterior ▸ interior?_tagged hinterior⟩)
      | _ => cases hinterior
    | none =>
      obtain ⟨htagged, hkind⟩ := tagged_of_special hnumber hinterior
      exact Or.inr (Or.inr ⟨rfl, rfl, hkind, htagged⟩)

theorem removeBlanks_removeBlanks (s : List Char) :
    Text.removeBlanks (Text.removeBlanks s) = Text.removeBlanks s :=
  List.filter_eq_self.mpr fun _ hc ↦ (List.mem_filter.mp hc).2

/-- Under its tag a value is of its kind, and it amounts to the same and has the same size. -/
theorem isOf_tagged {value : Data} {e : Expression} (h : value.expression? = some e)
    (hnull : value.isNull = false) :
    value.tagged.IsOf value.kind ∧ (∀ env, value.tagged.amount env = value.amount env) ∧
      value.tagged.size = value.size := by
  unfold expression? at h
  rcases value.tagged_cases with ⟨n, hnumber, hkind, htagged⟩ |
    ⟨text, s, rfl, hinterior, hkind, htagged⟩ | ⟨hnumber, hinterior, hkind, htagged⟩
  · rw [hnumber] at h
    cases n with
    | float x => cases h
    | int i =>
      rw [hkind, htagged]
      refine ⟨⟨i, rfl⟩, fun env ↦ ?_, ?_⟩
      · rw [amount_of_expression? (expression?_of_number? (number?_int i)),
          amount_of_expression? (expression?_of_number? hnumber)]
      · rw [size_of_number? (number?_int i), size_of_number? hnumber]
  · rw [number?_eq_none hinterior, hinterior] at h
    have hbinding : (Data.str text).IsBindingOf e := ⟨s, hinterior, h⟩
    have hdense : (Data.str text).tagged.IsBindingOf e :=
      ⟨_, htagged, Expression.read?_removeBlanks h⟩
    rw [hkind]
    refine ⟨⟨e, hdense⟩, fun env ↦ ?_, hdense.size.trans hbinding.size.symm⟩
    rw [amount_of_expression? hdense.expression?, amount_of_expression? hbinding.expression?]
  · rw [hkind, htagged]
    exact ⟨⟨hnumber, hinterior, hnull⟩, fun _ ↦ rfl, rfl⟩

end Data

section Size

variable {κ : Type} [DecidableEq κ]

/-- The size of the value under a key. -/
def sizeAt (entries : Entries κ Data) (key : κ) : ℕ :=
  (Entries.get? entries key).elim 1 Data.size

theorem one_le_sizeAt (entries : Entries κ Data) (key : κ) : 1 ≤ sizeAt entries key := by
  unfold sizeAt
  cases Entries.get? entries key with
  | none => exact le_refl 1
  | some value => exact value.one_le_size

theorem sizeAt_of_some {entries : Entries κ Data} {key : κ} {value : Data}
    (h : Entries.get? entries key = some value) : sizeAt entries key = value.size := by
  rw [sizeAt, h, Option.elim_some]

theorem sizeAt_of_none {entries : Entries κ Data} {key : κ} (h : Entries.get? entries key = none) :
    sizeAt entries key = 1 := by
  rw [sizeAt, h, Option.elim_none]

/-- Entries that hold the same value under a key have the same size there. -/
theorem sizeAt_congr {entries others : Entries κ Data} {key : κ}
    (h : Entries.get? entries key = Entries.get? others key) :
    sizeAt entries key = sizeAt others key := by
  rw [sizeAt, sizeAt, h]

theorem sizeAt_put (entries : Entries κ Data) (key : κ) (value : Data) (other : κ) :
    sizeAt (Entries.put entries key value) other =
      if key = other then value.size else sizeAt entries other := by
  rw [sizeAt, Entries.get?_put]
  split_ifs
  · rfl
  · rfl

theorem sizeAt_filter {entries : Entries κ Data} (hnodup : (Entries.keys entries).Nodup)
    (keep : κ × Data → Bool) (key : κ) : sizeAt (entries.filter keep) key ≤ sizeAt entries key := by
  rw [sizeAt, sizeAt, Entries.get?_filter hnodup]
  cases Entries.get? entries key with
  | none => exact le_refl 1
  | some value =>
    rw [Option.filter_some]
    split_ifs
    · exact le_refl _
    · exact value.one_le_size

end Size

variable {κ : Type} [HasFamily κ]

/-- What a property amounts to where nothing is given. -/
def neutral (key : κ) : ℚ :=
  if (family? key).any Family.isMultiplicative then 1 else 0

theorem mergeOperator_eq (key : κ) :
    mergeOperator key = .mul ∧ neutral key = 1 ∨ mergeOperator key = .add ∧ neutral key = 0 := by
  unfold mergeOperator neutral
  by_cases h : (family? key).any Family.isMultiplicative = true
  · exact Or.inl ⟨if_pos h, if_pos h⟩
  · exact Or.inr ⟨if_neg h, if_neg h⟩

theorem apply_neutral_left (key : κ) (x : ℚ) : (mergeOperator key).apply (neutral key) x = x := by
  rcases mergeOperator_eq key with ⟨hop, hneutral⟩ | ⟨hop, hneutral⟩
  · rw [hop, hneutral]
    exact one_mul x
  · rw [hop, hneutral]
    exact zero_add x

theorem apply_comm (key : κ) (x y : ℚ) :
    (mergeOperator key).apply x y = (mergeOperator key).apply y x := by
  rcases mergeOperator_eq key with ⟨hop, -⟩ | ⟨hop, -⟩
  · rw [hop]
    exact mul_comm x y
  · rw [hop]
    exact add_comm x y

theorem apply_neutral_right (key : κ) (x : ℚ) : (mergeOperator key).apply x (neutral key) = x := by
  rw [apply_comm, apply_neutral_left]

theorem neutral_of_neutral? {key : κ} {n : ℤ} (h : (family? key).bind Family.neutral? = some n) :
    neutral key = n := by
  unfold neutral
  cases hfamily : family? key with
  | none =>
    rw [hfamily] at h
    cases h
  | some family =>
    rw [hfamily] at h
    cases family <;> cases h <;> simp [Family.isMultiplicative]

/-- A value that counts as neutral amounts to what changes nothing. -/
theorem amount_of_isNeutral {key : κ} {value : Data} (h : isNeutral key value = true)
    {e : Expression} (he : value.expression? = some e) (env : Assignment) :
    value.amount env = neutral key := by
  unfold isNeutral at h
  cases hneutral : (family? key).bind Family.neutral? with
  | none => simp [hneutral] at h
  | some n =>
    cases hnumber : value.number? with
    | none => simp [hneutral, hnumber] at h
    | some x =>
      rw [hneutral, hnumber] at h
      cases x with
      | float y => simp [Data.expression?, hnumber] at he
      | int i =>
        rw [Data.amount_of_expression? (Data.expression?_of_number? hnumber),
          neutral_of_neutral? hneutral, Number.same_int.mp h]
        rfl

theorem isNeutral_null (key : κ) : isNeutral key .null = false := by
  unfold isNeutral
  cases (family? key).bind Family.neutral? <;> rfl

variable [DecidableEq κ]

/-- What a property amounts to; null counts as nothing given. -/
def reading (env : Assignment) (entries : Entries κ Data) (key : κ) : ℚ :=
  (present? entries key).elim (neutral key) (Data.amount env)

/-- Entries with distinct keys, where every property that is given stands for something. -/
structure IsReadable (entries : Entries κ Data) : Prop where
  nodup : (Entries.keys entries).Nodup
  readable : ∀ key value, (family? key).isSome → Entries.get? entries key = some value →
    ∃ e, value.expression? = some e

section Reading

variable {env : Assignment} {entries : Entries κ Data} {key : κ}

theorem reading_of_none (h : Entries.get? entries key = none) :
    reading env entries key = neutral key := by
  rw [reading, present?, h]
  rfl

theorem reading_of_null (h : Entries.get? entries key = some .null) :
    reading env entries key = neutral key := by
  rw [reading, present?, h]
  rfl

theorem reading_of_some {value : Data} (h : Entries.get? entries key = some value)
    (hnull : value.isNull = false) : reading env entries key = value.amount env := by
  have hpresent : present? entries key = some value := by
    rw [present?, h]
    cases value with
    | null => cases hnull
    | _ => rfl
  rw [reading, hpresent, Option.elim_some]

/-- Entries that hold the same value under a key amount to the same there. -/
theorem reading_congr {others : Entries κ Data}
    (h : Entries.get? entries key = Entries.get? others key) :
    reading env entries key = reading env others key := by
  rw [reading, reading, present?, present?, h]

theorem reading_put {value : Data} (hnull : value.isNull = false) (other : κ) :
    reading env (Entries.put entries key value) other =
      if key = other then value.amount env else reading env entries other := by
  split_ifs with h
  · subst h
    exact reading_of_some (Entries.get?_put_self entries key value) hnull
  · exact reading_congr (Entries.get?_put_of_ne h entries value)

/-- A value that counts as neutral is as good as none. -/
theorem reading_of_isNeutral (h : IsReadable entries) {value : Data}
    (hget : Entries.get? entries key = some value) (hneutral : isNeutral key value = true) :
    reading env entries key = neutral key := by
  have hfamily : (family? key).isSome := by
    unfold isNeutral at hneutral
    cases hfamily : family? key with
    | none => simp [hfamily] at hneutral
    | some family => rfl
  have hnull : value.isNull = false := by
    cases value with
    | null => simp [isNeutral_null] at hneutral
    | _ => rfl
  obtain ⟨e, he⟩ := h.readable key value hfamily hget
  rw [reading_of_some hget hnull, amount_of_isNeutral hneutral he]

/-- Dropping entries that are null or neutral under a key, if at all, keeps the reading there. -/
theorem reading_filter (h : IsReadable entries) {keep : κ × Data → Bool}
    (hkeep : ∀ value, keep (key, value) = false → value = .null ∨ isNeutral key value = true) :
    reading env (entries.filter keep) key = reading env entries key := by
  have hfilter := Entries.get?_filter h.nodup keep key
  cases hget : Entries.get? entries key with
  | none =>
    rw [hget] at hfilter
    rw [reading_of_none hget, reading_of_none hfilter]
  | some value =>
    rw [hget, Option.filter_some] at hfilter
    cases hkept : keep (key, value) with
    | true =>
      rw [if_pos hkept] at hfilter
      exact reading_congr (hfilter.trans hget.symm)
    | false =>
      rw [if_neg (Bool.eq_false_iff.mp hkept)] at hfilter
      rw [reading_of_none hfilter]
      rcases hkeep value hkept with rfl | hneutral
      · exact (reading_of_null hget).symm
      · exact (reading_of_isNeutral h hget hneutral).symm

/-- Pruning keeps every reading but those of unused pivots. -/
theorem reading_prune (h : IsReadable entries)
    (hkey : pivotUsed entries = true ∨ family? key ≠ some .pivot) :
    reading env (prune entries) key = reading env entries key := by
  refine reading_filter h fun value hvalue ↦ Or.inr ?_
  unfold shows at hvalue
  rcases hkey with hused | hfamily
  · simpa [hused] using hvalue
  · simpa [hfamily] using hvalue

/-- Pruning keeps clip paths, which are never neutral. -/
theorem get?_prune_of_clipPath (hnodup : (Entries.keys entries).Nodup)
    (hkey : family? key = some .clipPath) :
    Entries.get? (prune entries) key = Entries.get? entries key := by
  have hshows (value : Data) : shows (pivotUsed entries) (key, value) = true := by
    simp [shows, isNeutral, hkey, Family.neutral?]
  rw [prune, Entries.get?_filter hnodup]
  cases Entries.get? entries key with
  | none => rfl
  | some value => rw [Option.filter_some, if_pos (hshows value)]

/-- Where the pivot is not used, no rotation and no scale changes anything. -/
theorem reading_of_pivotUsed_eq_false (h : IsReadable entries) (hused : pivotUsed entries = false)
    (hkey : family? key = some .rotation ∨ family? key = some .scale) :
    reading env entries key = neutral key := by
  cases hget : Entries.get? entries key with
  | none => exact reading_of_none hget
  | some value =>
    have hneutral : isNeutral key value = true := by
      by_contra hshown
      have hmem : (key, value) ∈ entries.filter fun entry ↦ !isNeutral entry.1 entry.2 :=
        List.mem_filter.mpr ⟨Entries.mem_of_get? hget, by simpa using hshown⟩
      have hunused := List.any_eq_false.mp hused _ hmem
      rcases hkey with hkey | hkey <;> simp [hkey] at hunused
    exact reading_of_isNeutral h hget hneutral

/-- Every property stands for something, entry by entry. -/
theorem isReadable_iff : IsReadable entries ↔ (Entries.keys entries).Nodup ∧
    ∀ entry ∈ entries, (family? entry.1).isSome → entry.2.expression?.isSome := by
  constructor
  · intro h
    refine ⟨h.nodup, fun entry hentry hfamily ↦ ?_⟩
    exact Option.isSome_iff_exists.mpr
      (h.readable entry.1 entry.2 hfamily (Entries.get?_of_mem h.nodup hentry))
  · rintro ⟨hnodup, hreadable⟩
    refine ⟨hnodup, fun other value hfamily hget ↦ ?_⟩
    exact Option.isSome_iff_exists.mp
      (hreadable (other, value) (Entries.mem_of_get? hget) hfamily)

instance : Decidable (IsReadable entries) :=
  decidable_of_iff' _ isReadable_iff

theorem IsReadable.filter (h : IsReadable entries) (keep : κ × Data → Bool) :
    IsReadable (entries.filter keep) where
  nodup := Entries.nodup_keys_filter h.nodup keep
  readable := by
    intro other value hfamily hget
    rw [Entries.get?_filter h.nodup] at hget
    exact h.readable other value hfamily (Option.eq_some_of_filter_eq_some hget)

end Reading

end Motion
