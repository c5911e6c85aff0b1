import Motion.Proofs.Number.RoundTrip

/-!
Reading programs. A program is a sequence of calls: a word, and numbers in parentheses with commas
between them. The text of a segment without vectors is such a call (`Segment.read?_text`), however
many numbers its handles have, and so the text of a program of such segments reads as its calls
(`Program.readAll?_text`). In the other direction the calls determine the text
(`Program.text_eq_calls`).
-/

set_option autoImplicit false
set_option relaxedAutoImplicit false

namespace Motion

/-- What reads each item of a list reads the list. -/
theorem mapM_eq_some_map {α β : Type} {f : α → Option β} {g : α → β} {l : List α}
    (h : ∀ a ∈ l, f a = some (g a)) : l.mapM f = some (l.map g) := by
  induction l with
  | nil => rfl
  | cons a l ih =>
    obtain ⟨ha, hrest⟩ := List.forall_mem_cons.mp h
    rw [List.mapM_cons, ha, ih hrest]
    rfl

/-- The items from a place on are the one in that place and the ones after it. -/
theorem of_drop_eq_cons {α : Type} {l rest : List α} {x : α} {n : ℕ} (h : l.drop n = x :: rest) :
    l[n]? = some x ∧ l.drop (n + 1) = rest := by
  rw [← List.head?_drop, ← List.tail_drop, h]
  exact ⟨rfl, rfl⟩

/-- What a list is read as has the length of the list, and each item is what that in its place is
read as. -/
theorem getElem?_of_mapM {α β : Type} {f : α → Option β} {l : List α} {results : List β}
    (h : l.mapM f = some results) :
    results.length = l.length ∧ ∀ i : ℕ, results[i]? = l[i]?.bind f := by
  induction l generalizing results with
  | nil =>
    cases h
    exact ⟨rfl, fun _ ↦ rfl⟩
  | cons a l ih =>
    rw [List.mapM_cons] at h
    obtain ⟨b, hb, h⟩ := Option.bind_eq_some_iff.mp h
    obtain ⟨more, hmore, h⟩ := Option.bind_eq_some_iff.mp h
    cases h
    obtain ⟨hlength, hget⟩ := ih hmore
    refine ⟨congrArg (· + 1) hlength, fun i ↦ ?_⟩
    cases i with
    | zero => exact hb.symm
    | succ i => exact hget i

/-- A call of a program, with its numbers by value. -/
structure Call where
  word : String
  numbers : List ℚ
deriving DecidableEq

namespace Call

/-- The value of the finite number that a text denotes. -/
def value? (s : List Char) : Option ℚ :=
  (Numeral.plain? s).bind fun x ↦ (Number.float x).toRat?

/-- The call that a text is. -/
def read? (s : List Char) : Option Call :=
  match s.dropWhile (· != '(') with
  | '(' :: rest =>
    if rest.getLast? = some ')' then
      ((rest.dropLast.splitOn ',').mapM value?).map
        (Call.mk (String.ofList (s.takeWhile (· != '('))))
    else none
  | _ => none

/-- The calls of a program, which are separated by spaces. -/
def readAll? (s : List Char) : Option (List Call) :=
  (s.splitOn ' ').mapM read?

/-- The text of a call. -/
def text (call : Call) : List Char :=
  call.word.toList ++
    '(' :: commaJoined (call.numbers.map fun q ↦ (Binary64.ofRat q).text) ++ [')']

theorem value?_text {x : Binary64} (hfinite : x.isFinite = true) :
    value? x.text = some x.toRat := by
  obtain ⟨y, hy, hvalue⟩ := Binary64.exists_plain?_text hfinite
  rw [value?, hy, Option.bind_some, hvalue]

/-- The word of a call is what stands in front of its first parenthesis. -/
theorem span_word {word : List Char} (hword : '(' ∉ word) (rest : List Char) :
    (word ++ '(' :: rest).takeWhile (· != '(') = word ∧
      (word ++ '(' :: rest).dropWhile (· != '(') = '(' :: rest := by
  have hopen : ∀ c ∈ word, (c != '(') = true := by
    intro c hc
    rw [bne_iff_ne]
    rintro rfl
    exact hword hc
  rw [List.takeWhile_append_of_pos hopen, List.dropWhile_append_of_pos hopen,
    List.takeWhile_cons_of_neg (by decide), List.append_nil]
  exact ⟨rfl, rfl⟩

/-- A word and texts of numbers in parentheses, none of them with a separator in it. -/
theorem read?_append {word : List Char} {texts : List (List Char)} (hword : '(' ∉ word)
    (hne : texts ≠ []) (hcomma : ∀ s ∈ texts, ',' ∉ s) :
    read? (word ++ '(' :: commaJoined texts ++ [')']) =
      (texts.mapM value?).map (Call.mk (String.ofList word)) := by
  obtain ⟨htake, hdrop⟩ := span_word hword (commaJoined texts ++ [')'])
  rw [List.append_assoc, List.cons_append, read?, hdrop, htake]
  simp only [List.getLast?_concat, if_true, List.dropLast_concat]
  rw [commaJoined, List.splitOn_intercalate ',' hcomma hne]

end Call

theorem commaJoined_singleton (s : List Char) : commaJoined [s] = s :=
  List.intercalate_singleton

/-- Two lists joined with a separator, and joined with it themselves. -/
theorem intercalate_append {α : Type} (c : α) {first second : List (List α)} (hfirst : first ≠ [])
    (hsecond : second ≠ []) :
    [c].intercalate (first ++ second) = [c].intercalate first ++ c :: [c].intercalate second := by
  induction first with
  | nil => exact absurd rfl hfirst
  | cons s rest ih =>
    rw [List.cons_append, List.intercalate_cons_of_ne_nil (by simp [hsecond])]
    by_cases hrest : rest = []
    · rw [hrest, List.intercalate_singleton, List.nil_append, List.append_assoc]
      rfl
    · rw [List.intercalate_cons_of_ne_nil hrest, ih hrest, List.append_assoc, List.append_assoc,
        List.append_assoc]

/-- Lists that are joined with a separator one by one, and then with it to one. -/
theorem intercalate_flatten {α : Type} (c : α) {groups : List (List (List α))}
    (h : ∀ texts ∈ groups, texts ≠ []) :
    [c].intercalate (groups.map [c].intercalate) = [c].intercalate groups.flatten := by
  induction groups with
  | nil => rfl
  | cons texts rest ih =>
    obtain ⟨htexts, hrest⟩ := List.forall_mem_cons.mp h
    by_cases hnil : rest = []
    · rw [hnil, List.map_singleton, List.flatten_singleton]
      exact List.intercalate_singleton
    · have hflatten : rest.flatten ≠ [] := by
        obtain ⟨s, more, rfl⟩ := List.exists_cons_of_ne_nil hnil
        rw [List.flatten_cons]
        exact List.append_ne_nil_of_left_ne_nil (hrest s List.mem_cons_self) _
      rw [List.flatten_cons, intercalate_append c htexts hflatten, ← ih hrest, List.map_cons]
      exact (List.intercalate_cons_of_ne_nil (by simpa using hnil)).trans
        (List.append_assoc _ _ _)

/-- Texts between commas, joined with commas. -/
theorem commaJoined_append {first second : List (List Char)} (hfirst : first ≠ [])
    (hsecond : second ≠ []) :
    commaJoined (first ++ second) = commaJoined first ++ ',' :: commaJoined second :=
  intercalate_append ',' hfirst hsecond

theorem mem_of_mem_commaJoined {texts : List (List Char)} {c : Char} (h : c ∈ commaJoined texts) :
    c = ',' ∨ ∃ s ∈ texts, c ∈ s := by
  induction texts with
  | nil => cases h
  | cons s rest ih =>
    by_cases hrest : rest = []
    · rw [hrest, commaJoined, List.intercalate_singleton] at h
      exact Or.inr ⟨s, List.mem_cons_self, h⟩
    · rw [commaJoined, List.intercalate_cons_of_ne_nil hrest, List.append_assoc,
        List.mem_append, List.mem_append, List.mem_singleton, ← commaJoined] at h
      rcases h with h | h | h
      · exact Or.inr ⟨s, List.mem_cons_self, h⟩
      · exact Or.inl h
      · exact (ih h).imp_right fun ⟨t, ht, hc⟩ ↦ ⟨t, List.mem_cons_of_mem s ht, hc⟩

theorem commaJoined_flatten {groups : List (List (List Char))} (h : ∀ texts ∈ groups, texts ≠ []) :
    commaJoined (groups.map commaJoined) = commaJoined groups.flatten :=
  intercalate_flatten ',' h

/-- The numbers of a handle coordinate. -/
def Handle.numbers : Handle → List Binary64
  | one value => [value]
  | each values => values

theorem Handle.text_eq (handle : Handle) :
    handle.text = commaJoined (handle.numbers.map Binary64.text) := by
  cases handle with
  | one value => exact (commaJoined_singleton value.text).symm
  | each values => rfl

/-- The coordinates of the handles in the order in which they are written. -/
def Handles.coordinates (handles : Handles) : List Handle :=
  [handles.outX, handles.outY, handles.inX, handles.inY]

namespace Segment

/-- The numbers of a segment in the order in which they are written. -/
def numbers : Segment → List Binary64
  | line time value => [time, value]
  | curve time value handles => time :: value :: handles.coordinates.flatMap Handle.numbers
  | finish time value => [time, value]
  | spatialCurve time start outward inward handles =>
    time :: start ++ outward ++ inward ++ handles.coordinates.flatMap Handle.numbers
  | spatialFinish time start => time :: start

/-- Whether a segment has numbers only: no vectors, and no coordinate of a handle without one. -/
def IsPlain : Segment → Prop
  | line .. => True
  | curve _ _ handles => ∀ coordinate ∈ handles.coordinates, coordinate.numbers ≠ []
  | finish .. => True
  | spatialCurve .. => False
  | spatialFinish .. => False

/-- The call that a segment stands for. -/
def call (segment : Segment) : Call :=
  ⟨String.ofList segment.head, segment.numbers.map Binary64.toRat⟩

variable {segment : Segment}

/-- The arguments of a segment are the texts of its numbers. -/
theorem IsPlain.arguments (h : segment.IsPlain) (precision : ℕ) :
    commaJoined (segment.arguments precision) =
      commaJoined (segment.numbers.map Binary64.text) := by
  cases segment with
  | line time value => rfl
  | finish time value => rfl
  | curve time value handles =>
    have hgroups : arguments precision (curve time value handles) =
        ([time.text] :: [value.text] ::
          handles.coordinates.map fun c ↦ c.numbers.map Binary64.text).map commaJoined := by
      simp [arguments, Handles.texts, Handles.coordinates, Handle.text_eq, commaJoined]
    have hnumbers : (numbers (curve time value handles)).map Binary64.text =
        ([time.text] :: [value.text] ::
          handles.coordinates.map fun c ↦ c.numbers.map Binary64.text).flatten := by
      simp [numbers, Handles.coordinates]
    have hne : ∀ texts ∈ [time.text] :: [value.text] ::
        handles.coordinates.map (fun c ↦ c.numbers.map Binary64.text), texts ≠ [] := by
      simpa [IsPlain] using h
    rw [hgroups, hnumbers, commaJoined_flatten hne]
  | spatialCurve => exact h.elim
  | spatialFinish => exact h.elim

theorem numbers_ne_nil (segment : Segment) : segment.numbers ≠ [] := by
  cases segment <;> exact List.cons_ne_nil _ _

theorem isAlpha_of_mem_head (segment : Segment) : ∀ c ∈ segment.head, c.isAlpha = true := by
  cases segment with
  | line => exact List.all_eq_true.mp (by decide : "line".toList.all Char.isAlpha = true)
  | curve => exact List.all_eq_true.mp (by decide : "curve".toList.all Char.isAlpha = true)
  | finish => exact List.all_eq_true.mp (by decide : "end".toList.all Char.isAlpha = true)
  | spatialCurve => exact List.all_eq_true.mp (by decide : "scurve".toList.all Char.isAlpha = true)
  | spatialFinish => exact List.all_eq_true.mp (by decide : "send".toList.all Char.isAlpha = true)

theorem IsPlain.text (h : segment.IsPlain) (precision : ℕ) :
    segment.text precision =
      segment.head ++ '(' :: commaJoined (segment.numbers.map Binary64.text) ++ [')'] := by
  rw [Segment.text, h.arguments]

/-- A segment without vectors reads as its call. -/
theorem read?_text (h : segment.IsPlain) (hfinite : ∀ x ∈ segment.numbers, x.isFinite = true)
    (precision : ℕ) : Call.read? (segment.text precision) = some segment.call := by
  have hword : '(' ∉ segment.head := fun hc ↦ by
    have := segment.isAlpha_of_mem_head _ hc
    cases this
  have hcomma : ∀ s ∈ segment.numbers.map Binary64.text, ',' ∉ s := by
    intro s hs hc
    obtain ⟨x, -, rfl⟩ := List.mem_map.mp hs
    have := Number.isNumberCharacter_of_mem_textChars _ _ hc
    cases this
  rw [h.text, Call.read?_append hword (by simpa using segment.numbers_ne_nil) hcomma,
    List.mapM_map, mapM_eq_some_map (f := Call.value? ∘ Binary64.text)
      fun x hx ↦ Call.value?_text (hfinite x hx)]
  rfl

/-- The call determines the text. -/
theorem text_eq_call (h : segment.IsPlain) (hfinite : ∀ x ∈ segment.numbers, x.isFinite = true)
    (precision : ℕ) : segment.text precision = segment.call.text := by
  have hnumbers : segment.numbers.map Binary64.text =
      (segment.numbers.map Binary64.toRat).map fun q ↦ (Binary64.ofRat q).text := by
    rw [List.map_map]
    refine List.map_congr_left fun x hx ↦ ?_
    rw [Function.comp_apply, Binary64.text_ofRat_toRat (hfinite x hx)]
  rw [h.text, Call.text, call, String.toList_ofList, hnumbers]

theorem space_not_mem_text (h : segment.IsPlain) (precision : ℕ) :
    ' ' ∉ segment.text precision := by
  have hcharacters : ∀ c ∈ segment.text precision,
      c.isAlpha = true ∨ isNumberCharacter c = true ∨ c ∈ ['(', ',', ')'] := by
    rw [h.text, List.append_assoc, List.cons_append]
    refine List.forall_mem_append.mpr ⟨fun c hc ↦ Or.inl (segment.isAlpha_of_mem_head c hc),
      List.forall_mem_cons.mpr ⟨by simp, List.forall_mem_append.mpr ⟨fun c hc ↦ ?_, by simp⟩⟩⟩
    rcases mem_of_mem_commaJoined hc with rfl | ⟨s, hs, hc⟩
    · simp
    · obtain ⟨x, -, rfl⟩ := List.mem_map.mp hs
      exact Or.inr (Or.inl (Number.isNumberCharacter_of_mem_textChars _ c hc))
  intro hc
  rcases hcharacters _ hc with h | h | h
  · cases h
  · cases h
  · simp at h

end Segment

namespace Program

variable {segments : List Segment}

theorem text_plain (segments : List Segment) (precision : ℕ) :
    text precision ⟨none, segments⟩ = [' '].intercalate (segments.map (Segment.text precision)) :=
  List.nil_append _

/-- The program of segments without vectors reads as their calls. -/
theorem readAll?_text (hne : segments ≠ []) (h : ∀ segment ∈ segments, segment.IsPlain)
    (hfinite : ∀ segment ∈ segments, ∀ x ∈ segment.numbers, x.isFinite = true) (precision : ℕ) :
    Call.readAll? (text precision ⟨none, segments⟩) = some (segments.map Segment.call) := by
  have hspace : ∀ s ∈ segments.map (Segment.text precision), ' ' ∉ s := by
    intro s hs
    obtain ⟨segment, hsegment, rfl⟩ := List.mem_map.mp hs
    exact Segment.space_not_mem_text (h segment hsegment) precision
  rw [text_plain, Call.readAll?, List.splitOn_intercalate ' ' hspace (by simpa), List.mapM_map]
  exact mapM_eq_some_map fun segment hsegment ↦
    Segment.read?_text (h segment hsegment) (hfinite segment hsegment) precision

/-- The calls determine the text of the program. -/
theorem text_eq_calls (h : ∀ segment ∈ segments, segment.IsPlain)
    (hfinite : ∀ segment ∈ segments, ∀ x ∈ segment.numbers, x.isFinite = true) (precision : ℕ) :
    text precision ⟨none, segments⟩ =
      [' '].intercalate ((segments.map Segment.call).map Call.text) := by
  rw [text_plain, List.map_map]
  congr 1
  exact List.map_congr_left fun segment hsegment ↦
    Segment.text_eq_call (h segment hsegment) (hfinite segment hsegment) precision

end Program

end Motion
