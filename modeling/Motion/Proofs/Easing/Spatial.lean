import Motion.Proofs.Easing.Encoding
import Motion.Proofs.Number.Places

/-!
What the program of a component says whose property moves along a path in space. It announces the
component, and then each keyframe has one call, in order, with the whole vector that it starts with
(`spatialCallAt?`): the last one stays there, another one leads on with its tangents and with the
component's handles. The induction is that over the segments of a component of its own
(`plainSegments_eq_ok`), with vectors carried along in place of values.

The arguments are kept as they are written, since components are rounded there. As each of them is a
number, the text reads as these calls; and since the announcement reads as well, programs of two
components differ and have two tokens, for as long as the table is not reset.
-/

set_option autoImplicit false
set_option relaxedAutoImplicit false

namespace Motion

/-- A call of a program, with its arguments as they are written. -/
structure TextCall where
  word : String
  arguments : List (List Char)
deriving DecidableEq

namespace TextCall

/-- The text of a call. -/
def text (call : TextCall) : List Char :=
  call.word.toList ++ '(' :: commaJoined call.arguments ++ [')']

/-- The call that a text is. -/
def read? (s : List Char) : Option TextCall :=
  match s.dropWhile (· != '(') with
  | '(' :: rest =>
    if rest.getLast? = some ')' then
      some ⟨String.ofList (s.takeWhile (· != '(')), rest.dropLast.splitOn ','⟩
    else none
  | _ => none

/-- The calls of a program, which are separated by spaces. -/
def readAll? (s : List Char) : Option (List TextCall) :=
  (s.splitOn ' ').mapM read?

/-- Whether a call has the given word and so many arguments, each of them a number. -/
structure Has (call : TextCall) (word : String) (count : ℕ) : Prop where
  word : call.word = word
  length : call.arguments.length = count
  numeric : ∀ argument ∈ call.arguments, (Numeral.literal? argument).isSome = true

/-- Whether a call has a word of letters, and arguments, each of them a number. -/
structure IsClear (call : TextCall) : Prop where
  isAlpha : ∀ c ∈ call.word.toList, c.isAlpha = true
  ne_nil : call.arguments ≠ []
  numeric : ∀ argument ∈ call.arguments, (Numeral.literal? argument).isSome = true

variable {call : TextCall} {calls : List TextCall}

theorem Has.isClear {word : String} {count : ℕ} (h : call.Has word count)
    (hword : word.toList.all Char.isAlpha = true) (hcount : 0 < count) : call.IsClear where
  isAlpha := by
    rw [h.word]
    exact List.all_eq_true.mp hword
  ne_nil := List.ne_nil_of_length_pos (h.length ▸ hcount)
  numeric := h.numeric

theorem IsClear.read?_text (h : call.IsClear) : read? call.text = some call := by
  have hword : '(' ∉ call.word.toList := fun hc ↦ by
    have := h.isAlpha _ hc
    cases this
  have hcomma : ∀ s ∈ call.arguments, ',' ∉ s := fun s hs hc ↦ by
    have := Numeral.isNumberCharacter_of_literal? (h.numeric s hs) _ hc
    cases this
  obtain ⟨htake, hdrop⟩ := Call.span_word hword (commaJoined call.arguments ++ [')'])
  rw [text, List.append_assoc, List.cons_append, read?, hdrop, htake]
  simp only [List.getLast?_concat, if_true, List.dropLast_concat]
  rw [commaJoined, List.splitOn_intercalate ',' hcomma h.ne_nil, String.ofList_toList]

theorem IsClear.space_not_mem (h : call.IsClear) : ' ' ∉ call.text := by
  have hcharacters : ∀ c ∈ call.text,
      c.isAlpha = true ∨ isNumberCharacter c = true ∨ c ∈ ['(', ',', ')'] := by
    rw [text, List.append_assoc, List.cons_append]
    refine List.forall_mem_append.mpr ⟨fun c hc ↦ Or.inl (h.isAlpha c hc),
      List.forall_mem_cons.mpr ⟨by simp, List.forall_mem_append.mpr ⟨fun c hc ↦ ?_, by simp⟩⟩⟩
    rcases mem_of_mem_commaJoined hc with rfl | ⟨s, hs, hc⟩
    · simp
    · exact Or.inr (Or.inl (Numeral.isNumberCharacter_of_literal? (h.numeric s hs) c hc))
  intro hc
  rcases hcharacters _ hc with h | h | h
  · cases h
  · cases h
  · simp at h

/-- Calls with spaces between them read as they are. -/
theorem readAll?_text (hne : calls ≠ []) (h : ∀ call ∈ calls, call.IsClear) :
    readAll? ([' '].intercalate (calls.map text)) = some calls := by
  have hspace : ∀ s ∈ calls.map text, ' ' ∉ s := by
    intro s hs
    obtain ⟨call, hcall, rfl⟩ := List.mem_map.mp hs
    exact (h call hcall).space_not_mem
  have hread : calls.mapM (read? ∘ text) = some (calls.map id) :=
    mapM_eq_some_map fun call hcall ↦ (h call hcall).read?_text
  rw [readAll?, List.splitOn_intercalate ' ' hspace (by simpa), List.mapM_map, hread, List.map_id]

/-- What stands in front of the calls of a program for one of so many components. -/
def announcement (count index : ℤ) : TextCall :=
  ⟨"spatial", [Number.intText count, Number.intText index]⟩

theorem announcement_has (count index : ℤ) : (announcement count index).Has "spatial" 2 where
  word := rfl
  length := rfl
  numeric := by simp [announcement, Numeral.literal?_intText]

theorem announcement_injective {count count' index index' : ℤ}
    (h : announcement count index = announcement count' index') : index = index' := by
  obtain ⟨-, harguments⟩ := TextCall.mk.inj h
  obtain ⟨-, hindex⟩ := List.cons.inj harguments
  have hvalue := congrArg Numeral.literal? (List.cons.inj hindex).1
  rw [Numeral.literal?_intText, Numeral.literal?_intText] at hvalue
  exact Int.cast_injective (Option.some.inj hvalue)

theorem opening_eq (count index : ℤ) :
    Program.opening (some (count, index)) = (announcement count index).text ++ [' '] := by
  have hword : "spatial(".toList = "spatial".toList ++ ['('] := by decide
  have hend : ") ".toList = [')', ' '] := by decide
  have harguments (s t : List Char) : commaJoined [s, t] = s ++ ',' :: t :=
    (commaJoined_append (List.cons_ne_nil s []) (List.cons_ne_nil t [])).trans
      (by rw [commaJoined_singleton, commaJoined_singleton])
  have htext : (announcement count index).text = "spatial".toList ++
      '(' :: (Number.intText count ++ ',' :: Number.intText index) ++ [')'] := by
    rw [← harguments]
    rfl
  unfold Program.opening
  dsimp only
  rw [htext, hword, hend]
  simp only [List.append_assoc, List.cons_append, List.nil_append]

/-- The text of a program with an announcement in front. -/
theorem readAll?_opening (count index : ℤ) (hne : calls ≠ [])
    (h : ∀ call ∈ calls, call.IsClear) :
    readAll? (Program.opening (some (count, index)) ++ [' '].intercalate (calls.map text)) =
      some (announcement count index :: calls) := by
  have hclear : (announcement count index).IsClear :=
    (announcement_has count index).isClear (by decide) (by decide)
  rw [opening_eq, ← readAll?_text (List.cons_ne_nil _ _) (List.forall_mem_cons.mpr ⟨hclear, h⟩),
    List.map_cons, List.intercalate_cons_of_ne_nil (by simpa using hne)]

end TextCall

/-- The vectors that a keyframe has. -/
def Keyframe.vectors (keyframe : Keyframe) : List (List Binary64) :=
  [keyframe.start, keyframe.finish, keyframe.spatialIn, keyframe.spatialOut].reduceOption

theorem Keyframe.mem_vectors {keyframe : Keyframe} {vector : List Binary64}
    (h : some vector ∈ [keyframe.start, keyframe.finish, keyframe.spatialIn,
      keyframe.spatialOut]) : vector ∈ keyframe.vectors :=
  List.mem_filterMap.mpr ⟨some vector, h, rfl⟩

/-- Whether keyframes move along a path in a space of so many components, with finite numbers. -/
structure IsSpatial (dof : ℕ) (keyframes : List Keyframe) : Prop where
  tangent : (keyframes.head?.bind (·.spatialIn)).isSome = true
  pos : 0 < dof
  length : ∀ keyframe ∈ keyframes, ∀ vector ∈ keyframe.vectors, vector.length = dof
  finite : ∀ keyframe ∈ keyframes, ∀ x ∈ keyframe.numbers ++ keyframe.vectors.flatten,
    x.isFinite = true

/-- The vector with which the keyframe with number `n` starts: its own start, or else the end of the
keyframe before, or else the one with which that starts. -/
def startVectorAt? (keyframes : List Keyframe) : ℕ → Option (List Binary64)
  | 0 => keyframes[0]?.bind (·.start)
  | n + 1 =>
    ((keyframes[n + 1]?.bind (·.start)).or (keyframes[n]?.bind (·.finish))).or
      (startVectorAt? keyframes n)

/-- The call for the keyframe with number `n`. -/
def spatialCallAt? (precision : ℕ) (index : ℤ) (keyframes : List Keyframe) (n : ℕ) :
    Option TextCall := do
  let keyframe ← keyframes[n]?
  let start ← startVectorAt? keyframes n
  if n + 1 = keyframes.length then
    return ⟨"send", keyframe.time.text :: start.map (componentText precision)⟩
  else
    let spatialOut ← keyframe.spatialOut
    let spatialIn ← keyframe.spatialIn
    let outward ← keyframe.outward
    let inward ← keyframe.inward
    let outX ← outward.x.component? index
    let outY ← outward.y.component? index
    let inX ← inward.x.component? index
    let inY ← inward.y.component? index
    return ⟨"scurve", keyframe.time.text ::
      (start ++ spatialOut ++ spatialIn).map (componentText precision) ++
        [outX, outY, inX, inY].map Binary64.text⟩

/-- Whether a text is the program of a component: it announces the component and has the calls for
the keyframes, one each and of the length that the count of components makes, and it reads as
that. -/
structure IsSpatialText (precision dof index : ℕ) (keyframes : List Keyframe) (s : List Char)
    (calls : List TextCall) : Prop where
  text : s = Program.opening (some (dof, index)) ++ [' '].intercalate (calls.map TextCall.text)
  reads : TextCall.readAll? s = some (.announcement dof index :: calls)
  aligned : (List.range keyframes.length).mapM (spatialCallAt? precision index keyframes) =
    some calls
  curves : ∀ call ∈ calls.dropLast, call.Has "scurve" (1 + 3 * dof + 4)
  last : ∃ call, calls.getLast? = some call ∧ call.Has "send" (1 + dof)

section Segments

variable {precision dof n : ℕ} {index : ℤ} {path : String} {keyframes : List Keyframe}

/-- Whether a vector has so many components, all of them finite. -/
def IsVector (dof : ℕ) (vector : List Binary64) : Prop :=
  vector.length = dof ∧ ∀ x ∈ vector, x.isFinite = true

theorem IsSpatial.isVector (h : IsSpatial dof keyframes) {keyframe : Keyframe}
    (hkeyframe : keyframe ∈ keyframes) {vector : List Binary64}
    (hvector : some vector ∈ [keyframe.start, keyframe.finish, keyframe.spatialIn,
      keyframe.spatialOut]) : IsVector dof vector := by
  have hmem : vector ∈ keyframe.vectors := Keyframe.mem_vectors hvector
  exact ⟨h.length keyframe hkeyframe vector hmem, fun x hx ↦ h.finite keyframe hkeyframe x
    (List.mem_append_right _ (List.mem_flatten_of_mem hmem hx))⟩

theorem IsVector.numeric {vector : List Binary64} (h : IsVector dof vector) (precision : ℕ) :
    ∀ s ∈ vector.map (componentText precision), (Numeral.literal? s).isSome = true := by
  intro s hs
  obtain ⟨x, hx, rfl⟩ := List.mem_map.mp hs
  obtain ⟨q, hq, -⟩ := Binary64.literal?_componentText precision (h.2 x hx)
  rw [hq]
  rfl

theorem IsVector.ne_nil {vector : List Binary64} (h : IsVector dof vector) (hpos : 0 < dof) :
    vector ≠ [] :=
  List.ne_nil_of_length_pos (h.1 ▸ hpos)

/-- A segment that stays at a vector is a call with the components as arguments. -/
theorem Segment.text_spatialFinish (time : Binary64) {start : List Binary64} (hstart : start ≠ []) :
    text precision (.spatialFinish time start) =
      TextCall.text ⟨"send", time.text :: start.map (componentText precision)⟩ := by
  have hgroups : commaJoined ([[time.text], start.map (componentText precision)].map commaJoined) =
      commaJoined [[time.text], start.map (componentText precision)].flatten :=
    commaJoined_flatten (by simpa using hstart)
  have harguments : commaJoined (arguments precision (.spatialFinish time start)) =
      commaJoined (time.text :: start.map (componentText precision)) := by
    simpa [commaJoined_singleton, arguments, vectorText] using hgroups
  rw [Segment.text, harguments]
  rfl

/-- A segment that leads on is a call with the components of its vectors as arguments. -/
theorem Segment.text_spatialCurve (time outX outY inX inY : Binary64)
    {start outward inward : List Binary64} (hstart : start ≠ []) (houtward : outward ≠ [])
    (hinward : inward ≠ []) :
    text precision (.spatialCurve time start outward inward
        ⟨.one outX, .one outY, .one inX, .one inY⟩) =
      TextCall.text ⟨"scurve", time.text ::
        (start ++ outward ++ inward).map (componentText precision) ++
          [outX, outY, inX, inY].map Binary64.text⟩ := by
  let groups := [[time.text], start.map (componentText precision),
    outward.map (componentText precision), inward.map (componentText precision),
    [outX.text], [outY.text], [inX.text], [inY.text]]
  have hgroups : commaJoined (groups.map commaJoined) = commaJoined groups.flatten :=
    commaJoined_flatten (by simpa [groups] using ⟨hstart, houtward, hinward⟩)
  have harguments : commaJoined (arguments precision (.spatialCurve time start outward inward
        ⟨.one outX, .one outY, .one inX, .one inY⟩)) =
      commaJoined (time.text :: (start ++ outward ++ inward).map (componentText precision) ++
        [outX, outY, inX, inY].map Binary64.text) := by
    simpa [groups, commaJoined_singleton, arguments, vectorText, Handles.texts, Handle.text]
      using hgroups
  rw [Segment.text, harguments]
  rfl

/-- The segment of a keyframe is the call for it. -/
theorem spatialSegment_eq_ok {keyframe : Keyframe} {start : List Binary64} {isLast : Bool}
    {segment : Segment}
    (h : spatialSegment precision index path n isLast start keyframe = .ok segment)
    (hspatial : IsSpatial dof keyframes) (hn : keyframes[n]? = some keyframe)
    (hstart : startVectorAt? keyframes n = some start) (hvector : IsVector dof start)
    (hlast : isLast = true ↔ n + 1 = keyframes.length) :
    ∃ call, spatialCallAt? precision index keyframes n = some call ∧
      segment.text precision = call.text ∧
      if isLast then call.Has "send" (1 + dof) else call.Has "scurve" (1 + 3 * dof + 4) := by
  have hkeyframe := List.mem_of_getElem? hn
  have hnumbers : ∀ x ∈ keyframe.numbers, (Numeral.literal? x.text).isSome = true := fun x hx ↦
    Binary64.isSome_literal?_text (hspatial.finite keyframe hkeyframe x (List.mem_append_left _ hx))
  have htime := hnumbers keyframe.time (by simp [Keyframe.numbers])
  unfold spatialSegment at h
  rw [spatialCallAt?, hn, hstart]
  dsimp only [Option.bind_eq_bind, Option.bind_some]
  cases isLast with
  | true =>
    cases h
    rw [if_pos (hlast.mp rfl)]
    refine ⟨_, rfl, Segment.text_spatialFinish _ (hvector.ne_nil hspatial.pos), rfl, ?_,
      List.forall_mem_cons.mpr ⟨htime, hvector.numeric precision⟩⟩
    rw [List.length_cons, List.length_map, hvector.1, Nat.add_comm]
  | false =>
    rw [if_neg (mt hlast.mpr Bool.false_ne_true)]
    rw [if_neg Bool.false_ne_true] at h
    split at h
    · rename_i spatialIn spatialOut inward outward hspatialIn hspatialOut hinward houtward
      obtain ⟨-, -, h⟩ := Except.bind_eq_ok h
      obtain ⟨handles, hhandles, h⟩ := Except.bind_eq_ok h
      cases h
      obtain ⟨outX, outY, inX, inY, rfl, houtX, houtY, hinX, hinY, hmem⟩ :=
        pickHandles_eq_ok hinward houtward hhandles
      have hout : IsVector dof spatialOut :=
        hspatial.isVector hkeyframe (by simp [hspatialOut])
      have hin : IsVector dof spatialIn := hspatial.isVector hkeyframe (by simp [hspatialIn])
      rw [hspatialIn, hspatialOut, hinward, houtward]
      dsimp only [Option.bind_some]
      rw [houtX, houtY, hinX, hinY]
      refine ⟨_, rfl, Segment.text_spatialCurve _ _ _ _ _ (hvector.ne_nil hspatial.pos)
        (hout.ne_nil hspatial.pos) (hin.ne_nil hspatial.pos), rfl, ?_, ?_⟩
      · simp only [List.length_append, List.length_cons, List.length_map, List.length_nil,
          hvector.1, hout.1, hin.1]
        omega
      · rw [List.map_append, List.map_append, List.cons_append]
        refine List.forall_mem_cons.mpr ⟨htime, List.forall_mem_append.mpr
          ⟨List.forall_mem_append.mpr ⟨List.forall_mem_append.mpr
            ⟨hvector.numeric precision, hout.numeric precision⟩, hin.numeric precision⟩, ?_⟩⟩
        intro s hs
        obtain ⟨x, hx, rfl⟩ := List.mem_map.mp hs
        exact hnumbers x (hmem x hx)
    · cases h

theorem startVectorAt?_of_start {keyframe : Keyframe} {start : List Binary64}
    (hn : keyframes[n]? = some keyframe) (hstart : keyframe.start = some start) :
    startVectorAt? keyframes n = some start := by
  cases n with
  | zero => rw [startVectorAt?, hn, Option.bind_some, hstart]
  | succ n => rw [startVectorAt?, hn, Option.bind_some, hstart, Option.some_or, Option.some_or]

/-- The vector carried along after a keyframe is the start of the next one, if that has none of its
own. -/
theorem startVectorAt?_succ {keyframe next : Keyframe} {start : List Binary64}
    (hn : keyframes[n]? = some keyframe) (hstart : startVectorAt? keyframes n = some start)
    (hnext : keyframes[n + 1]? = some next) (hown : next.start = none) :
    startVectorAt? keyframes (n + 1) = some (keyframe.finish.getD start) := by
  rw [startVectorAt?, hnext, Option.bind_some, hown, Option.none_or, hn, Option.bind_some, hstart]
  cases keyframe.finish <;> rfl

/-- The segments of keyframes are the calls for them. -/
theorem spatialSegments_eq_ok {rest : List Keyframe} {last : List Binary64}
    {segments : List Segment}
    (h : spatialSegments precision index path n last rest = .ok segments)
    (hspatial : IsSpatial dof keyframes) (hrest : keyframes.drop n = rest)
    (hlast : ∀ keyframe, keyframes[n]? = some keyframe → keyframe.start = none →
      startVectorAt? keyframes n = some last)
    (hvector : IsVector dof last) :
    ∃ calls, (List.range' n rest.length).mapM (spatialCallAt? precision index keyframes) =
        some calls ∧
      segments.map (Segment.text precision) = calls.map TextCall.text ∧
      calls.length = rest.length ∧
      (∀ call ∈ calls.dropLast, call.Has "scurve" (1 + 3 * dof + 4)) ∧
      ∀ call ∈ calls.getLast?, call.Has "send" (1 + dof) := by
  -- The vector carried along is the one with which the next keyframe starts, unless it has its own.
  induction rest generalizing n last segments with
  | nil =>
    cases h
    exact ⟨[], rfl, rfl, rfl, List.forall_mem_nil _, fun _ hcall ↦ (by cases hcall)⟩
  | cons keyframe rest ih =>
    obtain ⟨hn, hdrop⟩ := of_drop_eq_cons hrest
    have hkeyframe := List.mem_of_getElem? hn
    rw [spatialSegments] at h
    obtain ⟨-, -, h⟩ := Except.bind_eq_ok h
    obtain ⟨segment, hsegment, h⟩ := Except.bind_eq_ok h
    obtain ⟨-, -, h⟩ := Except.bind_eq_ok h
    obtain ⟨more, hmore, h⟩ := Except.bind_eq_ok h
    cases h
    have hstart : startVectorAt? keyframes n = some (keyframe.start.getD last) ∧
        IsVector dof (keyframe.start.getD last) := by
      cases hown : keyframe.start with
      | none => exact ⟨hlast keyframe hn hown, hvector⟩
      | some start =>
        exact ⟨startVectorAt?_of_start hn hown, hspatial.isVector hkeyframe (by simp [hown])⟩
    have hfinish : IsVector dof (keyframe.finish.getD (keyframe.start.getD last)) := by
      cases hend : keyframe.finish with
      | none => exact hstart.2
      | some finish => exact hspatial.isVector hkeyframe (by simp [hend])
    have hisLast : rest.isEmpty = true ↔ n + 1 = keyframes.length := by
      rw [List.isEmpty_iff, ← hdrop, List.drop_eq_nil_iff]
      have hless := (List.getElem?_eq_some_iff.mp hn).1
      omega
    obtain ⟨call, hcall, htext, hhas⟩ :=
      spatialSegment_eq_ok hsegment hspatial hn hstart.1 hstart.2 hisLast
    obtain ⟨calls, hcalls, htexts, hlength, hcurves, hend⟩ := ih hmore hdrop
      (fun next hnext hown ↦ startVectorAt?_succ hn hstart.1 hnext hown) hfinish
    refine ⟨call :: calls, ?_, ?_, congrArg (· + 1) hlength, ?_⟩
    · rw [List.length_cons, List.range'_succ, List.mapM_cons, hcall, hcalls]
      rfl
    · rw [List.map_cons, List.map_cons, htext, htexts]
    · cases calls with
      | nil =>
        rw [List.eq_nil_of_length_eq_zero hlength.symm] at hhas
        refine ⟨List.forall_mem_nil _, fun other hother ↦ ?_⟩
        rw [← Option.some.inj hother]
        exact hhas
      | cons next more =>
        obtain ⟨other, others, rfl⟩ := List.exists_cons_of_length_eq_add_one hlength.symm
        exact ⟨List.forall_mem_cons.mpr ⟨hhas, hcurves⟩, hend⟩

/-- A component that is no number, of a property that moves along a path in space, has the program of
the calls for its keyframes. -/
theorem courseOf_eq_spatial {index : ℕ} {reversed : Bool} {program : Program}
    (h : courseOf precision keyframes dof index reversed path = .ok (.moving program))
    (hspatial : IsSpatial dof keyframes) :
    ∃ calls, IsSpatialText precision dof index keyframes (program.text precision) calls := by
  cases keyframes with
  | nil => cases h
  | cons first rest =>
    have htangent : first.spatialIn.isSome = true := hspatial.tangent
    rw [courseOf] at h
    split at h
    · cases h
    · cases h
    · rename_i start _ hstart
      obtain ⟨value, -, h⟩ := Except.bind_eq_ok h
      obtain ⟨constant, -, h⟩ := Except.bind_eq_ok h
      rw [if_pos htangent] at h
      cases constant with
      | true => cases h
      | false =>
        obtain ⟨segments, hsegments, h⟩ := Except.bind_eq_ok h
        cases h
        have hvector : IsVector dof start :=
          hspatial.isVector List.mem_cons_self (by simp [hstart])
        obtain ⟨calls, hcalls, htexts, hlength, hcurves, hlast⟩ :=
          spatialSegments_eq_ok hsegments hspatial List.drop_zero
            (fun keyframe hkeyframe hnone ↦ by
              cases hkeyframe
              rw [hstart] at hnone
              cases hnone) hvector
        rcases List.eq_nil_or_concat' calls with rfl | ⟨curves, last, rfl⟩
        · cases hlength
        · rw [List.dropLast_concat] at hcurves
          have hsend := hlast last List.getLast?_concat
          have hclear : ∀ call ∈ curves ++ [last], call.IsClear :=
            List.forall_mem_append.mpr
              ⟨fun call hcall ↦ (hcurves call hcall).isClear (by decide) (by omega),
                List.forall_mem_singleton.mpr (hsend.isClear (by decide) (by omega))⟩
          refine ⟨curves ++ [last], ?_, ?_, ?_, by rwa [List.dropLast_concat],
            ⟨last, List.getLast?_concat, hsend⟩⟩
          · rw [Program.text, htexts]
          · rw [Program.text, htexts]
            exact TextCall.readAll?_opening dof index (by simp) hclear
          · rw [List.range_eq_range', hcalls]

/-- A component that compiles to an expression reads the easing of a program, which is registered
and is the one for its keyframes. -/
theorem compileComponent_eq_spatial {history : History} (hsound : history.IsSound) {index : ℕ}
    {reversed : Bool} {x : Scalar} {next : EasingTable} (hspatial : IsSpatial dof keyframes)
    (h : (compileComponent keyframes dof index reversed path).run.run history.table = (.ok x, next))
    (hx : x.isNumber = false) :
    ∃ name program calls, x = .ofToken (tokenOf name) ∧ nameOf name = name ∧
      IsSpatialText history.table.precision dof index keyframes program.toList calls ∧
      next = history.table.after (.add program) ∧
      Entries.get? next.programs name = some program := by
  obtain ⟨name, program, hcourse, hscalar, hname, hnext, hget⟩ :=
    compileComponent_registers hsound h hx fun program hcourse hempty ↦ by
      obtain ⟨calls, hcalls⟩ := courseOf_eq_spatial hcourse hspatial
      have hreads := hcalls.reads
      rw [hempty] at hreads
      cases hreads
  obtain ⟨calls, hcalls⟩ := courseOf_eq_spatial hcourse hspatial
  refine ⟨name, _, calls, hscalar, hname, ?_, hnext, hget⟩
  rw [String.toList_ofList]
  exact hcalls

/-- Two components on a sound table, with events in between that do not reset it. The announcements
tell the programs apart, and a name that is registered has no other program later. -/
theorem compileComponents_eq_spatial {history : History} (hsound : history.IsSound)
    {dof' index index' : ℕ} {between : List TableEvent} {keyframes' : List Keyframe}
    {reversed reversed' : Bool} {path' : String} {x y : Scalar} {table table' : EasingTable}
    (hspatial : IsSpatial dof keyframes) (hspatial' : IsSpatial dof' keyframes')
    (hrun : (compileComponent keyframes dof index reversed path).run.run history.table =
      (.ok x, table))
    (hbetween : .reset ∉ between)
    (hrun' : (compileComponent keyframes' dof' index' reversed' path').run.run
      (table.run between) = (.ok y, table'))
    (hx : x.isNumber = false) (hy : y.isNumber = false) :
    ∃ token program calls token' program' calls',
      (x = .ofToken token ∧ table.get? token = some program ∧
        IsSpatialText history.table.precision dof index keyframes program.toList calls) ∧
      (y = .ofToken token' ∧ table'.get? token' = some program' ∧
        IsSpatialText history.table.precision dof' index' keyframes' program'.toList calls') ∧
      (index ≠ index' → token ≠ token') := by
  obtain ⟨name, program, calls, rfl, hname, hcalls, rfl, hget⟩ :=
    compileComponent_eq_spatial hsound hspatial hrun hx
  have hsound' : (history.after (.add program)).IsSound := hsound.add program
  have htable : ((history.after (.add program)).run between).table =
      (history.table.after (.add program)).run between := History.table_run _ _
  have hprecision : ((history.after (.add program)).run between).table.precision =
      history.table.precision := History.precision_run history (.add program :: between)
  -- What comes in between continues the history that the first registration leaves.
  rw [← htable] at hrun'
  obtain ⟨name', program', calls', rfl, hname', hcalls', rfl, hget'⟩ :=
    compileComponent_eq_spatial (hsound'.run between) hspatial' hrun' hy
  rw [hprecision] at hcalls'
  refine ⟨tokenOf name, program, calls, tokenOf name', program', calls',
    ⟨rfl, ?_, hcalls⟩, ⟨rfl, ?_, hcalls'⟩, fun hindex htoken ↦ hindex ?_⟩
  · rw [EasingTable.get?, nameOf_tokenOf, hname, hget]
  · rw [EasingTable.get?, nameOf_tokenOf, hname', hget']
  · -- Under one name the two programs would be the same, and so would their announcements.
    have hreset : TableEvent.reset ∉ between ++ [.add program'] := by simpa using hbetween
    rw [← tokenOf_injective htoken, htable, ← EasingTable.run_concat] at hget'
    have hreads := hcalls.reads
    rw [← hsound'.program_unique hget hreset hget', hcalls'.reads] at hreads
    have hannounced := TextCall.announcement_injective (List.cons.inj (Option.some.inj hreads)).1
    exact (Int.ofNat_inj.mp hannounced).symm

end Segments

/-- A component of a property that moves along a path in space, compiled to an expression on any
table that a run leads to, reads a program that is registered under its token and is the one for its
keyframes. Until the table is reset, no component with another index has the same token. -/
theorem compileComponent_spatial {precision dof dof' index index' : ℕ}
    {events between : List TableEvent} {keyframes keyframes' : List Keyframe}
    {reversed reversed' : Bool} {path path' : String} {x y : Scalar} {table table' : EasingTable}
    (hspatial : IsSpatial dof keyframes) (hspatial' : IsSpatial dof' keyframes')
    (hrun : (compileComponent keyframes dof index reversed path).run.run
      ((EasingTable.empty precision).run events) = (.ok x, table))
    (hbetween : .reset ∉ between)
    (hrun' : (compileComponent keyframes' dof' index' reversed' path').run.run
      (table.run between) = (.ok y, table'))
    (hx : x.isNumber = false) (hy : y.isNumber = false) :
    ∃ token program calls token' program' calls',
      x = .ofToken token ∧ table.get? token = some program ∧
      IsSpatialText precision dof index keyframes program.toList calls ∧
      y = .ofToken token' ∧ table'.get? token' = some program' ∧
      IsSpatialText precision dof' index' keyframes' program'.toList calls' ∧
      (index ≠ index' → token ≠ token') := by
  have hsound : ((History.start precision).run events).IsSound :=
    (History.isSound_empty precision).run events
  have htable : ((History.start precision).run events).table =
      (EasingTable.empty precision).run events := History.table_run _ _
  have hprecision : ((History.start precision).run events).table.precision = precision :=
    History.precision_run _ _
  rw [← htable] at hrun
  obtain ⟨token, program, calls, token', program', calls', hfirst, hsecond, hdistinct⟩ :=
    compileComponents_eq_spatial hsound hspatial hspatial' hrun hbetween hrun' hx hy
  rw [hprecision] at hfirst hsecond
  exact ⟨token, program, calls, token', program', calls', hfirst.1, hfirst.2.1, hfirst.2.2,
    hsecond.1, hsecond.2.1, hsecond.2.2, hdistinct⟩

/-- Keyframes along a path in the plane; the second one starts where the first one ends. -/
def soaringKeyframes : List Keyframe :=
  let zero : Binary64 := .zero false
  let half : Binary64 := .ofRatio false (1 / 2)
  let one : Binary64 := .ofRatio false 1
  let handle : Tangent := ⟨.each [half, one], .one half⟩
  [⟨zero, some [zero, half], some [one, one], some handle, some handle, some [half, zero],
      some [zero, half]⟩,
    ⟨half, none, none, some handle, some handle, some [zero, zero], some [one, half]⟩,
    ⟨one, some [half, one], none, none, none, none, none⟩]

/-- A token is not given to the other component, even after it has been discarded. -/
theorem compileComponent_spatial_discarded :
    let compiled (index : ℕ) (table : EasingTable) (events : List TableEvent) :=
      (compileComponent soaringKeyframes (2 : ℕ) index false "ks.p").run.run (table.run events)
    let table := (compiled 0 (.empty 3) []).2
    let table' := (compiled 1 table [.discard "@ease1"]).2
    IsSpatial 2 soaringKeyframes ∧
    compiled 0 (.empty 3) [] = (.ok (.ofToken "@ease1"), table) ∧
    compiled 1 table [.discard "@ease1"] = (.ok (.ofToken "@ease2"), table') ∧
    ∃ token program calls token' program' calls',
      Scalar.ofToken "@ease1" = .ofToken token ∧ table.get? token = some program ∧
      IsSpatialText 3 2 0 soaringKeyframes program.toList calls ∧
      Scalar.ofToken "@ease2" = .ofToken token' ∧ table'.get? token' = some program' ∧
      IsSpatialText 3 2 1 soaringKeyframes program'.toList calls' ∧
      (0 ≠ 1 → token ≠ token') := by
  intro compiled table table'
  have hspatial : IsSpatial 2 soaringKeyframes := ⟨rfl, by decide, by decide, by decide +kernel⟩
  have hrun : compiled 0 (.empty 3) [] = (.ok (.ofToken "@ease1"), table) :=
    Compile.run_eq_ok (by decide +kernel) rfl
  have hrun' : compiled 1 table [.discard "@ease1"] = (.ok (.ofToken "@ease2"), table') :=
    Compile.run_eq_ok (by decide +kernel) rfl
  have hbetween : TableEvent.reset ∉ [.discard "@ease1"] := by decide
  exact ⟨hspatial, hrun, hrun',
    compileComponent_spatial hspatial hspatial hrun hbetween hrun' rfl rfl⟩

end Motion
