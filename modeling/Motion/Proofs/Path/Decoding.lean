import Motion.Lax.Record
import Motion.Proofs.Easing.Call
import Motion.Proofs.Number.Lossless
import Motion.Proofs.Path.Unbroken

/-!
Path data can be read back. A space stands between two commands and also between the points of a
curve; as no coordinate has a space or a comma in its text, the words between the spaces are those
that the commands were written as, and the letter of a word tells how many words belong to its command
(`PathCommand.read?`). What is read are the commands that were written, with the same bindings and
with numbers of the same values (`Data.pathText_reads`).
-/

set_option autoImplicit false
set_option relaxedAutoImplicit false

namespace Motion

/-- Whether two parameters are the same binding, or numbers of the same value. -/
inductive Data.SameParameter : Data → Data → Prop where
  | number {m n : Number} (h : m.same n = true) : SameParameter (.num m) (.num n)
  | binding (s : String) : SameParameter (.str s) (.str s)

namespace PathCommand

/-- Whether two commands have the same letter and the same parameters. -/
structure Same (first second : PathCommand) : Prop where
  letter : first.letter = second.letter
  parameters : List.Forall₂ Data.SameParameter first.parameters second.parameters

/-- The parameter that a text is: a binding as it stands, or the number that the text denotes. -/
def readParameter? (s : List Char) : Option Data :=
  match s with
  | '$' :: '{' :: _ => some (.str (String.ofList s))
  | _ =>
    match Json.number s with
    | .ok (n, []) => some (.num n)
    | _ => none

/-- The coordinates that a text holds, of which there have to be two. -/
def readPoint? (s : List Char) : Option (Data × Data) :=
  match s.splitOn ',' with
  | [x, y] => do return (← readParameter? x, ← readParameter? y)
  | _ => none

/-- The commands that words are: a move in one word, a curve in three, and a closing, which is
a letter only. -/
def readWords? : List (List Char) → Option (List PathCommand)
  | [] => some []
  | ('M' :: point) :: rest => do
    let (x, y) ← readPoint? point
    return .moveTo x y :: (← readWords? rest)
  | ('C' :: leaving) :: arriving :: finish :: rest => do
    let (x1, y1) ← readPoint? leaving
    let (x2, y2) ← readPoint? arriving
    let (x, y) ← readPoint? finish
    return .curveTo x1 y1 x2 y2 x y :: (← readWords? rest)
  | ['z'] :: rest => do return .close :: (← readWords? rest)
  | _ => none

/-- The commands that path data consists of. -/
def read? (s : List Char) : Option (List PathCommand) :=
  if s.isEmpty then some [] else readWords? (s.splitOn ' ')

end PathCommand

theorem Number.isWritable_normalize (x : Binary64) :
    (Number.float x).normalize.isWritable = true := by
  have hle (k : ℕ) (hk : 21 ≤ k) : Nat.pow 10 21 ≤ Nat.pow 10 k :=
    Nat.pow_le_pow_right (by decide) hk
  unfold Number.normalize
  dsimp only
  split
  · split_ifs with hsmall
    · rw [Number.isWritable, decide_eq_true_eq]
      exact lt_of_lt_of_le hsmall (hle _ (by decide))
    · rfl
  · rfl

namespace PathCommand

theorem readParameter?_number {s : List Char} {n : Number}
    (hs : ∀ c ∈ s, isNumberCharacter c = true) (h : Json.number s = .ok (n, [])) :
    readParameter? s = some (.num n) := by
  unfold readParameter?
  split
  · cases hs '$' List.mem_cons_self
  · rw [h]

theorem readPoint?_append {s t : List Char} (hs : IsUnbroken s) (ht : IsUnbroken t) {x y : Data}
    (hx : readParameter? s = some x) (hy : readParameter? t = some y) :
    readPoint? (s ++ ',' :: t) = some (x, y) := by
  have hsplit : (s ++ ',' :: t).splitOn ',' = [s, t] := by
    have hcomma : ∀ l ∈ [s, t], ',' ∉ l := by simp [hs.not_mem_comma, ht.not_mem_comma]
    simpa [List.intercalate] using List.splitOn_intercalate ',' hcomma (List.cons_ne_nil _ _)
  rw [readPoint?, hsplit]
  simp only [hx, hy]
  rfl

end PathCommand

/-- Whether a parameter is written as a text and read back from it. -/
structure Data.IsReadBack (value : Data) (text : String) (read : Data) : Prop where
  writes : value.parameterText = .ok text
  unbroken : Motion.IsUnbroken text.toList
  reads : PathCommand.readParameter? text.toList = some read
  same : value.SameParameter read

/-- An unbroken parameter is read back: a number from a literal, and a binding as it stands. -/
theorem Data.IsUnbroken.exists_isReadBack {value : Data} (h : value.IsUnbroken)
    (hfinite : ∀ n, value = .num n → n.toRat?.isSome = true) :
    ∃ text read, value.IsReadBack text read := by
  obtain ⟨x, hx, rfl⟩ := h
  cases x with
  | literal value =>
    obtain ⟨x, rfl⟩ := hx
    have hvalue := hfinite _ rfl
    have hwritable := Number.isWritable_normalize x
    obtain ⟨l, hl⟩ := Number.exists_isRenderedAs hvalue hwritable
    obtain ⟨m, hread, hm⟩ := hl.reads
    rw [← hl.text] at hread
    refine ⟨_, .num m, if_pos hwritable, Number.isUnbroken_text _, ?_,
      .number (Number.same_of_toRat?_eq (hm ▸ hvalue) hm.symm)⟩
    rw [Number.text, String.toList_ofList]
    exact PathCommand.readParameter?_number (Number.isNumberCharacter_of_mem_textChars _) hread
  | expr text slope =>
    have hbinding : (Scalar.binding text).toList = '$' :: '{' :: (text.toList ++ ['}']) := by
      simp [Scalar.binding]
    refine ⟨_, .str (Scalar.binding text), rfl, ?_, ?_, .binding _⟩
    · rw [hbinding]
      exact IsUnbroken.append (s := ['$', '{']) (by decide) (IsUnbroken.append hx (by decide))
    · rw [hbinding]
      change some (Data.str (String.ofList ('$' :: '{' :: (text.toList ++ ['}'])))) = _
      rw [← hbinding, String.ofList_toList]

theorem Data.IsReadBack.readPoint? {x y : Data} {s t : String} {x' y' : Data}
    (hx : x.IsReadBack s x') (hy : y.IsReadBack t y') :
    PathCommand.readPoint? (s.toList ++ ',' :: t.toList) = some (x', y') :=
  PathCommand.readPoint?_append hx.unbroken hy.unbroken hx.reads hy.reads

theorem Data.IsReadBack.not_mem_space {x y : Data} {s t : String} {x' y' : Data}
    (hx : x.IsReadBack s x') (hy : y.IsReadBack t y') : ' ' ∉ s.toList ++ ',' :: t.toList := by
  simp [hx.unbroken.not_mem_space, hy.unbroken.not_mem_space]

namespace PathCommand

/-- Whether a command is written as words with spaces between them and read back from them, whatever
follows. -/
structure IsReadBack (command : PathCommand) (words : List (List Char)) (read : PathCommand) :
    Prop where
  writes : ∃ text, command.text = .ok text ∧ text.toList = [' '].intercalate words
  ne_nil : words ≠ []
  unbroken : ∀ word ∈ words, ' ' ∉ word
  reads : ∀ rest, readWords? (words ++ rest) = (readWords? rest).map (read :: ·)
  same : command.Same read

/-- A command whose parameters are finite or bindings is read back. -/
theorem IsTraced.exists_isReadBack {command : PathCommand} (h : command.IsTraced)
    (hfinite : ∀ n, .num n ∈ command.parameters → n.toRat?.isSome = true) :
    ∃ words read, command.IsReadBack words read := by
  have hread {value : Data} (hmem : value ∈ command.parameters) (hvalue : value.IsUnbroken) :
      ∃ text read, value.IsReadBack text read :=
    hvalue.exists_isReadBack fun n hn ↦ hfinite n (hn ▸ hmem)
  cases h with
  | moveTo hx hy =>
    obtain ⟨s, x, hx⟩ := hread (by simp [PathCommand.moveTo]) hx
    obtain ⟨t, y, hy⟩ := hread (by simp [PathCommand.moveTo]) hy
    refine ⟨['M' :: (s.toList ++ ',' :: t.toList)], .moveTo x y,
      ⟨"M" ++ ",".intercalate [s, t], ?_, ?_⟩, List.cons_ne_nil _ _, ?_, fun rest ↦ ?_, rfl,
      .cons hx.same (.cons hy.same .nil)⟩
    · simp only [PathCommand.text, PathCommand.moveTo, List.mapM_cons, List.mapM_nil, hx.writes,
        hy.writes, Except.ok_bind]
      rfl
    · simp [List.intercalate]
    · simpa using hx.not_mem_space hy
    · rw [List.singleton_append, readWords?, hx.readPoint? hy]
      cases readWords? rest <;> rfl
  | curveTo hx1 hy1 hx2 hy2 hx hy =>
    obtain ⟨s1, x1, hx1⟩ := hread (by simp [PathCommand.curveTo]) hx1
    obtain ⟨t1, y1, hy1⟩ := hread (by simp [PathCommand.curveTo]) hy1
    obtain ⟨s2, x2, hx2⟩ := hread (by simp [PathCommand.curveTo]) hx2
    obtain ⟨t2, y2, hy2⟩ := hread (by simp [PathCommand.curveTo]) hy2
    obtain ⟨s, x, hx⟩ := hread (by simp [PathCommand.curveTo]) hx
    obtain ⟨t, y, hy⟩ := hread (by simp [PathCommand.curveTo]) hy
    refine ⟨['C' :: (s1.toList ++ ',' :: t1.toList), s2.toList ++ ',' :: t2.toList,
      s.toList ++ ',' :: t.toList], .curveTo x1 y1 x2 y2 x y,
      ⟨"C" ++ s1 ++ "," ++ t1 ++ " " ++ s2 ++ "," ++ t2 ++ " " ++ s ++ "," ++ t, ?_, ?_⟩,
      List.cons_ne_nil _ _, ?_, fun rest ↦ ?_, rfl, .cons hx1.same (.cons hy1.same
        (.cons hx2.same (.cons hy2.same (.cons hx.same (.cons hy.same .nil)))))⟩
    · simp only [PathCommand.text, PathCommand.curveTo, List.mapM_cons, List.mapM_nil, hx1.writes,
        hy1.writes, hx2.writes, hy2.writes, hx.writes, hy.writes, Except.ok_bind]
      rfl
    · simp [List.intercalate]
    · have hfirst : ' ' ∉ 'C' :: (s1.toList ++ ',' :: t1.toList) := by
        simpa using hx1.not_mem_space hy1
      simp only [List.forall_mem_cons]
      exact ⟨hfirst, hx2.not_mem_space hy2, hx.not_mem_space hy, List.forall_mem_nil _⟩
    · simp only [List.cons_append, List.nil_append, readWords?, hx1.readPoint? hy1,
        hx2.readPoint? hy2, hx.readPoint? hy]
      cases readWords? rest <;> rfl
  | close =>
    refine ⟨[['z']], .close, ⟨"z", rfl, rfl⟩, List.cons_ne_nil _ _, by decide, fun rest ↦ ?_, rfl,
      .nil⟩
    rw [List.singleton_append, readWords?]
    cases readWords? rest <;> rfl

theorem exists_words {commands : List PathCommand} (h : ∀ command ∈ commands, command.IsTraced)
    (hfinite : ∀ command ∈ commands, ∀ n, .num n ∈ command.parameters → n.toRat?.isSome = true) :
    ∃ (texts : List String) (groups : List (List (List Char))) (read : List PathCommand),
      commands.mapM PathCommand.text = .ok texts ∧
      texts.map String.toList = groups.map [' '].intercalate ∧
      (∀ words ∈ groups, words ≠ [] ∧ ∀ word ∈ words, ' ' ∉ word) ∧
      readWords? groups.flatten = some read ∧ List.Forall₂ Same commands read := by
  induction commands with
  | nil => exact ⟨[], [], [], rfl, rfl, List.forall_mem_nil _, rfl, .nil⟩
  | cons command rest ih =>
    obtain ⟨hcommand, hrest⟩ := List.forall_mem_cons.mp h
    obtain ⟨hfirst, hmore⟩ := List.forall_mem_cons.mp hfinite
    obtain ⟨words, first, hwords⟩ := hcommand.exists_isReadBack hfirst
    obtain ⟨text, htext, hchars⟩ := hwords.writes
    obtain ⟨texts, groups, read, htexts, hgroups, hunbroken, hread, hsame⟩ := ih hrest hmore
    refine ⟨text :: texts, words :: groups, first :: read, ?_, ?_, ?_, ?_, .cons hwords.same hsame⟩
    · rw [List.mapM_cons, htext, htexts]
      rfl
    · rw [List.map_cons, List.map_cons, hchars, hgroups]
    · exact List.forall_mem_cons.mpr ⟨⟨hwords.ne_nil, hwords.unbroken⟩, hunbroken⟩
    · rw [List.flatten_cons, hwords.reads, hread, Option.map_some]

/-- Path data is read back as the commands that it was written from. -/
theorem exists_pathText {commands : List PathCommand} (h : ∀ command ∈ commands, command.IsTraced)
    (hfinite : ∀ command ∈ commands, ∀ n, .num n ∈ command.parameters → n.toRat?.isSome = true) :
    ∃ text read, pathText commands = .ok text ∧ read? text.toList = some read ∧
      List.Forall₂ Same commands read := by
  obtain ⟨texts, groups, read, htexts, hgroups, hunbroken, hread, hsame⟩ := exists_words h hfinite
  have hjoined : (" ".intercalate texts).toList = [' '].intercalate groups.flatten := by
    rw [String.toList_intercalate, hgroups]
    exact intercalate_flatten ' ' fun words hwords ↦ (hunbroken words hwords).1
  refine ⟨" ".intercalate texts, read, ?_, ?_, hsame⟩
  · rw [pathText, htexts]
    rfl
  · have hspace : ∀ word ∈ groups.flatten, ' ' ∉ word := by
      intro word hword
      obtain ⟨words, hwords, hmem⟩ := List.mem_flatten.mp hword
      exact (hunbroken words hwords).2 word hmem
    rw [read?, hjoined]
    by_cases hnil : groups.flatten = []
    · rw [hnil] at hread ⊢
      exact hread
    · have hsplit := List.splitOn_intercalate ' ' hspace hnil
      rw [hsplit, hread]
      -- Nothing is read from the words of the empty text.
      rw [if_neg fun hempty ↦ ?_]
      rw [List.isEmpty_iff.mp hempty] at hsplit
      rw [← hsplit] at hread
      cases hread

end PathCommand

/-- The commands that a shape is drawn with, from any table that a run leads to, can be told from
their text: where all their numbers are finite, they have one, and split at its spaces and commas it
reads as the same commands with the same parameters. -/
theorem Data.pathText_reads [Validator] {precision : ℕ} {events : List TableEvent} {data : Data}
    {path : String} {trace : Trace} {table : EasingTable}
    (hrun : (compilePathData data path).run.run ((EasingTable.empty precision).run events) =
      (.ok trace, table))
    (hfinite : ∀ command ∈ trace.commands, ∀ n, .num n ∈ command.parameters →
      n.toRat?.isSome = true) :
    ∃ text read, PathCommand.pathText trace.commands = .ok text ∧
      PathCommand.read? text.toList = some read ∧
      List.Forall₂ PathCommand.Same trace.commands read := by
  have hsound := EasingTable.isSound_run precision events
  exact PathCommand.exists_pathText (data.compilePathData_isTraced path _ _ _ hsound hrun).2 hfinite

/-- A closed shape of one vertex that moves to the right. -/
def rollingShape : Data :=
  let number (i : ℤ) : Data := .num (.int i)
  let half : Data := .num (.float (.ofUnits false Binary64.unitsPerOne 2))
  let curve (x : ℤ) : Data := .list [.obj [("c", .bool true), ("i", .list [.list [half, half]]),
    ("o", .list [.list [number 0, half]]), ("v", .list [.list [number x, number 0]])]]
  .obj [("a", number 1), ("k", .list [
    .obj [("t", number 0), ("s", curve 0), ("i", .obj [("x", number 1), ("y", number 1)]),
      ("o", .obj [("x", number 0), ("y", number 0)])],
    .obj [("t", number 10), ("s", curve 20)]])]

/-- The path data of the rolling shape, if its easing is the second one. -/
def rollingText : String :=
  "M$\x7b@ease2(frame)\x7d,0 C$\x7b@ease2(frame)\x7d,0.5 " ++
    "$\x7b(@ease2(frame)+0.5)\x7d,0.5 $\x7b@ease2(frame)\x7d,0 z"

/-- Whether a value is neither infinite nor NaN. -/
def Data.isFinite : Data → Bool
  | .num n => n.toRat?.isSome
  | _ => true

/-- Bindings and numbers, in a sum and as they stand, behind an easing that is registered already. -/
theorem Data.pathText_reads_rollingShape :
    let run := (compilePathData rollingShape "ks").run.run
      ((EasingTable.empty 3).run [.add "end(0,1)"])
    ∃ trace text read, run.1 = .ok trace ∧
      (∀ command ∈ trace.commands, ∀ n, .num n ∈ command.parameters → n.toRat?.isSome = true) ∧
      PathCommand.pathText trace.commands = .ok text ∧
      text = rollingText ∧ PathCommand.read? text.toList = some read ∧
      List.Forall₂ PathCommand.Same trace.commands read := by
  intro run
  have hcompiles : (run.1.toOption.any fun trace ↦
      (trace.commands.all fun command ↦ command.parameters.all Data.isFinite) &&
        (PathCommand.pathText trace.commands).toOption == some rollingText) = true := by
    decide +kernel
  obtain ⟨trace, htrace, htest⟩ := Except.exists_of_any hcompiles
  obtain ⟨hall, hshown⟩ := Bool.and_eq_true_iff.mp htest
  have hfinite : ∀ command ∈ trace.commands, ∀ n, .num n ∈ command.parameters →
      n.toRat?.isSome = true := fun command hcommand n hn ↦
    List.all_eq_true.mp (List.all_eq_true.mp hall command hcommand) _ hn
  have hrun : (compilePathData rollingShape "ks").run.run
      ((EasingTable.empty 3).run [.add "end(0,1)"]) = (.ok trace, run.2) :=
    Compile.run_eq_ok (congrArg Except.toOption htrace) rfl
  obtain ⟨text, read, htext, hread, hsame⟩ := Data.pathText_reads hrun hfinite
  rw [htext] at hshown
  exact ⟨trace, text, read, htrace, hfinite, htext, Option.some.inj (beq_iff_eq.mp hshown), hread,
    hsame⟩

end Motion
