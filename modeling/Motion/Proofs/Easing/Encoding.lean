import Motion.Proofs.Easing.Call
import Motion.Proofs.Easing.Compile
import Motion.Proofs.Easing.Table

/-!
What the program of a component says. Each keyframe has one call, in order: the last one holds the
value with which it starts, another one leads on in a line or along a curve with the component's
handles (`callAt?`). The compilation threads the value with which a keyframe starts through all
keyframes; the induction is on the keyframes that are left, and the invariant is that the value
carried along is the start of the next keyframe if that has none of its own.

As the table gives one token to one program, and a program reads as its calls and the calls determine
it, two components have one token exactly if they have the same calls.
-/

set_option autoImplicit false
set_option relaxedAutoImplicit false

namespace Motion

/-- The component of a list at an index, the first one where the list is too short. A negative index
counts from the end. -/
def component? : ℤ → List Binary64 → Option Binary64
  | .ofNat n, values => values[n]?.or values.head?
  | .negSucc n, values => values.reverse[n]?

/-- The component of a handle coordinate, of which there is only one where it is a number. -/
def Handle.component? (index : ℤ) : Handle → Option Binary64
  | one value => some value
  | each values => Motion.component? index values

/-- The component with which the keyframe with number `n` starts: that of its own start, or else of
the end of the keyframe before, or else the one with which that starts. -/
def startAt? (index : ℤ) (keyframes : List Keyframe) : ℕ → Option Binary64
  | 0 => (keyframes[0]?.bind (·.start)).bind (component? index)
  | n + 1 =>
    match keyframes[n + 1]?.bind (·.start), keyframes[n]?.bind (·.finish) with
    | some start, _ => component? index start
    | none, some finish => component? index finish
    | none, none => startAt? index keyframes n

/-- The call for the keyframe with number `n`. -/
def callAt? (index : ℤ) (reversed : Bool) (keyframes : List Keyframe) (n : ℕ) : Option Call := do
  let keyframe ← keyframes[n]?
  let start ← startAt? index keyframes n
  if n + 1 = keyframes.length then
    return ⟨"end", [keyframe.time.toRat, if reversed then -start.toRat else start.toRat]⟩
  else
    match keyframe.inward with
    | none => return ⟨"line", [keyframe.time.toRat, start.toRat]⟩
    | some inward =>
      let outward ← keyframe.outward
      let outX ← outward.x.component? index
      let outY ← outward.y.component? index
      let inX ← inward.x.component? index
      let inY ← inward.y.component? index
      return ⟨"curve", [keyframe.time, start, outX, outY, inX, inY].map Binary64.toRat⟩

/-- The calls for all keyframes. -/
def callsOf? (index : ℤ) (reversed : Bool) (keyframes : List Keyframe) : Option (List Call) :=
  (List.range keyframes.length).mapM (callAt? index reversed keyframes)

/-- The numbers of a keyframe, those of its spatial tangents apart. -/
def Keyframe.numbers (keyframe : Keyframe) : List Binary64 :=
  let handles (tangent : Tangent) := tangent.x.numbers ++ tangent.y.numbers
  keyframe.time :: keyframe.start.getD [] ++ keyframe.finish.getD []
    ++ keyframe.outward.elim [] handles ++ keyframe.inward.elim [] handles

/-- Whether keyframes do not move along a path in space, and all their numbers are finite. -/
structure IsFlat (keyframes : List Keyframe) : Prop where
  tangent : keyframes.head?.bind (·.spatialIn) = none
  finite : ∀ keyframe ∈ keyframes, ∀ x ∈ keyframe.numbers, x.isFinite = true

/-- Whether a token stands for a program that reads as the given calls. -/
def EasingTable.Shows (table : EasingTable) (token : String) (calls : List Call) : Prop :=
  ∃ program, table.get? token = some program ∧ Call.readAll? program.toList = some calls

theorem pick_eq_ok {index : ℤ} {values : List Binary64} {x : Binary64}
    (h : pick index values = .ok x) : component? index values = some x := by
  unfold pick at h
  dsimp only at h
  split at h
  · rename_i value hvalue
    cases h
    cases index with
    | ofNat n =>
      rw [Int.ofNat_eq_natCast, if_neg (not_lt.mpr (Int.natCast_nonneg n))] at hvalue
      by_cases hn : n < values.length
      · rw [if_pos (Int.ofNat_lt.mpr hn), if_neg (not_lt.mpr (Int.natCast_nonneg n)),
          Int.toNat_natCast] at hvalue
        rw [component?, hvalue, Option.some_or]
      · rw [if_neg (mt Int.ofNat_lt.mp hn)] at hvalue
        rw [component?, List.getElem?_eq_none (not_lt.mp hn), Option.none_or,
          List.head?_eq_getElem?]
        exact hvalue
    | negSucc n =>
      rw [if_pos (Int.negSucc_lt_zero n)] at hvalue
      split_ifs at hvalue with hposition
      have hn : n < values.length := by omega
      rw [component?, List.getElem?_reverse hn, ← hvalue]
      congr 1
      omega
  · cases h

theorem mem_of_component? {index : ℤ} {values : List Binary64} {x : Binary64}
    (h : component? index values = some x) : x ∈ values := by
  cases index with
  | ofNat n =>
    rcases Option.or_eq_some_iff.mp h with h | ⟨-, h⟩
    · exact List.mem_of_getElem? h
    · exact List.mem_of_head? h
  | negSucc n => exact List.mem_reverse.mp (List.mem_of_getElem? h)

theorem Handle.pick_eq_ok {index : ℤ} {handle picked : Handle} (h : handle.pick index = .ok picked) :
    ∃ x, picked = .one x ∧ handle.component? index = some x ∧ x ∈ handle.numbers := by
  cases handle with
  | one value =>
    cases h
    exact ⟨value, rfl, rfl, List.mem_singleton_self value⟩
  | each values =>
    rw [Handle.pick] at h
    cases hpick : Motion.pick index values with
    | ok x =>
      rw [hpick] at h
      cases h
      exact ⟨x, rfl, Motion.pick_eq_ok hpick, mem_of_component? (Motion.pick_eq_ok hpick)⟩
    | error fault =>
      rw [hpick] at h
      cases h

theorem Binary64.isFinite_neg (x : Binary64) : x.neg.isFinite = x.isFinite := by
  cases x <;> rfl

theorem Binary64.toRat_neg (x : Binary64) : x.neg.toRat = -x.toRat := by
  cases x with
  | finite negative exponent fraction =>
    cases negative <;> simp [neg, toRat]
  | _ => simp [neg, toRat]

section Segments

variable {index : ℤ} {reversed : Bool} {path : String} {keyframes : List Keyframe} {n : ℕ}

theorem mem_numbers_of_start {keyframe : Keyframe} {start : List Binary64} {x : Binary64}
    (hstart : keyframe.start = some start) (h : x ∈ start) : x ∈ keyframe.numbers := by
  simp [Keyframe.numbers, hstart, h]

theorem mem_numbers_of_finish {keyframe : Keyframe} {finish : List Binary64} {x : Binary64}
    (hfinish : keyframe.finish = some finish) (h : x ∈ finish) : x ∈ keyframe.numbers := by
  simp [Keyframe.numbers, hfinish, h]

/-- The handles of a component are finite numbers among those of the keyframe. -/
theorem pickHandles_eq_ok {keyframe : Keyframe} {inward outward : Tangent} {handles : Handles}
    (hinward : keyframe.inward = some inward) (houtward : keyframe.outward = some outward)
    (h : pickHandles index outward inward = .ok handles) :
    ∃ outX outY inX inY, handles = ⟨.one outX, .one outY, .one inX, .one inY⟩ ∧
      outward.x.component? index = some outX ∧ outward.y.component? index = some outY ∧
      inward.x.component? index = some inX ∧ inward.y.component? index = some inY ∧
      ∀ x ∈ [outX, outY, inX, inY], x ∈ keyframe.numbers := by
  obtain ⟨first, hfirst, h⟩ := Except.bind_eq_ok h
  obtain ⟨second, hsecond, h⟩ := Except.bind_eq_ok h
  obtain ⟨third, hthird, h⟩ := Except.bind_eq_ok h
  obtain ⟨fourth, hfourth, h⟩ := Except.bind_eq_ok h
  cases h
  obtain ⟨outX, rfl, houtX, hmemOutX⟩ := Handle.pick_eq_ok hfirst
  obtain ⟨outY, rfl, houtY, hmemOutY⟩ := Handle.pick_eq_ok hsecond
  obtain ⟨inX, rfl, hinX, hmemInX⟩ := Handle.pick_eq_ok hthird
  obtain ⟨inY, rfl, hinY, hmemInY⟩ := Handle.pick_eq_ok hfourth
  refine ⟨outX, outY, inX, inY, rfl, houtX, houtY, hinX, hinY, ?_⟩
  simp [Keyframe.numbers, hinward, houtward, hmemOutX, hmemOutY, hmemInX, hmemInY]

/-- The segment of a keyframe is the call for it. -/
theorem plainSegment_eq_ok {keyframe : Keyframe} {value : Binary64} {isLast : Bool}
    {segment : Segment} (h : plainSegment index reversed path n isLast value keyframe = .ok segment)
    (hn : keyframes[n]? = some keyframe) (hstart : startAt? index keyframes n = some value)
    (hlast : isLast = true ↔ n + 1 = keyframes.length) (hvalue : value.isFinite = true)
    (hfinite : ∀ x ∈ keyframe.numbers, x.isFinite = true) :
    callAt? index reversed keyframes n = some segment.call ∧ segment.IsPlain ∧
      ∀ x ∈ segment.numbers, x.isFinite = true := by
  have htime : keyframe.time.isFinite = true := hfinite _ (by simp [Keyframe.numbers])
  unfold plainSegment at h
  rw [callAt?, hn, hstart]
  dsimp only [Option.bind_eq_bind, Option.bind_some]
  by_cases hend : isLast = true
  · rw [if_pos hend] at h
    cases h
    rw [if_pos (hlast.mp hend)]
    have hsign : (if reversed then -value.toRat else value.toRat) =
        (if reversed then value.neg else value).toRat := by
      rw [← Binary64.toRat_neg, apply_ite Binary64.toRat]
    rw [hsign]
    refine ⟨rfl, trivial, ?_⟩
    cases reversed <;> simp [Segment.numbers, htime, hvalue, Binary64.isFinite_neg]
  · rw [if_neg hend] at h
    rw [if_neg (mt hlast.mpr hend)]
    split at h
    · rename_i inward outward hinward houtward
      obtain ⟨handles, hhandles, h⟩ := Except.bind_eq_ok h
      cases h
      obtain ⟨outX, outY, inX, inY, rfl, houtX, houtY, hinX, hinY, hmem⟩ :=
        pickHandles_eq_ok hinward houtward hhandles
      rw [hinward, houtward]
      dsimp only [Option.bind_some]
      rw [houtX, houtY, hinX, hinY]
      refine ⟨rfl, by simp [Segment.IsPlain, Handles.coordinates, Handle.numbers], ?_⟩
      have hhandles : ∀ x ∈ [outX, outY, inX, inY], x.isFinite = true :=
        fun x hx ↦ hfinite x (hmem x hx)
      exact List.forall_mem_cons.mpr ⟨htime, List.forall_mem_cons.mpr ⟨hvalue, hhandles⟩⟩
    · cases h
    · rename_i hinward
      cases h
      rw [hinward]
      exact ⟨rfl, trivial, by simp [Segment.numbers, htime, hvalue]⟩

theorem startAt?_of_start {keyframe : Keyframe} {start : List Binary64}
    (hn : keyframes[n]? = some keyframe) (hstart : keyframe.start = some start) :
    startAt? index keyframes n = component? index start := by
  cases n with
  | zero => rw [startAt?, hn, Option.bind_some, hstart, Option.bind_some]
  | succ n => rw [startAt?, hn, Option.bind_some, hstart]

/-- The component of a vector, or the value carried along where there is none. -/
def pickOr (index : ℤ) (values : Option (List Binary64)) (carried : Binary64) :
    Except Fault Binary64 :=
  match values with
  | some values => pick index values
  | none => .ok carried

theorem pickOr_eq_ok {values : Option (List Binary64)} {carried x : Binary64}
    (h : pickOr index values carried = .ok x) :
    (∃ list, values = some list ∧ component? index list = some x ∧ x ∈ list) ∨
      values = none ∧ x = carried := by
  cases values with
  | none =>
    cases h
    exact Or.inr ⟨rfl, rfl⟩
  | some list =>
    have hpick := pick_eq_ok h
    exact Or.inl ⟨list, rfl, hpick, mem_of_component? hpick⟩

theorem plainSegments_cons (last : Binary64) (keyframe : Keyframe) (rest : List Keyframe) :
    plainSegments index reversed path n last (keyframe :: rest) =
      pickOr index keyframe.start last >>= fun value ↦
        plainSegment index reversed path n rest.isEmpty value keyframe >>= fun segment ↦
          pickOr index keyframe.finish value >>= fun finish ↦
            plainSegments index reversed path (n + 1) finish rest >>= fun more ↦
              .ok (segment :: more) := by
  rw [plainSegments]
  cases keyframe.start <;> cases keyframe.finish <;> rfl

/-- The value carried along after a keyframe is the start of the next one, if that has none of its
own. -/
theorem startAt?_succ {keyframe next : Keyframe} {value finish : Binary64}
    (hn : keyframes[n]? = some keyframe) (hvalue : startAt? index keyframes n = some value)
    (hfinish : pickOr index keyframe.finish value = .ok finish)
    (hnext : keyframes[n + 1]? = some next) (hstart : next.start = none) :
    startAt? index keyframes (n + 1) = some finish := by
  rw [startAt?, hnext, Option.bind_some, hstart, hn, Option.bind_some]
  rcases pickOr_eq_ok hfinish with ⟨values, hend, hcomponent, -⟩ | ⟨hend, rfl⟩
  · rw [hend]
    exact hcomponent
  · rw [hend]
    exact hvalue

/-- The segments of keyframes are the calls for them. -/
theorem plainSegments_eq_ok {rest : List Keyframe} {last : Binary64} {segments : List Segment}
    (h : plainSegments index reversed path n last rest = .ok segments)
    (hrest : keyframes.drop n = rest)
    (hlast : ∀ keyframe, keyframes[n]? = some keyframe → keyframe.start = none →
      startAt? index keyframes n = some last)
    (hvalue : last.isFinite = true)
    (hfinite : ∀ keyframe ∈ keyframes, ∀ x ∈ keyframe.numbers, x.isFinite = true) :
    (List.range' n rest.length).mapM (callAt? index reversed keyframes) =
        some (segments.map Segment.call) ∧
      ∀ segment ∈ segments, segment.IsPlain ∧ ∀ x ∈ segment.numbers, x.isFinite = true := by
  induction rest generalizing n last segments with
  | nil =>
    cases h
    exact ⟨rfl, List.forall_mem_nil _⟩
  | cons keyframe rest ih =>
    obtain ⟨hn, hdrop⟩ := of_drop_eq_cons hrest
    have hnumbers := hfinite keyframe (List.mem_of_getElem? hn)
    rw [plainSegments_cons] at h
    obtain ⟨value, hstart, h⟩ := Except.bind_eq_ok h
    obtain ⟨segment, hsegment, h⟩ := Except.bind_eq_ok h
    obtain ⟨finish, hfinish, h⟩ := Except.bind_eq_ok h
    obtain ⟨more, hmore, h⟩ := Except.bind_eq_ok h
    cases h
    have hvalue : startAt? index keyframes n = some value ∧ value.isFinite = true := by
      rcases pickOr_eq_ok hstart with ⟨start, hown, hcomponent, hmem⟩ | ⟨hown, rfl⟩
      · exact ⟨(startAt?_of_start hn hown).trans hcomponent,
          hnumbers _ (mem_numbers_of_start hown hmem)⟩
      · exact ⟨hlast keyframe hn hown, hvalue⟩
    have hisLast : rest.isEmpty = true ↔ n + 1 = keyframes.length := by
      rw [List.isEmpty_iff, ← hdrop, List.drop_eq_nil_iff]
      have hless := (List.getElem?_eq_some_iff.mp hn).1
      omega
    have hfinite' : finish.isFinite = true := by
      rcases pickOr_eq_ok hfinish with ⟨values, hend, -, hmem⟩ | ⟨-, rfl⟩
      · exact hnumbers _ (mem_numbers_of_finish hend hmem)
      · exact hvalue.2
    obtain ⟨hcall, hplain⟩ :=
      plainSegment_eq_ok hsegment hn hvalue.1 hisLast hvalue.2 hnumbers
    obtain ⟨hcalls, hplains⟩ := ih hmore hdrop
      (fun next hnext hown ↦ startAt?_succ hn hvalue.1 hfinish hnext hown) hfinite'
    rw [List.length_cons, List.range'_succ, List.mapM_cons, hcall, hcalls]
    exact ⟨rfl, List.forall_mem_cons.mpr ⟨hplain, hplains⟩⟩

/-- A component that is no number, of a property that does not move along a path in space, has the
program of the calls for its keyframes. -/
theorem courseOf_eq_moving {precision : ℕ} {count : ℤ} {program : Program}
    (h : courseOf precision keyframes count index reversed path = .ok (.moving program))
    (hflat : IsFlat keyframes) :
    ∃ segments, program = ⟨none, segments⟩ ∧ segments ≠ [] ∧
      callsOf? index reversed keyframes = some (segments.map Segment.call) ∧
      ∀ segment ∈ segments, segment.IsPlain ∧ ∀ x ∈ segment.numbers, x.isFinite = true := by
  cases keyframes with
  | nil => cases h
  | cons first rest =>
    have hspatial : first.spatialIn = none := hflat.tangent
    rw [courseOf] at h
    split at h
    · cases h
    · cases h
    · rename_i start hstart
      obtain ⟨value, hpick, h⟩ := Except.bind_eq_ok h
      obtain ⟨constant, -, h⟩ := Except.bind_eq_ok h
      have hcomponent := pick_eq_ok hpick
      have hvalue : value.isFinite = true := hflat.finite first List.mem_cons_self value
        (mem_numbers_of_start hstart (mem_of_component? hcomponent))
      rw [hspatial] at h
      cases constant with
      | true => cases h
      | false =>
        obtain ⟨segments, hsegments, h⟩ := Except.bind_eq_ok h
        cases h
        obtain ⟨hcalls, hplain⟩ := plainSegments_eq_ok hsegments List.drop_zero
          (fun keyframe hkeyframe hnone ↦ by
            cases hkeyframe
            rw [hstart] at hnone
            cases hnone) hvalue hflat.finite
        refine ⟨segments, rfl, ?_, ?_, hplain⟩
        · rintro rfl
          rw [plainSegments_cons] at hsegments
          obtain ⟨_, -, h⟩ := Except.bind_eq_ok hsegments
          obtain ⟨_, -, h⟩ := Except.bind_eq_ok h
          obtain ⟨_, -, h⟩ := Except.bind_eq_ok h
          obtain ⟨_, -, h⟩ := Except.bind_eq_ok h
          cases h
        · rw [callsOf?, List.range_eq_range', hcalls]

/-- A component that compiles to an expression reads the easing of its program, which is
registered. -/
theorem compileComponent_registers {history : History} (hsound : history.IsSound) {count : ℤ}
    {x : Scalar} {next : EasingTable}
    (h : (compileComponent keyframes count index reversed path).run.run history.table = (.ok x, next))
    (hx : x.isNumber = false)
    (hne : ∀ program, courseOf history.table.precision keyframes count index reversed path =
      .ok (.moving program) → program.text history.table.precision ≠ []) :
    ∃ name program, courseOf history.table.precision keyframes count index reversed path =
        .ok (.moving program) ∧
      x = .ofToken (tokenOf name) ∧ nameOf name = name ∧
      next = history.table.after
        (.add (String.ofList (program.text history.table.precision))) ∧
      Entries.get? next.programs name =
        some (String.ofList (program.text history.table.precision)) := by
  rw [run_compileComponent] at h
  cases hcourse : courseOf history.table.precision keyframes count index reversed path with
  | error fault =>
    rw [hcourse] at h
    cases h
  | ok course =>
    rw [hcourse] at h
    dsimp only at h
    rw [Course.run_register] at h
    cases course with
    | constant value =>
      cases h
      cases hx
    | moving program =>
      obtain ⟨hscalar, hnext⟩ := Prod.mk.inj h
      have hnonempty : String.ofList (program.text history.table.precision) ≠ "" := by
        intro hempty
        refine hne program hcourse ?_
        rw [← String.toList_ofList (l := program.text _), hempty]
        rfl
      obtain ⟨name, hname, htoken, hget⟩ := hsound.add_spec hnonempty
      rw [htoken] at hscalar
      exact ⟨name, program, rfl, (Except.ok.inj hscalar).symm, hname, hnext.symm, hnext ▸ hget⟩

/-- A component that compiles to an expression reads the easing of a program, which is registered
and reads as the calls for the keyframes. -/
theorem compileComponent_eq_ok {history : History} (hsound : history.IsSound)
    {count : ℤ} {x : Scalar} {next : EasingTable} (hflat : IsFlat keyframes)
    (h : (compileComponent keyframes count index reversed path).run.run history.table = (.ok x, next))
    (hx : x.isNumber = false) :
    ∃ name calls program, x = .ofToken (tokenOf name) ∧ nameOf name = name ∧
      callsOf? index reversed keyframes = some calls ∧
      Call.readAll? program.toList = some calls ∧
      program.toList = [' '].intercalate (calls.map Call.text) ∧
      next = history.table.after (.add program) ∧
      Entries.get? next.programs name = some program := by
  have hread (program : Program) (hcourse : courseOf history.table.precision keyframes count index
      reversed path = .ok (.moving program)) :
      ∃ calls, callsOf? index reversed keyframes = some calls ∧
        Call.readAll? (program.text history.table.precision) = some calls ∧
        program.text history.table.precision = [' '].intercalate (calls.map Call.text) := by
    obtain ⟨segments, rfl, hne, hcalls, hplain⟩ := courseOf_eq_moving hcourse hflat
    exact ⟨_, hcalls, Program.readAll?_text hne (fun s hs ↦ (hplain s hs).1)
      (fun s hs ↦ (hplain s hs).2) _, Program.text_eq_calls (fun s hs ↦ (hplain s hs).1)
      (fun s hs ↦ (hplain s hs).2) _⟩
  obtain ⟨name, program, hcourse, hscalar, hname, hnext, hget⟩ :=
    compileComponent_registers hsound h hx fun program hcourse hempty ↦ by
      obtain ⟨calls, -, hcalls, -⟩ := hread program hcourse
      rw [hempty] at hcalls
      cases hcalls
  obtain ⟨calls, hcalls, hreads, htext⟩ := hread program hcourse
  refine ⟨name, calls, _, hscalar, hname, hcalls, ?_, ?_, hnext, hget⟩
  · rw [String.toList_ofList, hreads]
  · rw [String.toList_ofList, htext]

end Segments

/-- A component that compiles to an expression, from any table that a run leads to, reads a program
that is registered under its token and that reads as the calls for the keyframes, one each. Two
components that are compiled one after the other, with nothing but registrations in between, have
one token exactly if these calls are the same. -/
theorem compileComponent_encodes {precision : ℕ} {events between : List TableEvent}
    {keyframes keyframes' : List Keyframe} {count count' index index' : ℤ}
    {reversed reversed' : Bool} {path path' : String} {x y : Scalar} {table table' : EasingTable}
    (hflat : IsFlat keyframes) (hflat' : IsFlat keyframes')
    (hrun : (compileComponent keyframes count index reversed path).run.run
      ((EasingTable.empty precision).run events) = (.ok x, table))
    (hbetween : ∀ event ∈ between, ∃ program, event = .add program)
    (hrun' : (compileComponent keyframes' count' index' reversed' path').run.run
      (table.run between) = (.ok y, table'))
    (hx : x.isNumber = false) (hy : y.isNumber = false) :
    ∃ token token' calls calls', x = .ofToken token ∧ y = .ofToken token' ∧
      callsOf? index reversed keyframes = some calls ∧ table.Shows token calls ∧
      callsOf? index' reversed' keyframes' = some calls' ∧ table'.Shows token' calls' ∧
      (token = token' ↔ calls = calls') := by
  have hsound : ((History.start precision).run events).IsSound :=
    (History.isSound_empty precision).run events
  have htable : ((History.start precision).run events).table =
      (EasingTable.empty precision).run events := History.table_run _ _
  rw [← htable] at hrun
  obtain ⟨name, calls, program, rfl, hname, hcalls, hread, htext, rfl, hget⟩ :=
    compileComponent_eq_ok hsound hflat hrun hx
  have hsound' := (hsound.add program).run between
  have htable' : ((((History.start precision).run events).after (.add program)).run between).table =
      (((History.start precision).run events).table.after (.add program)).run between :=
    History.table_run _ _
  rw [← htable'] at hrun'
  obtain ⟨name', calls', program', rfl, hname', hcalls', hread', htext', rfl, hget'⟩ :=
    compileComponent_eq_ok hsound' hflat' hrun' hy
  have hspares : ∀ event ∈ between, EasingTable.Spares name event := by
    intro event hevent
    obtain ⟨other, rfl⟩ := hbetween event hevent
    trivial
  have hkept := (hsound.add program).get?_run hget hspares
  rw [← History.table_run] at hkept
  have hspared : EasingTable.Spares name (.add program') := trivial
  have hkept' := hsound'.get?_after hkept hspared
  refine ⟨tokenOf name, tokenOf name', calls, calls', rfl, rfl, hcalls, ⟨program, ?_, hread⟩,
    hcalls', ⟨program', ?_, hread'⟩, fun htoken ↦ ?_, fun hsame ↦ ?_⟩
  · rw [EasingTable.get?, nameOf_tokenOf, hname, hget]
  · rw [EasingTable.get?, nameOf_tokenOf, hname', hget']
  · rw [tokenOf_injective htoken, hget'] at hkept'
    rw [Option.some.inj hkept', hread] at hread'
    exact Option.some.inj hread'
  · have hprogram : program = program' := by
      rw [← String.toList_inj, htext, htext', hsame]
    rw [(hsound'.add program').name_unique (hkept'.trans (congrArg some hprogram)) hget']

/-- Keyframes of a vector that starts along a curve, with a sign for the zero that is its time. -/
def curvedKeyframes (negative : Bool) : List Keyframe :=
  let half : Binary64 := .finite false ⟨1022, by decide⟩ ⟨0, by decide⟩
  let one : Binary64 := .finite false ⟨1023, by decide⟩ ⟨0, by decide⟩
  [⟨.zero negative, some [one, half], none, some ⟨.one half, .each [one, half]⟩,
      some ⟨.one one, .one half⟩, none, none⟩,
    ⟨half, none, some [half, one], none, none, none, none⟩,
    ⟨one, none, none, none, none, none, none⟩]

/-- The sign of a zero makes no other program. -/
theorem compileComponent_encodes_zeros :
    let other := TableEvent.add "line(0,0) end(5,5)"
    let compiled (negative : Bool) (table : EasingTable) :=
      (compileComponent (curvedKeyframes negative) 2 1 true "ks.p").run.run (table.run [other])
    let table := (compiled false (.empty 3)).2
    let table' := (compiled true table).2
    (∀ negative, IsFlat (curvedKeyframes negative)) ∧
    compiled false (.empty 3) = (.ok (.ofToken "@ease2"), table) ∧
    compiled true table = (.ok (.ofToken "@ease2"), table') ∧
    ∃ token token' calls calls', Scalar.ofToken "@ease2" = .ofToken token ∧
      Scalar.ofToken "@ease2" = .ofToken token' ∧
      callsOf? 1 true (curvedKeyframes false) = some calls ∧ table.Shows token calls ∧
      callsOf? 1 true (curvedKeyframes true) = some calls' ∧ table'.Shows token' calls' ∧
      (token = token' ↔ calls = calls') := by
  intro other compiled table table'
  have hflat (negative : Bool) : IsFlat (curvedKeyframes negative) := by
    cases negative <;> exact ⟨rfl, by decide⟩
  have hrun : compiled false (.empty 3) = (.ok (.ofToken "@ease2"), table) :=
    Compile.run_eq_ok (by decide +kernel) rfl
  have hrun' : compiled true table = (.ok (.ofToken "@ease2"), table') :=
    Compile.run_eq_ok (by decide +kernel) rfl
  have hother : ∀ event ∈ [other], ∃ program, event = .add program :=
    fun event hevent ↦ ⟨_, List.mem_singleton.mp hevent⟩
  exact ⟨hflat, hrun, hrun',
    compileComponent_encodes (hflat false) (hflat true) hrun hother hrun' rfl rfl⟩

end Motion
