import Motion.Proofs.Scene.Lossless
import Motion.Proofs.Scene.Tokens

/-!
The tagged maps of a run are typed at each of its moments (`Tagged.IsTyped`): under the tag of
numbers there is a number, under that of bindings a simple binding without blanks, and a property
with a special value has no other value. Tagging makes typed maps of whatever members a group has
(`isTyped_tagMembers`). A push is made only where nothing on both sides is special, so it merges
nothing but numbers and bindings, and so it does on its way (`Push.maps_merges`). Therefore the maps
of all groups and all candidates that a run goes through are typed (`Item.mapsEach_isTyped`),
wherever it stops.
-/

set_option autoImplicit false
set_option relaxedAutoImplicit false

namespace Motion

/-- What a value is under a tag of some kind: a number, a simple binding without blanks, or
anything. -/
def FitsKind : Kind → Data → Prop
  | .numeric, value => ∃ n, value = .num n
  | .binding, value => ∃ s, value.interior? = some s ∧ Text.removeBlanks s = s
  | .special, _ => True

/-- What pushes merge: values that fit their kind and are not special. -/
def Merges (kind : Kind) (value : Data) : Prop :=
  kind ≠ .special ∧ FitsKind kind value

theorem Merges.isArithmetic {kind : Kind} {value : Data} (h : Merges kind value) :
    value.IsArithmetic := by
  obtain ⟨hkind, hfits⟩ := h
  cases kind with
  | numeric => exact Or.inl hfits
  | binding =>
    obtain ⟨s, hinterior, -⟩ := hfits
    exact Or.inr ⟨s, hinterior⟩
  | special => exact absurd rfl hkind

/-- Merging makes numbers, and bindings without blanks. -/
theorem isKept_merges : IsKept Merges where
  number := fun n ↦ ⟨by decide, n, rfl⟩
  joined := by
    intro operator kind current value text _ hvalue hcurrent hjoined
    have harithmetic : current = .null ∨ current.IsArithmetic :=
      hcurrent.imp_right Merges.isArithmetic
    have hdense := hjoined.isDense hvalue.isArithmetic harithmetic
    exact ⟨by decide, text, hjoined.interior? hvalue.isArithmetic harithmetic,
      removeBlanks_of_isDense hdense⟩

theorem Data.fitsKind_tagged (value : Data) : FitsKind value.kind value.tagged := by
  rcases value.tagged_cases with ⟨n, -, hkind, htagged⟩ | ⟨s, expression, -, -, hkind, htagged⟩ |
    ⟨-, -, hkind, -⟩
  · rw [hkind, htagged]
    exact ⟨n, rfl⟩
  · rw [hkind]
    exact ⟨_, htagged, removeBlanks_removeBlanks expression⟩
  · rw [hkind]
    trivial

/-- Tags whose values fit their kinds, where a special value is the only one of its property. -/
structure Tagged.IsTyped (tags : Tagged) : Prop where
  keeps : tags.Keeps FitsKind
  alone : ∀ property value, Entries.get? tags ⟨property, .special⟩ = some value →
    ∀ kind, kind ≠ .special → Entries.get? tags ⟨property, kind⟩ = none

namespace Tagged

variable {tags : Tagged}

theorem isTyped_nil : IsTyped [] :=
  ⟨holds_nil, fun _ _ hget ↦ (by cases hget)⟩

theorem IsTyped.sublist (h : tags.IsTyped) {part : Tagged} (hpart : part.Sublist tags) :
    part.IsTyped where
  keeps := h.keeps.sublist hpart
  alone := by
    intro property value hget kind hkind
    by_contra hsome
    obtain ⟨other, hother⟩ := Option.ne_none_iff_exists'.mp hsome
    -- What is under a tag of the part is under it in the whole, since no tag is there twice.
    have hsub (tag : Tag) (current : Data) (hcurrent : Entries.get? part tag = some current) :
        Entries.get? tags tag = some current :=
      Entries.get?_of_mem h.keeps.nodup (hpart.subset (Entries.mem_of_get? hcurrent))
    have hnone := h.alone property value (hsub _ _ hget) kind hkind
    rw [hsub _ _ hother] at hnone
    cases hnone

theorem IsTyped.inTagOrder (h : tags.IsTyped) : (Motion.inTagOrder tags).IsTyped where
  keeps := h.keeps.inTagOrder
  alone := by
    intro property value hget kind hkind
    rw [get?_inTagOrder] at hget ⊢
    exact h.alone property value hget kind hkind

/-- Where nothing is special, typed tags hold values that pushes merge. -/
theorem IsTyped.merges (h : tags.IsTyped) (hkinds : ∀ entry ∈ tags, entry.1.kind ≠ .special) :
    tags.Keeps Merges where
  nodup := h.keeps.nodup
  holds := fun tag value hget ↦
    ⟨hkinds _ (Entries.mem_of_get? hget), h.keeps.holds tag value hget⟩

theorem isTyped_of_merges (h : tags.Keeps Merges) : tags.IsTyped where
  keeps := ⟨h.nodup, fun tag value hget ↦ (h.holds tag value hget).2⟩
  alone := fun _ value hget ↦ absurd rfl (h.holds _ value hget).1

end Tagged

/-- Tagging makes typed tags, whatever the members are. -/
theorem isTyped_tagMembers (members : Members) : (tagMembers members).IsTyped where
  keeps := by
    refine ⟨nodup_tagMembers members, fun tag value hget ↦ ?_⟩
    rw [get?_tagMembers] at hget
    obtain ⟨member, -, hkind, rfl⟩ := taggedValue?_eq_some hget
    rw [← hkind]
    exact member.fitsKind_tagged
  alone := fun _ _ hget _ hkind ↦ get?_tagMembers_of_ne hget hkind

section Pushing

variable {tags candidates : Tagged}

/-- What is special neither in the candidates of a push nor in the tags that accept them. -/
theorem merges_of_accepts (htags : tags.IsTyped) (haccepts : accepts candidates tags = true) :
    tags.Keeps Merges := by
  refine htags.merges fun entry hentry ↦ ?_
  have haccepted := List.all_eq_true.mp haccepts entry hentry
  rw [Bool.and_eq_true, decide_eq_true_eq] at haccepted
  exact haccepted.1

/-- The maps that a push makes on its way: the candidates after each move of a pivot, the tags of
the group after each candidate that they absorb, and what is left of them once they are pruned. -/
def Push.maps (push : Push) : List Tagged :=
  let moved := compensate push.tags push.candidates
  let moves :=
    if push.candidates.isPivotal then
      pivotTags.tails.map fun pivots ↦ (moveEach push.tags push.candidates pivots).value
    else []
  let absorbed :=
    if moved.fault?.isNone then
      (moved.value.inits.map fun taken ↦ (absorb push.tags taken).value) ++
        [(pushInto push.tags push.candidates).value.1]
    else []
  moves ++ absorbed

/-- All maps on the way of a push of what can be merged hold what can be merged. -/
theorem Push.maps_merges {push : Push} (htags : push.tags.Keeps Merges)
    (hcandidates : push.candidates.Keeps Merges) : ∀ map ∈ push.maps, Tagged.Keeps Merges map := by
  have hmoved := compensate_keeps isKept_merges htags hcandidates
  refine List.forall_mem_append.mpr ⟨?_, ?_⟩
  · split_ifs
    · refine List.forall_mem_map.mpr fun pivots hpivots ↦ ?_
      exact moveEach_keeps isKept_merges htags hcandidates ((List.mem_tails _ _).mp hpivots).subset
    · exact List.forall_mem_nil _
  · split_ifs
    · refine List.forall_mem_append.mpr ⟨List.forall_mem_map.mpr fun taken htaken ↦ ?_,
        List.forall_mem_singleton.mpr (pushInto_keeps isKept_merges htags hcandidates).1⟩
      have hpart : taken.Sublist (compensate push.tags push.candidates).value :=
        ((List.mem_inits _ _).mp htaken).sublist
      exact absorb_keeps isKept_merges taken push.tags (hmoved.sublist hpart) htags
    · exact List.forall_mem_nil _

end Pushing

namespace Item

mutual

/-- The maps of the groups and of the candidates that `pushBelow` goes through, one after the other.
A push makes several (`Push.maps`); where candidates have been pushed on, the group drops them one
by one. -/
def mapsBelow (limit depth : ℤ) (push : Bool) (candidates : Tagged) : Item → List Tagged
  | .leaf _ => []
  | .group frame items =>
    let made := received push candidates frame
    let here : List Tagged := if push then Push.maps ⟨frame.tagged, candidates⟩ else []
    let goesOn : Bool := made.fault?.isNone && frame.holding = .listed &&
      (checkDepth limit (depth + 1)).isNone
    let down := inTagOrder made.value.1
    let may := mayPush items down
    let below := pushEach limit (depth + 1) may down items
    let dropped : List Tagged :=
      if may && below.fault?.isNone then below.value.2.inits.map (without made.value.1) else []
    frame.tagged :: candidates :: here ++
      if goesOn then down :: mapsEach limit (depth + 1) may down items ++ dropped else []

/-- The maps that `pushEach` goes through, one after the other. -/
def mapsEach (limit depth : ℤ) (push : Bool) (candidates : Tagged) : List Item → List Tagged
  | [] => []
  | item :: rest =>
    let first := pushBelow limit depth push candidates item
    mapsBelow limit depth push candidates item ++
      if first.fault?.isNone then mapsEach limit depth push first.value.2 rest else []

end

variable {limit : ℤ} {push : Bool} {candidates : Tagged} {frame : Frame} {items : List Item}

/-- What a group makes of candidates that are pushed into it, if they are, is typed, and so is all
that comes up on the way. -/
theorem received_isTyped (hmay : push = true → mayPush [.group frame items] candidates = true)
    (hcandidates : candidates.IsTyped) (hframe : frame.tagged.IsTyped) :
    (received push candidates frame).value.1.IsTyped ∧
      (received push candidates frame).value.2.IsTyped ∧
        ∀ map ∈ if push then Push.maps ⟨frame.tagged, candidates⟩ else [], Tagged.IsTyped map := by
  cases push with
  | false => exact ⟨hframe, hcandidates, List.forall_mem_nil _⟩
  | true =>
    obtain ⟨_, _, hitems, hkinds, haccepts⟩ := mayPush_eq_true (hmay rfl)
    cases hitems
    have htags := merges_of_accepts hframe haccepts
    have hgiven := hcandidates.merges hkinds
    obtain ⟨hmerged, hmoved⟩ := pushInto_keeps isKept_merges htags hgiven
    exact ⟨Tagged.isTyped_of_merges hmerged, Tagged.isTyped_of_merges hmoved, fun map hmap ↦
      Tagged.isTyped_of_merges (Push.maps_merges htags hgiven map hmap)⟩

/-- Candidates that are pushed into a list of items are pushed into its only item. -/
theorem mayPush_cons {item : Item} {rest : List Item}
    (hmay : push = true → mayPush (item :: rest) candidates = true) :
    (push = true → mayPush [item] candidates = true) ∧ (push = true → rest = []) := by
  have hrest : push = true → rest = [] := by
    intro hpush
    obtain ⟨_, _, hitems, -⟩ := mayPush_eq_true (hmay hpush)
    exact (List.cons.inj hitems).2
  exact ⟨fun hpush ↦ hrest hpush ▸ hmay hpush, hrest⟩

mutual

theorem pushBelow_isTyped : ∀ (item : Item) (depth : ℤ) (push : Bool) (candidates : Tagged),
    (push = true → mayPush [item] candidates = true) → candidates.IsTyped →
    Every (fun frame _ ↦ frame.tagged.IsTyped) item →
      Every (fun frame _ ↦ frame.tagged.IsTyped)
          (pushBelow limit depth push candidates item).value.1 ∧
        (pushBelow limit depth push candidates item).value.2.IsTyped
  | .leaf _, _, _, _, _, hcandidates, h => ⟨h, hcandidates⟩
  | .group frame items, depth, push, candidates, hmay, hcandidates, h => by
    obtain ⟨hframe, hitems⟩ := h
    obtain ⟨htags, hgiven, -⟩ := received_isTyped hmay hcandidates hframe
    obtain ⟨dropped, after, hvalue, hafter⟩ :=
      pushBelow_group limit depth push candidates frame items
    rw [hvalue]
    refine ⟨⟨htags.sublist List.filter_sublist, ?_⟩, hgiven⟩
    rcases hafter with rfl | rfl
    · exact hitems
    · exact (pushEach_isTyped items (depth + 1) _ _ id htags.inTagOrder hitems).1

/-- Pushing leaves typed tags, wherever it stops. -/
theorem pushEach_isTyped : ∀ (items : List Item) (depth : ℤ) (push : Bool) (candidates : Tagged),
    (push = true → mayPush items candidates = true) → candidates.IsTyped →
    EveryIn (fun frame _ ↦ frame.tagged.IsTyped) items →
      EveryIn (fun frame _ ↦ frame.tagged.IsTyped)
          (pushEach limit depth push candidates items).value.1 ∧
        (pushEach limit depth push candidates items).value.2.IsTyped
  | [], _, _, _, _, hcandidates, _ => ⟨trivial, hcandidates⟩
  | item :: rest, depth, push, candidates, hmay, hcandidates, h => by
    obtain ⟨hitem, hrest⟩ := mayPush_cons hmay
    obtain ⟨hfirst, hgiven⟩ := pushBelow_isTyped item depth push candidates hitem hcandidates h.1
    rw [pushEach]
    cases (pushBelow limit depth push candidates item).fault? with
    | some fault => exact ⟨⟨hfirst, h.2⟩, hgiven⟩
    | none =>
      -- Candidates that are pushed go into the only item, and then nothing is left to walk.
      cases push with
      | false =>
        obtain ⟨hothers, hlast⟩ := pushEach_isTyped rest depth false _ nofun hgiven h.2
        exact ⟨⟨hfirst, hothers⟩, hlast⟩
      | true =>
        obtain rfl := hrest rfl
        exact ⟨⟨hfirst, trivial⟩, hgiven⟩

end

mutual

theorem mapsBelow_isTyped : ∀ (item : Item) (depth : ℤ) (push : Bool) (candidates : Tagged),
    (push = true → mayPush [item] candidates = true) → candidates.IsTyped →
    Every (fun frame _ ↦ frame.tagged.IsTyped) item →
      ∀ map ∈ mapsBelow limit depth push candidates item, map.IsTyped
  | .leaf _, _, _, _, _, _, _ => List.forall_mem_nil _
  | .group frame items, depth, push, candidates, hmay, hcandidates, h => by
    obtain ⟨hframe, hitems⟩ := h
    obtain ⟨htags, -, hhere⟩ := received_isTyped hmay hcandidates hframe
    have hbelow := mapsEach_isTyped items (depth + 1)
      (mayPush items (inTagOrder (received push candidates frame).value.1)) _ id htags.inTagOrder
      hitems
    have hdropped (dropped : Tagged) :
        (without (received push candidates frame).value.1 dropped).IsTyped :=
      htags.sublist List.filter_sublist
    rw [mapsBelow]
    refine List.forall_mem_append.mpr ⟨List.forall_mem_cons.mpr ⟨hframe,
      List.forall_mem_cons.mpr ⟨hcandidates, hhere⟩⟩, ?_⟩
    split_ifs
    · refine List.forall_mem_cons.mpr ⟨htags.inTagOrder, List.forall_mem_append.mpr ⟨hbelow, ?_⟩⟩
      exact List.forall_mem_map.mpr fun dropped _ ↦ hdropped dropped
    · refine List.forall_mem_cons.mpr ⟨htags.inTagOrder, List.forall_mem_append.mpr ⟨hbelow, ?_⟩⟩
      exact List.forall_mem_nil _
    · exact List.forall_mem_nil _

/-- Among groups with typed tags pushing goes through typed maps only. -/
theorem mapsEach_isTyped : ∀ (items : List Item) (depth : ℤ) (push : Bool) (candidates : Tagged),
    (push = true → mayPush items candidates = true) → candidates.IsTyped →
    EveryIn (fun frame _ ↦ frame.tagged.IsTyped) items →
      ∀ map ∈ mapsEach limit depth push candidates items, map.IsTyped
  | [], _, _, _, _, _, _ => List.forall_mem_nil _
  | item :: rest, depth, push, candidates, hmay, hcandidates, h => by
    obtain ⟨hitem, hrest⟩ := mayPush_cons hmay
    obtain ⟨-, hgiven⟩ :=
      @pushBelow_isTyped limit item depth push candidates hitem hcandidates h.1
    rw [mapsEach]
    refine List.forall_mem_append.mpr
      ⟨mapsBelow_isTyped item depth push candidates hitem hcandidates h.1, ?_⟩
    split_ifs
    · cases push with
      | false => exact mapsEach_isTyped rest depth false _ nofun hgiven h.2
      | true =>
        obtain rfl := hrest rfl
        exact List.forall_mem_nil _
    · exact List.forall_mem_nil _

end

end Item

end Motion
