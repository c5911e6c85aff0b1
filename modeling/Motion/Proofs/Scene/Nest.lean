import Motion.Proofs.Scene.Picture
import Motion.Proofs.Scene.Simple

/-!
Nests of groups, each of which is the only item of the one around it. The walks of collapsing go
down a nest from frame to frame. A push takes the properties of all frames into the innermost one,
and splicing takes away every frame that is left with its type alone.
-/

set_option autoImplicit false
set_option relaxedAutoImplicit false

namespace Motion

theorem Progress.cons_done_nil {α : Type} (first : Progress α) :
    Progress.cons first [] (.done []) = first.map fun item ↦ [item] := by
  unfold cons
  cases h : first.fault? <;> simp [map, h]

namespace Frame

/-- The frame of a group that holds its items in a list. -/
def listed (frame : Frame) : Frame :=
  { frame with holding := .listed }

/-- The frame with the given tags. -/
def withTags (frame : Frame) (tags : Option Tagged) : Frame :=
  { frame with tags }

end Frame

namespace Item

/-- Groups with the given frames around an item, the first frame outermost. -/
def nest (frames : List Frame) (inner : Item) : Item :=
  frames.foldr (fun frame item ↦ .group frame [item]) inner

theorem nest_nil (inner : Item) : nest [] inner = inner :=
  rfl

theorem nest_cons (frame : Frame) (rest : List Frame) (inner : Item) :
    nest (frame :: rest) inner = .group frame [nest rest inner] :=
  rfl

theorem nest_append (first second : List Frame) (inner : Item) :
    nest (first ++ second) inner = nest first (nest second inner) :=
  List.foldr_append

theorem height_nest {frames : List Frame} (h : ∀ frame ∈ frames, frame.holding ≠ .absent)
    (leaf : Data) : height (nest frames (.leaf leaf)) = frames.length := by
  induction frames with
  | nil => rfl
  | cons frame rest ih =>
    obtain ⟨hframe, hrest⟩ := List.forall_mem_cons.mp h
    have hbelow := ih hrest
    rw [height] at hbelow
    rw [nest_cons, height, measure, heightStep_of_ne hframe, measureIn, measureIn, hbelow]
    simp

section Walks

variable {limit : ℤ}

theorem listBelow_nest {frames : List Frame} {inner : Item} {depth : ℤ}
    (h : ∀ frame ∈ frames, frame.holding ≠ .absent) (hlimit : depth + frames.length ≤ limit) :
    listBelow limit depth (nest frames inner) =
      (listBelow limit (depth + frames.length) inner).map (nest (frames.map Frame.listed)) := by
  induction frames generalizing depth with
  | nil => simp [nest_nil, Progress.map]
  | cons frame rest ih =>
    obtain ⟨hframe, hrest⟩ := List.forall_mem_cons.mp h
    rw [List.length_cons] at hlimit ⊢
    push_cast at hlimit ⊢
    have hbelow := ih hrest (show depth + 1 + rest.length ≤ limit by omega)
    rw [nest_cons, listBelow, if_neg hframe, checkDepth_eq_none (by omega), Progress.guarded_none,
      listEach, listEach, Progress.cons_done_nil, hbelow, add_assoc, add_comm 1]
    rfl

theorem changeBelow_nest {change : Frame → List Item → Progress Frame} {after : Frame → Frame}
    {frames : List Frame} {inner : Item} {depth : ℤ}
    (h : ∀ frame ∈ frames, (∀ items, change frame items = .done (after frame)) ∧
      (after frame).holding = .listed)
    (hlimit : depth + frames.length ≤ limit) :
    changeBelow change limit depth (nest frames inner) =
      (changeBelow change limit (depth + frames.length) inner).map (nest (frames.map after)) := by
  induction frames generalizing depth with
  | nil => simp [nest_nil, Progress.map]
  | cons frame rest ih =>
    obtain ⟨⟨hchange, hlisted⟩, hrest⟩ := List.forall_mem_cons.mp h
    rw [List.length_cons] at hlimit ⊢
    push_cast at hlimit ⊢
    have hbelow := ih hrest (show depth + 1 + rest.length ≤ limit by omega)
    rw [nest_cons, changeBelow, hchange, Progress.fault?_done, Progress.guarded_none,
      Progress.value_done, hlisted]
    dsimp only
    rw [checkDepth_eq_none (by omega), Progress.guarded_none, changeEach, changeEach,
      Progress.cons_done_nil, hbelow, add_assoc, add_comm 1]
    rfl

theorem mayPush_nest {frames : List Frame} (hne : frames ≠ []) (inner : Item) {candidates : Tagged}
    (hcandidates : candidates.IsSimple) (h : ∀ frame ∈ frames, frame.tagged.IsSimple ∧
      (frame.tagged.isPivotal = false ∨ candidates.isPivotal = false)) :
    mayPush [nest frames inner] candidates = true := by
  obtain ⟨frame, rest, rfl⟩ := List.exists_cons_of_ne_nil hne
  obtain ⟨htags, hfree⟩ := h frame List.mem_cons_self
  rw [nest_cons, mayPush, Bool.and_eq_true, List.all_eq_true]
  constructor
  · intro candidate hcandidate
    have hget := Entries.get?_of_mem hcandidates.nodup hcandidate
    simpa using (hcandidates.holds candidate.1 candidate.2 hget).1.kind_ne
  · exact accepts_of_isSimple htags hcandidates hfree

theorem pushEach_singleton {depth : ℤ} {push : Bool} {candidates given : Tagged} {item after : Item}
    (h : pushBelow limit depth push candidates item = .done (after, given)) :
    pushEach limit depth push candidates [item] = .done ([after], given) := by
  rw [pushEach, h]
  rfl

theorem isPivotal_inTagOrder {tags : Tagged} (h : (Entries.keys tags).Nodup) :
    (inTagOrder tags).isPivotal = tags.isPivotal := by
  rw [Bool.eq_iff_iff, Tagged.isPivotal_iff (nodup_inTagOrder tags), Tagged.isPivotal_iff h]
  have hcontains (tag : Tag) : Entries.contains (inTagOrder tags) tag = Entries.contains tags tag :=
    Entries.contains_congr (get?_inTagOrder tags tag)
  simp only [hcontains]

/-- Of two maps of tags, one at most acts about the pivot. -/
def IsFree (first second : Tagged) : Prop :=
  first.isPivotal = false ∨ second.isPivotal = false

/-- Where neither of two maps of tags meets another that acts about the pivot with them, what they
are merged to does not either. -/
theorem isFree_inTagOrder {tags candidates merged moved other : Tagged}
    (h : IsSimplePush tags candidates merged moved) (htags : IsFree tags other)
    (hcandidates : IsFree candidates other) : IsFree (inTagOrder merged) other := by
  rw [IsFree, isPivotal_inTagOrder h.simple.nodup]
  by_cases hpivotal : merged.isPivotal = true
  · right
    rcases h.pivotal hpivotal with hacts | hacts
    · exact htags.resolve_left (by simp [hacts])
    · exact hcandidates.resolve_left (by simp [hacts])
  · exact Or.inl (Bool.eq_false_iff.mpr hpivotal)

/-- A group that takes candidates in and hands all it has on to its only item keeps nothing. -/
theorem pushBelow_through {depth : ℤ} {candidates merged given below : Tagged} {frame : Frame}
    {item after : Item} (hpush : pushInto frame.tagged candidates = .done (merged, given))
    (hlisted : frame.holding = .listed) (hdepth : depth + 1 ≤ limit)
    (hmay : mayPush [item] (inTagOrder merged) = true)
    (hbelow : pushBelow limit (depth + 1) true (inTagOrder merged) item = .done (after, below))
    (hcontains : ∀ tag, Entries.contains (inTagOrder merged) tag = true →
      Entries.contains below tag = true) :
    pushBelow limit depth true candidates (.group frame [item]) =
      .done (.group (frame.withTags (some [])) [after], given) := by
  have hreceived : (if true then pushInto frame.tagged candidates
      else .done (frame.tagged, candidates)) = .done (merged, given) := hpush
  have heach := pushEach_singleton hbelow
  have hfault : (pushEach limit (depth + 1) (mayPush [item] (inTagOrder merged)) (inTagOrder merged)
      [item]).fault? = none := by
    rw [hmay, heach]
    rfl
  rw [pushBelow_listed hreceived hlisted hdepth hfault, hmay, heach, if_pos rfl,
    Progress.value_done, without_inTagOrder_eq_nil hcontains]
  rfl

/-- Pushing simple candidates into a nest of frames with simple tags, of which one at most acts about
the pivot, takes the properties of all frames into the last one. -/
theorem pushBelow_nest (leaf : Data) (last : Frame) : ∀ (outer : List Frame) (depth : ℤ) (bound : ℕ)
    (candidates : Tagged), (∀ frame ∈ outer ++ [last], frame.holding = .listed ∧
      frame.tagged.IsSimple) → depth + (outer ++ [last]).length ≤ limit → candidates.IsSimple →
    (candidates :: (outer ++ [last]).map Frame.tagged).Pairwise IsFree →
    (∀ tag, sizeAt candidates tag ≤ bound) →
    ∃ tags given, pushBelow limit depth true candidates (nest (outer ++ [last]) (.leaf leaf)) =
        .done (nest (outer.map (fun frame ↦ frame.withTags (some [])) ++
          [last.withTags (some tags)]) (.leaf leaf), given) ∧ tags.IsSimple ∧
      (∀ tag, Entries.contains candidates tag = true → Entries.contains given tag = true) ∧
      ∀ tag, sizeAt tags tag ≤ bound * ((outer ++ [last]).map Frame.taggedSize).prod
  | [], depth, bound, candidates, hframes, hlimit, hcandidates, hfree, hbound => by
    obtain ⟨hlisted, htags⟩ := hframes last List.mem_cons_self
    have hlast : IsFree candidates last.tagged := by
      simpa using hfree
    obtain ⟨tags, given, hpush, hpushed⟩ := pushInto_isSimplePush htags hcandidates hlast.symm
    refine ⟨tags, given, ?_, hpushed.simple, hpushed.contains, ?_⟩
    · exact pushBelow_listed hpush hlisted (by simpa using hlimit) rfl
    · intro tag
      simpa using hpushed.size bound last.taggedSize hbound last.isWithin_taggedSize tag
  | frame :: outer, depth, bound, candidates, hframes, hlimit, hcandidates, hfree, hbound => by
    rw [List.cons_append] at hframes hlimit hfree
    obtain ⟨⟨hlisted, htags⟩, hrest⟩ := List.forall_mem_cons.mp hframes
    rw [List.map_cons, List.pairwise_cons, List.pairwise_cons] at hfree
    obtain ⟨hcandidatesfree, hframefree, hrestfree⟩ := hfree
    rw [List.length_cons] at hlimit
    push_cast at hlimit
    have hfirst : IsFree candidates frame.tagged := hcandidatesfree _ List.mem_cons_self
    obtain ⟨merged, given, hpush, hpushed⟩ := pushInto_isSimplePush htags hcandidates hfirst.symm
    have hmergedfree (other : Tagged) (hother : other ∈ (outer ++ [last]).map Frame.tagged) :
        IsFree (inTagOrder merged) other :=
      isFree_inTagOrder hpushed (hframefree other hother)
        (hcandidatesfree other (List.mem_cons_of_mem _ hother))
    have hmay : mayPush [nest (outer ++ [last]) (.leaf leaf)] (inTagOrder merged) = true := by
      refine mayPush_nest (by simp) _ hpushed.simple.inTagOrder fun other hother ↦ ?_
      exact ⟨(hrest other hother).2, (hmergedfree _ (List.mem_map_of_mem hother)).symm⟩
    have hsize (tag : Tag) : sizeAt (inTagOrder merged) tag ≤ bound * frame.taggedSize := by
      rw [sizeAt_congr (get?_inTagOrder merged tag)]
      exact hpushed.size bound frame.taggedSize hbound frame.isWithin_taggedSize tag
    obtain ⟨tags, below, hbelow, hsimple, hcontains, htagsize⟩ :=
      pushBelow_nest leaf last outer (depth + 1) _ (inTagOrder merged) hrest (by omega)
        hpushed.simple.inTagOrder (List.pairwise_cons.mpr ⟨hmergedfree, hrestfree⟩) hsize
    refine ⟨tags, given, ?_, hsimple, hpushed.contains, ?_⟩
    · exact pushBelow_through hpush hlisted (by omega) hmay hbelow hcontains
    · intro tag
      rw [List.cons_append, List.map_cons, List.prod_cons, ← Nat.mul_assoc]
      exact htagsize tag

/-- Splicing below a nest of frames that can give way leaves nothing of them. -/
theorem spliceBelow_nest {frames : List Frame} {inner : Item} {depth : ℤ}
    (h : ∀ frame ∈ frames, frame.holding = .listed ∧ frame.members.length = 1 ∧ frame.tags = none)
    (hlimit : depth + frames.length ≤ limit)
    (hinner : (spliceBelow limit (depth + frames.length) inner).fault? = none)
    (hsingle : (spliced (spliceBelow limit (depth + frames.length) inner).value).length ≤ 1) :
    (spliceBelow limit depth (nest frames inner)).fault? = none ∧
      spliced (spliceBelow limit depth (nest frames inner)).value =
        spliced (spliceBelow limit (depth + frames.length) inner).value := by
  induction frames generalizing depth with
  | nil => simpa [nest_nil] using hinner
  | cons frame rest ih =>
    obtain ⟨⟨hlisted, hlength, htags⟩, hrest⟩ := List.forall_mem_cons.mp h
    rw [List.length_cons] at hlimit hinner hsingle ⊢
    push_cast at hlimit hinner hsingle ⊢
    rw [add_comm (rest.length : ℤ), ← add_assoc] at hinner hsingle ⊢
    obtain ⟨hfault, hspliced⟩ :=
      ih hrest (show depth + 1 + rest.length ≤ limit by omega) hinner hsingle
    have hbelow : spliceItems limit (depth + 1) [nest rest inner] =
        .done [(spliceBelow limit (depth + 1) (nest rest inner)).value] := by
      rw [spliceItems, spliceItems, Progress.cons_done_nil, Progress.eq_done hfault]
      rfl
    have hdone : spliceBelow limit depth (nest (frame :: rest) inner) =
        .done (.group frame (spliced (spliceBelow limit (depth + 1 + rest.length) inner).value)) := by
      rw [nest_cons, spliceBelow, hlisted]
      dsimp only
      rw [checkDepth_eq_none (by omega), Progress.guarded_none, hbelow, ← hspliced]
      simp [Progress.map, spliceEach, Progress.done]
    rw [hdone]
    refine ⟨rfl, ?_⟩
    have hredundant : isRedundant (.group frame
        (spliced (spliceBelow limit (depth + 1 + rest.length) inner).value)) = true := by
      simp [isRedundant, hlisted, hlength, htags, hsingle]
    rw [Progress.value_done, spliced, if_pos hredundant]

end Walks

end Item

end Motion
