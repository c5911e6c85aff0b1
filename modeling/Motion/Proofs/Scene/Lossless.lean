import Motion.Proofs.Scene.Absorbing

/-!
The pushes of a run lose none of their candidates (`Data.pushes_keep`). What a push drops after absorbing
the candidates is neutral, since a pivot that it finds is in use (`pushInto_isWholePush`). So it leaves
the sum or product of both numbers and the expression of each candidate as an operand, and tags that can
be pushed on. All of this needs that no binding is empty: an empty one in the child takes nothing in,
while its parent drops the candidate (`Data.pushes_lose`).
-/

set_option autoImplicit false
set_option relaxedAutoImplicit false

namespace Motion

/-- Tags that lose nothing where they are pushed or put back, with integers and bindings of expressions
that are not empty. -/
structure Tagged.IsWhole (tags : Tagged) : Prop extends Tagged.IsSteady tags where
  whole : tags.Holds WholeUnder

section Pruning

variable {tags : Tagged} {tag : Tag}

/-- An integer that counts as neutral changes nothing. -/
theorem eq_of_isNeutral {i : ℤ} (h : isNeutral tag (.num (.int i)) = true) :
    i = if mergeOperator tag = .mul then 1 else 0 := by
  have hdefault : neutral tag = ((if mergeOperator tag = .mul then 1 else 0 : ℤ) : ℚ) :=
    Fits.neutral_eq (Or.inl rfl)
  unfold isNeutral at h
  rw [Data.number?_int] at h
  cases hneutral : (family? tag).bind Family.neutral? with
  | none =>
    rw [hneutral] at h
    cases h
  | some n =>
    rw [hneutral] at h
    rw [neutral_of_neutral? hneutral] at hdefault
    rw [Number.same_int.mp h]
    exact_mod_cast hdefault

/-- Pruning drops no binding, and no pivot that is in use. -/
theorem numberAt_prune (htags : tags.Holds WholeUnder) (hkind : tag.kind = .numeric)
    (hused : family? tag = some .pivot → ∀ value, Entries.get? tags tag = some value →
      pivotUsed tags = true) : Tagged.numberAt (prune tags) tag = tags.numberAt tag := by
  have hfilter := Entries.get?_filter htags.nodup (shows (pivotUsed tags)) tag
  cases hget : Entries.get? tags tag with
  | none =>
    rw [hget] at hfilter
    exact Tagged.numberAt_congr (hfilter.trans hget.symm)
  | some value =>
    obtain ⟨i, rfl⟩ := (htags.holds tag value hget).exists_int hkind
    rw [hget, Option.filter_some] at hfilter
    split_ifs at hfilter with hshows
    · exact Tagged.numberAt_congr (hfilter.trans hget.symm)
    · have hneutral : isNeutral tag (.num (.int i)) = true := by
        by_contra hcontra
        exact hshows (shows_iff.mpr ⟨by simpa using hcontra, fun hpivot ↦ hused hpivot _ hget⟩)
      rw [Tagged.numberAt_of_some hget, eq_of_isNeutral hneutral]
      exact Tagged.numberAt_of_none hfilter

theorem expressionAt_prune (htags : tags.Holds WholeUnder) (hkind : tag.kind = .binding)
    (hused : family? tag = some .pivot → ∀ value, Entries.get? tags tag = some value →
      pivotUsed tags = true) : Tagged.expressionAt (prune tags) tag = tags.expressionAt tag := by
  have hfilter := Entries.get?_filter htags.nodup (shows (pivotUsed tags)) tag
  refine Tagged.expressionAt_congr (hfilter.trans ?_)
  cases hget : Entries.get? tags tag with
  | none => rfl
  | some value =>
    obtain ⟨s, hinterior, -⟩ := (htags.holds tag value hget).exists_expression hkind
    have hneutral : isNeutral tag value = false := by
      unfold isNeutral
      rw [Data.number?_eq_none hinterior]
      cases (family? tag).bind Family.neutral? <;> rfl
    rw [Option.filter_some, if_pos (shows_iff.mpr ⟨hneutral, fun hpivot ↦ hused hpivot _ hget⟩)]

end Pruning

section Pushing

variable {tags candidates moved absorbed : Tagged} {tag : Tag}

/-- Candidates that act about the pivot hold a rotation or scale for whose sake it is used. -/
theorem pivotUsed_of_isPivotal (h : candidates.IsSteady) (hpivotal : candidates.isPivotal = true) :
    pivotUsed candidates = true := by
  obtain ⟨⟨tag, value⟩, hentry, htag⟩ := List.any_eq_true.mp hpivotal
  have hget := Entries.get?_of_mem h.nodup hentry
  obtain ⟨hneutral, hpivot⟩ := shows_iff.mp (h.shown tag value hget)
  have hfamily : family? tag = some .pivot ∨ IsTurning tag := by
    unfold IsTurning
    change some tag.family = some .pivot ∨ some tag.family = some .rotation ∨
      some tag.family = some .scale
    unfold Tag.isPivotal at htag
    cases hcases : tag.family <;> simp_all [Family.isPivotal]
  rcases hfamily with hfamily | hturning
  · exact hpivot hfamily
  · exact pivotUsed_of_get? hget hturning hneutral

/-- Where there is a pivot after an absorption, it is in use. -/
theorem pivotUsed_of_absorbed (htags : tags.IsSteady) (hcandidates : candidates.IsSteady)
    (haccepts : accepts candidates tags = true) (hcompensate : compensate tags candidates = .done moved)
    (hmoved : IsCompensation candidates moved) (habsorbed : IsAbsorption tags moved absorbed)
    (hpivot : family? tag = some .pivot) {value : Data}
    (hget : Entries.get? absorbed tag = some value) : pivotUsed absorbed = true := by
  refine pivotUsed_of_isAbsorption htags hcandidates haccepts hmoved habsorbed ?_
  cases hcandidate : Entries.get? moved tag with
  | none =>
    rw [habsorbed.other tag hcandidate] at hget
    exact Or.inl ((shows_iff.mp (htags.shown tag value hget)).2 hpivot)
  | some current =>
    refine Or.inr (pivotUsed_of_isPivotal hcandidates ?_)
    by_contra hplain
    have hsame : compensate tags candidates = .done candidates := if_neg hplain
    rw [hsame] at hcompensate
    cases hcompensate
    refine hplain (List.any_eq_true.mpr ⟨_, Entries.mem_of_get? hcandidate, ?_⟩)
    simp [Tag.isPivotal, Option.some_inj.mp hpivot, Family.isPivotal]

/-- What a push of candidates into the tags of a child makes of both if it loses none: nothing but
numbers and bindings of expressions that are not empty are under the tags of the child, the parent
drops all candidates, the shifts of the child have been taken off the pivots of the candidates, and
what is under each tag of the child is the sum or product of both sides. So the expression of each
candidate is an operand there. -/
structure IsWholePush (tags candidates merged moved : Tagged) : Prop where
  holds : merged.Holds WholeUnder
  contains : ∀ tag, Entries.contains candidates tag = true → Entries.contains moved tag = true
  movedNumber : ∀ tag : Tag, tag.kind = .numeric → moved.numberAt tag = candidates.numberAt tag -
    if IsMovable candidates tag then tags.numberAt tag.shift else 0
  movedExpression : ∀ tag : Tag, tag.kind = .binding → moved.expressionAt tag =
    joined .sub (candidates.expressionAt tag)
      (if IsMovable candidates tag then tags.expressionAt tag.shift else [])
  number : ∀ tag : Tag, tag.kind = .numeric → merged.numberAt tag =
    (mergeOperator tag).exact (tags.numberAt tag) (moved.numberAt tag)
  expression : ∀ tag : Tag, tag.kind = .binding → merged.expressionAt tag =
    joined (mergeOperator tag) (tags.expressionAt tag) (moved.expressionAt tag)
  operand : ∀ tag : Tag, tag.kind = .binding → Entries.contains candidates tag = true →
    candidates.expressionAt tag ≠ [] ∧
      IsOperandOf (candidates.expressionAt tag) (merged.expressionAt tag)

/-- What has been absorbed loses nothing where it is pruned, as long as no pivot is left unused. -/
theorem isWholePush_prune (hcandidates : candidates.Holds WholeUnder)
    (hmoved : IsWholeCompensation tags candidates moved)
    (habsorbed : IsWholeAbsorption tags moved absorbed)
    (hused : ∀ tag : Tag, family? tag = some .pivot → ∀ value,
      Entries.get? absorbed tag = some value → pivotUsed absorbed = true) :
    IsWholePush tags candidates (prune absorbed) moved := by
  have hexpression (tag : Tag) (hkind : tag.kind = .binding) :
      Tagged.expressionAt (prune absorbed) tag =
        joined (mergeOperator tag) (tags.expressionAt tag) (moved.expressionAt tag) := by
    rw [expressionAt_prune habsorbed.holds hkind (hused tag), habsorbed.expression tag hkind]
  refine ⟨habsorbed.holds.filter _, hmoved.contains, hmoved.number, hmoved.expression,
    fun tag hkind ↦ ?_, hexpression, fun tag hkind hcontains ↦ ?_⟩
  · rw [numberAt_prune habsorbed.holds hkind (hused tag), habsorbed.number tag hkind]
  · rw [Entries.contains_eq_isSome, Option.isSome_iff_exists] at hcontains
    obtain ⟨value, hget⟩ := hcontains
    obtain ⟨s, hinterior, -, hne⟩ := (hcandidates.holds tag value hget).exists_expression hkind
    rw [hexpression tag hkind, hmoved.expression tag hkind,
      Tagged.expressionAt_of_some hget hinterior]
    exact ⟨hne, (IsOperandOf.itself.joined_left hne).joined_right (joined_ne_nil (Or.inl hne))
      (mergeOperator_ne_sub tag)⟩

/-- A push into a child that accepts the candidates loses none of them. -/
theorem pushInto_isWholePush (htags : tags.IsWhole) (hcandidates : candidates.IsWhole)
    (hkinds : ∀ candidate ∈ candidates, candidate.1.kind ≠ .special)
    (haccepts : accepts candidates tags = true) :
    ∃ merged moved, pushInto tags candidates = .done (merged, moved) ∧ merged.IsWhole ∧
      IsWholePush tags candidates merged moved := by
  obtain ⟨moved, hcompensate, hmoved⟩ :=
    compensate_isWholeCompensation htags.whole hcandidates.whole
  have hsteady : IsCompensation candidates moved := by
    have hcompensation := compensate_isCompensation htags.toHolds hcandidates.toHolds
    rwa [hcompensate] at hcompensation
  obtain ⟨absorbed, habsorb, habsorbed⟩ := absorb_isWholeAbsorption moved tags htags.whole
    hmoved.holds (hsteady.kind_ne hkinds)
  have habsorption : IsAbsorption tags moved absorbed := by
    have hkept := absorb_isAbsorption moved tags htags.toHolds hsteady.holds (hsteady.kind_ne hkinds)
      (fun tag value hturning hget ↦
        turning_of_accepts hcandidates.toIsSteady haccepts hsteady hturning hget)
      (by rw [habsorb]; rfl)
    rwa [habsorb] at hkept
  have hpush := pushInto_of_absorb hcompensate habsorb
  have hmerged : Tagged.IsSteady (prune absorbed) := by
    have hsteadypush := pushInto_isSteadyPush htags.toIsSteady hcandidates.toIsSteady hkinds haccepts
      (by rw [hpush]; rfl)
    rw [hpush] at hsteadypush
    exact hsteadypush.steady
  exact ⟨prune absorbed, moved, hpush, ⟨hmerged, habsorbed.holds.filter _⟩,
    isWholePush_prune hcandidates.whole hmoved habsorbed fun tag hpivot value hget ↦
      pivotUsed_of_absorbed htags.toIsSteady hcandidates.toIsSteady haccepts hcompensate hsteady
        habsorption hpivot hget⟩

end Pushing

section Tagging

variable {members : Members}

/-- Whether a value denotes an integer, or no number at all. -/
def Data.isWhole (value : Data) : Bool :=
  match value.number? with
  | some (.float _) => false
  | _ => true

/-- Under its tag a value that can be joined to others, and that is an integer if it is a number, is
whole. -/
theorem Data.wholeUnder_tagged {value : Data} (hwhole : value.isWhole = true)
    (htext : ∀ s, value = .str s → hasExpression s = true) (property : Property) :
    WholeUnder ⟨property, value.kind⟩ value.tagged := by
  have hsteady := steadyUnder_tagged htext property
  rcases value.tagged_cases with ⟨n, hnumber, hkind, htagged⟩ | ⟨-, -, -, -, hkind, -⟩ |
    ⟨-, -, hkind, -⟩
  · rw [htagged]
    cases n with
    | int i => exact wholeUnder_int hkind i
    | float x => simp [isWhole, hnumber] at hwhole
  · rw [hkind] at hsteady ⊢
    obtain ⟨s, hs, hblanks, hne⟩ := hsteady
    refine wholeUnder_expression rfl hs (fun c hc ↦ ?_) hne
    rw [isDense, List.all_eq_true.mp (all_of_interior? hs) c hc, Bool.true_and]
    exact List.filter_eq_self.mp hblanks c hc
  · rw [hkind]
    trivial

/-- Members whose properties are there once each, can be joined to others under tags, and are integers
if they are numbers. -/
structure IsCountable (members : Members) : Prop extends IsJoinable members where
  numbers : ∀ property value, (Property.name property, value) ∈ members → value.isWhole = true

theorem IsCountable.filter (h : IsCountable members) (keep : String × Data → Bool) :
    IsCountable (members.filter keep) where
  toIsJoinable := h.toIsJoinable.filter keep
  numbers := fun property value hmember ↦
    h.numbers property value (List.mem_of_mem_filter hmember)

theorem IsCountable.congr {others : Members} (h : IsCountable members)
    (heq : propertiesOf others = propertiesOf members) : IsCountable others where
  nodup := heq ▸ h.nodup
  texts := fun property s hmember ↦ h.texts property s ((mem_congr_propertiesOf heq).mp hmember)
  numbers := fun property value hmember ↦
    h.numbers property value ((mem_congr_propertiesOf heq).mp hmember)

/-- The properties that show are whole under their tags. -/
theorem IsCountable.isWhole (h : IsCountable members) : (tagMembers (prune members)).IsWhole where
  toIsSteady := h.toIsJoinable.isSteady
  whole := by
    refine ⟨nodup_tagMembers _, fun tag value hget ↦ ?_⟩
    rw [get?_tagMembers] at hget
    obtain ⟨member, hmember, hkind, rfl⟩ := taggedValue?_eq_some hget
    have hmem := List.mem_of_mem_filter (Entries.mem_of_get? hmember)
    have hwhole := Data.wholeUnder_tagged (h.numbers tag.property member hmem)
      (fun s hs ↦ h.texts tag.property s (hs ▸ hmem)) tag.property
    rwa [hkind] at hwhole

end Tagging

/-- A push: the tags of the group that receives it, and the candidates. -/
structure Push where
  tags : Tagged
  candidates : Tagged

/-- A push that loses none of its candidates. -/
def Push.IsWhole (push : Push) : Prop :=
  ∃ merged moved, pushInto push.tags push.candidates = .done (merged, moved) ∧
    IsWholePush push.tags push.candidates merged moved

section Running

theorem Tagged.IsWhole.inTagOrder {tags : Tagged} (h : tags.IsWhole) :
    (Motion.inTagOrder tags).IsWhole where
  toIsSteady := h.toIsSteady.inTagOrder
  whole := h.whole.inTagOrder

namespace Item

mutual

/-- The pushes that `pushBelow` makes, one after the other. -/
def pushesBelow (limit depth : ℤ) (push : Bool) (candidates : Tagged) : Item → List Push
  | .leaf _ => []
  | .group frame items =>
    let received : Progress (Tagged × Tagged) :=
      if push then pushInto frame.tagged candidates else .done (frame.tagged, candidates)
    let here : List Push := if push then [⟨frame.tagged, candidates⟩] else []
    let goesOn : Bool := received.fault?.isNone && frame.holding = .listed &&
      (checkDepth limit (depth + 1)).isNone
    let down := inTagOrder received.value.1
    here ++ if goesOn then pushesEach limit (depth + 1) (mayPush items down) down items else []

/-- The pushes that `pushEach` makes, one after the other. -/
def pushesEach (limit depth : ℤ) (push : Bool) (candidates : Tagged) : List Item → List Push
  | [] => []
  | item :: rest =>
    let first := pushBelow limit depth push candidates item
    pushesBelow limit depth push candidates item ++
      if first.fault?.isNone then pushesEach limit depth push first.value.2 rest else []

end

variable {limit : ℤ}

/-- Candidates that may be pushed into items and are whole, if they are pushed. -/
structure MayGive (push : Bool) (candidates : Tagged) (items : List Item) : Prop where
  may : push = true → mayPush items candidates = true
  whole : push = true → candidates.IsWhole

theorem mayGive_false (candidates : Tagged) (items : List Item) : MayGive false candidates items :=
  ⟨fun h ↦ (by cases h), fun h ↦ (by cases h)⟩

/-- What a group with whole tags makes of whole candidates that are pushed into it, if they are. -/
theorem received_isWhole {push : Bool} {candidates : Tagged} {frame : Frame} {items : List Item}
    (h : MayGive push candidates [.group frame items]) (hframe : frame.tagged.IsWhole) :
    ∃ tags given, (if push then pushInto frame.tagged candidates
        else .done (frame.tagged, candidates)) = Progress.done (tags, given) ∧ tags.IsWhole ∧
      (push = true → Push.IsWhole ⟨frame.tagged, candidates⟩) := by
  cases push with
  | false => exact ⟨frame.tagged, candidates, rfl, hframe, fun hpush ↦ (by cases hpush)⟩
  | true =>
    obtain ⟨_, _, hitems, hkinds, haccepts⟩ := mayPush_eq_true (h.may rfl)
    cases hitems
    obtain ⟨merged, moved, hpush, hmerged, hwhole⟩ :=
      pushInto_isWholePush hframe (h.whole rfl) hkinds haccepts
    exact ⟨merged, moved, hpush, hmerged, fun _ ↦ ⟨merged, moved, hpush, hwhole⟩⟩

mutual

theorem pushesBelow_isWhole : ∀ (item : Item) (depth : ℤ) (push : Bool) (candidates : Tagged),
    Every (fun frame _ ↦ frame.tagged.IsWhole) item → MayGive push candidates [item] →
      ∀ made ∈ pushesBelow limit depth push candidates item, made.IsWhole
  | .leaf _, _, _, _, _, _ => List.forall_mem_nil _
  | .group frame items, depth, push, candidates, h, hgive => by
    obtain ⟨tags, given, hreceived, htags, hpush⟩ := received_isWhole hgive h.1
    rw [pushesBelow, hreceived]
    refine List.forall_mem_append.mpr ⟨?_, ?_⟩
    · split_ifs with hpushed
      · exact List.forall_mem_singleton.mpr (hpush hpushed)
      · exact List.forall_mem_nil _
    · split_ifs
      · exact pushesEach_isWhole items (depth + 1) _ _ h.2 ⟨id, fun _ ↦ htags.inTagOrder⟩
      · exact List.forall_mem_nil _

/-- Among groups with whole tags no push loses any of its candidates. -/
theorem pushesEach_isWhole : ∀ (items : List Item) (depth : ℤ) (push : Bool) (candidates : Tagged),
    EveryIn (fun frame _ ↦ frame.tagged.IsWhole) items → MayGive push candidates items →
      ∀ made ∈ pushesEach limit depth push candidates items, made.IsWhole
  | [], _, _, _, _, _ => List.forall_mem_nil _
  | item :: rest, depth, push, candidates, h, hgive => by
    rw [pushesEach]
    cases push with
    | false =>
      refine List.forall_mem_append.mpr
        ⟨pushesBelow_isWhole item depth false candidates h.1 (mayGive_false _ _), ?_⟩
      split_ifs
      · exact pushesEach_isWhole rest depth false _ h.2 (mayGive_false _ _)
      · exact List.forall_mem_nil _
    | true =>
      obtain ⟨_, _, hitems, -⟩ := mayPush_eq_true (hgive.may rfl)
      obtain ⟨rfl, rfl⟩ := List.cons.inj hitems
      refine List.forall_mem_append.mpr
        ⟨pushesBelow_isWhole _ depth true candidates h.1 hgive, ?_⟩
      simp [pushesEach]

end

/-- Within the limit, tagging groups whose members are countable makes their tags whole. -/
theorem tagAll_isWhole {items : List Item} (hwithin : IsWithin limit items)
    (h : EveryIn (fun frame items ↦ IsCountable frame.members ∧ frame.HasList items) items) :
    ∃ tagged, tagAll limit items = .done tagged ∧
      EveryIn (fun frame _ ↦ frame.tagged.IsWhole) tagged := by
  have hheight := hwithin.height
  have hwalk : tagAll limit items =
      changeEach (fun frame items ↦ .done (frame.tag items)) limit 0 items := by
    rw [tagAll, changeAll, checkDepth_eq_none hwithin.limit_nonneg, Progress.guarded_none]
  have hfaults : (tagAll limit items).FaultsIn fun _ ↦ False := by
    rw [hwalk]
    exact changeEach_faultsIn (fun frame items _ hlist ↦
      ⟨Progress.faultsIn_done _ _, fun _ ↦ Frame.holding_tag hlist⟩) limit items 0 h (by omega)
  have hdone : (tagAll limit items).fault? = none :=
    Option.eq_none_iff_forall_ne_some.mpr fun fault hfault ↦ hfaults fault hfault
  refine ⟨_, Progress.eq_done hdone, ?_⟩
  rw [hwalk] at hdone ⊢
  refine (changeEach_every (fun frame items hframe hlist _ ↦ ?_) h hdone).mono fun _ _ hframe ↦
    hframe.1
  refine ⟨Frame.holding_tag hlist, ?_⟩
  rw [Progress.value_done, Frame.tagged_tag]
  exact (hframe.filter _).isWhole

end Item

end Running

namespace Data

variable {limit : ℤ} {members : Members}

/-- The pushes that collapsing a tree with merged transforms makes, one after the other. -/
def pushes (limit : ℤ) (tree : Data) : Except Fault (List Push) := do
  tree.checkTreeDepth limit
  if !(← tree.mentions itemsKey) then return []
  match tree with
  | .obj members =>
    let listed ← (Item.listAll limit (Item.itemsOf members)).toExcept
    let tagged ← (Item.tagAll limit listed).toExcept
    return Item.pushesEach limit 0 (mayPush tagged []) [] tagged
  | _ => .error .wrongType

theorem pushes_within (h : (Data.obj members).exceeds limit 0 = false) :
    (Data.obj members).pushes limit =
      if Entries.contains members itemsKey then do
        let listed ← (Item.listAll limit (Item.itemsOf members)).toExcept
        let tagged ← (Item.tagAll limit listed).toExcept
        return Item.pushesEach limit 0 (mayPush tagged []) [] tagged
      else .ok [] := by
  rw [pushes, checkTreeDepth, h, mentions]
  cases Entries.contains members itemsKey <;> rfl

/-- No push of a run loses a candidate: on every tree within the limit whose groups hold numbers that
are integers and bindings that are not empty, each push adds or multiplies the numbers and joins the
expressions of both sides, so that the parent can drop what it has pushed. -/
theorem pushes_keep (hlimit : 0 ≤ limit) (hdepth : (Data.obj members).exceeds limit 0 = false)
    (hkeys : ∀ group ∈ (Data.obj members).groups, (Entries.keys group).Nodup)
    (hnumbers : ∀ group ∈ (Data.obj members).groups, ∀ member ∈ propertiesOf group,
      member.2.isWhole = true)
    (htexts : ∀ s ∈ (Data.obj members).transformTexts, hasExpression s = true) :
    ∃ pushes, (Data.obj members).pushes limit = .ok pushes ∧ ∀ push ∈ pushes, push.IsWhole := by
  rw [pushes_within hdepth]
  split_ifs
  · have hread : Item.EveryIn (fun frame items ↦ IsCountable frame.members ∧
        (frame.holding = .absent → items = [])) (Item.itemsOf members) := by
      refine Item.everyIn_frames fun group hgroup _ ↦ ?_
      have hcountable : IsCountable group :=
        ⟨⟨Entries.nodup_keys_filter (hkeys group hgroup) _, fun property s hmember ↦
            htexts s (mem_transformTexts.mpr ⟨group, hgroup, property, hmember⟩)⟩,
          fun property value hmember ↦ hnumbers group hgroup _ (mem_propertiesOf.mpr hmember)⟩
      exact hcountable.congr (propertiesOf_frameOf group)
    have hheight := Item.heightIn_itemsOf members 0 hdepth hlimit
    rw [Int.zero_add] at hheight
    obtain ⟨listed, hlist, hwithin⟩ := Item.listAll_isWithin
      (hread.mono fun _ _ hframe ↦ ⟨trivial, hframe.2⟩) hheight
    have hlisted : Item.EveryIn (fun frame items ↦ IsCountable frame.members ∧
        frame.HasList items) listed := by
      have hevery := Item.listAll_every (fun _ hframe ↦ hframe) hread (by rw [hlist]; rfl)
      rwa [hlist] at hevery
    obtain ⟨tagged, htag, htagged⟩ := Item.tagAll_isWhole hwithin hlisted
    rw [hlist]
    change ∃ pushes, (do
      let tagged ← (Item.tagAll limit listed).toExcept
      return Item.pushesEach limit 0 (mayPush tagged []) [] tagged) = Except.ok pushes ∧ _
    rw [htag]
    refine ⟨_, rfl, Item.pushesEach_isWhole tagged 0 _ [] htagged ⟨id, fun _ ↦ ?_⟩⟩
    exact ⟨Tagged.isSteady_nil, Tagged.holds_nil⟩
  · exact ⟨[], rfl, List.forall_mem_nil _⟩

/-- A turn about a pivot and a factor around two shifts, the inner of them around two paths. -/
def shiftedTurn : Members :=
  [("items", .list [.obj [("type", .str "group"), ("rotation", .str "$\x7br - 1\x7d"),
    ("pivotX", .str "$\x7bp\x7d"), ("pivotY", .num (.int 5)), ("opacity", .str "2"), ("items", .list [
      .obj [("type", .str "group"), ("translateX", .str "$\x7ba + b\x7d"), ("translateY", .num (.int 5)),
        ("opacity", .num (.int 3)), ("items", .list [.obj [("type", .str "group"),
          ("translateX", .str "$\x7bc\x7d"), ("items", .list [.obj [("type", .str "path")],
            .obj [("type", .str "path")]])]])]])]])]

theorem pushes_keep_turned : ∃ pushes, (Data.obj shiftedTurn).pushes 4 = .ok pushes ∧
    pushes.length = 3 ∧ ∀ push ∈ pushes, push.IsWhole := by
  have hlength : ((Data.obj shiftedTurn).pushes 4).toOption.any (·.length = 3) = true := by
    decide +kernel
  obtain ⟨pushes, hpushes, hcount⟩ := Except.exists_of_any hlength
  have hkept : ∃ pushes, (Data.obj shiftedTurn).pushes 4 = .ok pushes ∧
      ∀ push ∈ pushes, push.IsWhole :=
    pushes_keep (by decide) (by decide +kernel) (by decide +kernel) (by decide +kernel)
      (by decide +kernel)
  obtain ⟨same, hsame, hwhole⟩ := hkept
  cases hpushes.symm.trans hsame
  exact ⟨pushes, hpushes, of_decide_eq_true hcount, hwhole⟩

/-- A shift around an empty one. -/
def emptiedShift : Members :=
  [("items", .list [.obj [("type", .str "group"), ("translateX", .str "$\x7ba\x7d"), ("items", .list [
    .obj [("type", .str "group"), ("translateX", .str "$\x7b\x7d"), ("items", .list [
      .obj [("type", .str "path")], .obj [("type", .str "path")]])]])]])]

/-- An empty binding in the child takes nothing in, and the candidate is lost. -/
theorem pushes_lose : ∃ pushes, (Data.obj emptiedShift).pushes 4 = .ok pushes ∧ ∃ push ∈ pushes,
    (pushInto push.tags push.candidates).fault? = none ∧
      push.candidates.expressionAt ⟨.translateX, .binding⟩ = ['a'] ∧ ¬ IsOperandOf ['a']
        (Tagged.expressionAt (pushInto push.tags push.candidates).value.1
          ⟨.translateX, .binding⟩) := by
  have hlost : ((Data.obj emptiedShift).pushes 4).toOption.any (fun pushes ↦
      pushes.any fun push ↦ (pushInto push.tags push.candidates).fault?.isNone &&
        push.candidates.expressionAt ⟨.translateX, .binding⟩ = ['a'] &&
          Tagged.expressionAt (pushInto push.tags push.candidates).value.1
            ⟨.translateX, .binding⟩ = []) = true := by decide +kernel
  obtain ⟨pushes, hpushes, hany⟩ := Except.exists_of_any hlost
  obtain ⟨push, hpush, hspec⟩ := List.any_eq_true.mp hany
  simp only [Bool.and_eq_true, decide_eq_true_eq, Option.isNone_iff_eq_none] at hspec
  obtain ⟨⟨hdone, hcandidate⟩, hempty⟩ := hspec
  refine ⟨pushes, hpushes, push, hpush, hdone, hcandidate, fun hoperand ↦ ?_⟩
  rw [hempty] at hoperand
  exact hoperand.ne_nil (List.cons_ne_nil _ _) rfl

end Data

end Motion
