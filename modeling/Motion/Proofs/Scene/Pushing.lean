import Motion.Proofs.Scene.Tags

/-!
Pushing the properties of a group into its only child. Where nothing is special and nothing
conflicts the push meets no fault, and the child then does the work of both.
-/

set_option autoImplicit false
set_option relaxedAutoImplicit false

namespace Motion

open Pose

theorem Tagged.IsMergeable.isReadable {tags : Tagged} (h : tags.IsMergeable) : IsReadable tags where
  nodup := h.nodup
  readable := fun tag value _ hget ↦ (h.isOf tag value hget).expression?

theorem Tagged.IsMergeable.filter {tags : Tagged} (h : tags.IsMergeable) (keep : Tag × Data → Bool) :
    IsMergeable (tags.filter keep) := by
  have hget (tag : Tag) (value : Data) (hget : Entries.get? (tags.filter keep) tag = some value) :
      Entries.get? tags tag = some value := by
    rw [Entries.get?_filter h.nodup] at hget
    exact Option.eq_some_of_filter_eq_some hget
  exact ⟨Entries.nodup_keys_filter h.nodup keep,
    fun tag value hvalue ↦ h.isOf tag value (hget tag value hvalue),
    fun tag value hvalue ↦ h.kind tag value (hget tag value hvalue)⟩

theorem Tagged.IsMergeable.get?_special {tags : Tagged} (h : tags.IsMergeable) (property : Property) :
    Entries.get? tags ⟨property, .special⟩ = none := by
  cases hget : Entries.get? tags ⟨property, .special⟩ with
  | none => rfl
  | some value => exact absurd rfl (h.kind _ value hget)

section Pushing

variable {tags candidates : Tagged}

/-- Tags without anything that acts about a pivot only shift. -/
theorem isShift_ofTags (env : Assignment)
    (h : ∀ tag, tag.isPivotal = true → Entries.get? tags tag = none) : (ofTags env tags).IsShift :=
  fun property hpivotal ↦ ofTags_of_neutral fun kind ↦ reading_of_none (h ⟨property, kind⟩ hpivotal)

/-- Moving both pivots of the tags moves the pivot of the group. -/
theorem ofTags_isMoved {moved : Tagged} (htags : tags.IsMergeable)
    (hcandidates : candidates.IsMergeable) (h : IsMoved tags candidates pivotTags moved)
    (env : Assignment) :
    ofTags env moved = Pose.moved (ofTags env candidates) (ofTags env tags) := by
  have hspecial (some : Tagged) (hsome : some.IsMergeable) (property : Property) :
      reading env some ⟨property, .special⟩ = neutral property :=
    reading_of_none (hsome.get?_special property)
  have hother (property : Property) (hx : property ≠ .pivotX) (hy : property ≠ .pivotY) :
      ofTags env moved property = ofTags env candidates property := by
    have hkind (kind : Kind) : reading env moved ⟨property, kind⟩ =
        reading env candidates ⟨property, kind⟩ :=
      reading_congr (h.other _ (by simp [pivotTags, hx, hy]))
    rw [ofTags, ofTags, hkind, hkind, hkind]
  funext property
  cases property with
  | pivotX =>
    have hnumeric := h.reading ⟨.pivotX, .numeric⟩ (by decide) env
    have hbinding := h.reading ⟨.pivotX, .binding⟩ (by decide) env
    rw [Pose.moved, ofTags, ofTags, ofTags, hnumeric, hbinding, hspecial moved h.mergeable,
      hspecial candidates hcandidates, hspecial tags htags, apply_neutral_right, apply_neutral_right,
      apply_neutral_right]
    exact add_sub_add_comm _ _ _ _ |>.symm
  | pivotY =>
    have hnumeric := h.reading ⟨.pivotY, .numeric⟩ (by decide) env
    have hbinding := h.reading ⟨.pivotY, .binding⟩ (by decide) env
    rw [Pose.moved, ofTags, ofTags, ofTags, hnumeric, hbinding, hspecial moved h.mergeable,
      hspecial candidates hcandidates, hspecial tags htags, apply_neutral_right, apply_neutral_right,
      apply_neutral_right]
    exact add_sub_add_comm _ _ _ _ |>.symm
  | _ => exact hother _ (by decide) (by decide)

/-- What a push of candidates into the tags of a child makes of the child. -/
structure IsPush (tags candidates merged moved : Tagged) : Prop where
  mergeable : merged.IsMergeable
  appearance : ∀ turning env, (ofTags env merged).appearance turning =
    (ofTags env candidates).appearance turning * (ofTags env tags).appearance turning
  contains : ∀ tag, Entries.contains candidates tag = true → Entries.contains moved tag = true
  size : ∀ bound limit : ℕ, (∀ tag, sizeAt candidates tag ≤ bound) → (∀ tag, sizeAt tags tag ≤ limit) →
    ∀ tag, sizeAt merged tag ≤ bound * limit
  clip : ∀ kind env, reading env merged ⟨.clipPath, kind⟩ =
    reading env tags ⟨.clipPath, kind⟩ + reading env candidates ⟨.clipPath, kind⟩
  clips : ∀ kind, Entries.contains merged ⟨.clipPath, kind⟩ =
    (Entries.contains tags ⟨.clipPath, kind⟩ || Entries.contains candidates ⟨.clipPath, kind⟩)

/-- A push prunes what it has absorbed. -/
theorem pushInto_of_absorb {moved absorbed : Tagged} (hcompensate : compensate tags candidates = .done moved)
    (habsorb : absorb tags moved = .done absorbed) :
    pushInto tags candidates = .done (prune absorbed, moved) := by
  simp only [pushInto, hcompensate, Progress.done, habsorb]

/-- Moving the pivots by the shifts of a child without pivots makes nothing larger than the sizes of
both allow. -/
theorem IsShifted.size_le {moved : Tagged} (h : IsShifted tags candidates pivotTags moved)
    (hshift : ∀ tag, tag.isPivotal = true → Entries.get? tags tag = none) {bound limit : ℕ}
    (hbound : ∀ tag, sizeAt candidates tag ≤ bound) (hlimit : ∀ tag, sizeAt tags tag ≤ limit)
    (tag : Tag) : sizeAt tags tag * sizeAt moved tag ≤ bound * limit := by
  by_cases htag : tag ∈ pivotTags
  · rw [sizeAt_of_none (hshift tag (pivotTags_spec htag).1), one_mul]
    exact (h.size tag htag).trans (Nat.mul_le_mul (hbound tag) (hlimit tag.shift))
  · rw [sizeAt_congr (h.other tag htag), Nat.mul_comm]
    exact Nat.mul_le_mul (hbound tag) (hlimit tag)

/-- What is absorbed and then pruned. -/
theorem pushInto_eq_done {moved : Tagged} (htags : tags.IsMergeable) (hmoved : moved.IsMergeable)
    (hcompensate : compensate tags candidates = .done moved)
    (hcontains : ∀ tag, Entries.contains candidates tag = true → Entries.contains moved tag = true)
    (hclip : ∀ kind, Entries.get? moved ⟨.clipPath, kind⟩ = Entries.get? candidates ⟨.clipPath, kind⟩)
    (happearance : ∀ turning env, (merge (ofTags env moved) (ofTags env tags)).appearance turning =
      (ofTags env candidates).appearance turning * (ofTags env tags).appearance turning)
    (hsize : ∀ bound limit : ℕ, (∀ tag, sizeAt candidates tag ≤ bound) →
      (∀ tag, sizeAt tags tag ≤ limit) → ∀ tag, sizeAt tags tag * sizeAt moved tag ≤ bound * limit) :
    ∃ merged, pushInto tags candidates = .done (merged, moved) ∧
      IsPush tags candidates merged moved := by
  obtain ⟨absorbed, habsorb, habsorbed⟩ := absorb_eq_done moved tags htags hmoved
  have hprune (kind : Kind) : Entries.get? (prune absorbed) ⟨.clipPath, kind⟩ =
      Entries.get? absorbed ⟨.clipPath, kind⟩ :=
    get?_prune_of_clipPath habsorbed.mergeable.nodup rfl
  refine ⟨prune absorbed, pushInto_of_absorb hcompensate habsorb, habsorbed.mergeable.filter _,
    fun turning env ↦ ?_, hcontains, ?_, fun kind env ↦ ?_, fun kind ↦ ?_⟩
  · rw [appearance_ofTags_prune habsorbed.mergeable.isReadable, ofTags_merge (habsorbed.reading env),
      happearance]
  · intro bound limit hbound hlimit tag
    calc
      sizeAt (prune absorbed) tag ≤ sizeAt absorbed tag :=
        sizeAt_filter habsorbed.mergeable.nodup _ tag
      _ ≤ sizeAt tags tag * sizeAt moved tag := habsorbed.size tag
      _ ≤ bound * limit := hsize bound limit hbound hlimit tag
  · rw [reading_congr (hprune kind), habsorbed.reading, reading_congr (hclip kind)]
    rfl
  · rw [Entries.contains_congr (hprune kind), habsorbed.contains, Entries.contains_congr (hclip kind)]

/-- Candidates that only shift go into a child as they are. -/
theorem pushInto_shift (htags : tags.IsMergeable) (hcandidates : candidates.IsMergeable)
    (hpivotal : (candidates.any fun candidate ↦ candidate.1.isPivotal) = false) :
    ∃ merged moved, pushInto tags candidates = .done (merged, moved) ∧
      IsPush tags candidates merged moved := by
  have hcompensate : compensate tags candidates = .done candidates := by
    rw [compensate, hpivotal]
    rfl
  have hshift (env : Assignment) : (ofTags env candidates).IsShift := by
    refine isShift_ofTags env fun tag htag ↦ ?_
    cases hget : Entries.get? candidates tag with
    | none => rfl
    | some value => exact absurd htag (List.any_eq_false.mp hpivotal _ (Entries.mem_of_get? hget))
  obtain ⟨merged, hpush⟩ := pushInto_eq_done htags hcandidates hcompensate (fun _ h ↦ h)
    (fun _ ↦ rfl) (fun turning env ↦ appearance_merge_of_isShift (hshift env) _)
    fun bound limit hbound hlimit tag ↦ by
      rw [Nat.mul_comm]
      exact Nat.mul_le_mul (hbound tag) (hlimit tag)
  exact ⟨merged, candidates, hpush⟩

/-- Candidates that act about a pivot go into a child that only shifts, with their pivot moved
against the shift. -/
theorem pushInto_pivotal (htags : tags.IsMergeable) (hcandidates : candidates.IsMergeable)
    (hpivotal : (candidates.any fun candidate ↦ candidate.1.isPivotal) = true)
    (hshift : ∀ tag, tag.isPivotal = true → Entries.get? tags tag = none) :
    ∃ merged moved, pushInto tags candidates = .done (merged, moved) ∧
      IsPush tags candidates merged moved := by
  obtain ⟨moved, hcompensate, hmoved⟩ := compensate_eq_done htags hcandidates hpivotal
  obtain ⟨merged, hpush⟩ := pushInto_eq_done htags hmoved.mergeable hcompensate hmoved.contains
    (fun kind ↦ hmoved.other ⟨.clipPath, kind⟩ (by simp [pivotTags])) (fun turning env ↦ by
      rw [ofTags_isMoved htags hcandidates hmoved]
      exact appearance_merge_moved (isShift_ofTags env hshift) _)
    fun bound limit hbound hlimit ↦ hmoved.size_le hshift hbound hlimit
  exact ⟨merged, moved, hpush⟩

/-- Where candidates are accepted there is nothing with which one of them conflicts. -/
theorem get?_of_accepts (haccepts : accepts candidates tags = true) {candidate : Tag × Data}
    (hcandidate : candidate ∈ candidates) {tag : Tag}
    (hconflicts : candidate.1.conflicts tag = true) : Entries.get? tags tag = none := by
  by_contra hsome
  obtain ⟨value, hget⟩ := Option.ne_none_iff_exists'.mp hsome
  have hentry := List.all_eq_true.mp haccepts _ (Entries.mem_of_get? hget)
  rw [Bool.and_eq_true, List.all_eq_true] at hentry
  have hconflict := hentry.2 candidate hcandidate
  rw [hconflicts] at hconflict
  cases hconflict

/-- What pushing is allowed for. -/
theorem mayPush_eq_true {items : List Item} {candidates : Tagged}
    (h : mayPush items candidates = true) : ∃ frame below, items = [.group frame below] ∧
      (∀ candidate ∈ candidates, candidate.1.kind ≠ .special) ∧
        accepts candidates frame.tagged = true := by
  unfold mayPush at h
  split at h
  · rename_i frame below
    rw [Bool.and_eq_true, List.all_eq_true] at h
    exact ⟨frame, below, rfl,
      fun candidate hcandidate ↦ of_decide_eq_true (h.1 candidate hcandidate), h.2⟩
  · cases h

/-- A push that is allowed meets no fault, and the child then does the work of both groups. -/
theorem pushInto_isPush (htags : tags.IsMergeable) (hcandidates : candidates.IsMergeable)
    (haccepts : accepts candidates tags = true) :
    ∃ merged moved, pushInto tags candidates = .done (merged, moved) ∧
      IsPush tags candidates merged moved := by
  cases hpivotal : candidates.any fun candidate ↦ candidate.1.isPivotal with
  | false => exact pushInto_shift htags hcandidates hpivotal
  | true =>
    refine pushInto_pivotal htags hcandidates hpivotal fun tag htag ↦ ?_
    obtain ⟨candidate, hcandidate, hacts⟩ := List.any_eq_true.mp hpivotal
    exact get?_of_accepts haccepts hcandidate (by simp [Tag.conflicts, hacts, htag])

end Pushing

section Ordering

theorem Tag.mem_all (tag : Tag) : tag ∈ all := by
  have hproperty : tag.property ∈ Property.all := by
    cases tag.property <;> decide
  have hkind : tag.kind ∈ Kind.all := by
    cases tag.kind <;> decide
  exact List.mem_flatMap.mpr ⟨tag.property, hproperty, List.mem_map_of_mem hkind⟩

/-- Collecting tags in the order of a list finds those on the list, each once. -/
theorem collect_spec (tags : Tagged) : ∀ order : List Tag,
    (Entries.keys (order.filterMap fun tag ↦
      (Entries.get? tags tag).map fun value ↦ (tag, value))).Sublist order ∧
    ∀ tag ∈ order, Entries.get? (order.filterMap fun tag ↦
      (Entries.get? tags tag).map fun value ↦ (tag, value)) tag = Entries.get? tags tag
  | [] => ⟨List.Sublist.refl [], fun _ h ↦ absurd h List.not_mem_nil⟩
  | first :: rest => by
    obtain ⟨hkeys, hget⟩ := collect_spec tags rest
    cases hfirst : Entries.get? tags first with
    | none =>
      have hskip : (first :: rest).filterMap (fun tag ↦
          (Entries.get? tags tag).map fun value ↦ (tag, value)) =
          rest.filterMap fun tag ↦ (Entries.get? tags tag).map fun value ↦ (tag, value) :=
        List.filterMap_cons_none (by rw [hfirst]; rfl)
      rw [hskip]
      refine ⟨hkeys.cons first, fun tag htag ↦ ?_⟩
      by_cases hrest : tag ∈ rest
      · exact hget tag hrest
      · have heq : tag = first := (List.mem_cons.mp htag).resolve_right hrest
        rw [heq, hfirst, ← Entries.contains_eq_false_iff, Bool.eq_false_iff, Ne,
          Entries.contains_iff_mem_keys, ← heq]
        exact fun hmem ↦ hrest (hkeys.subset hmem)
    | some value =>
      have htake : (first :: rest).filterMap (fun tag ↦
          (Entries.get? tags tag).map fun value ↦ (tag, value)) =
          (first, value) :: rest.filterMap fun tag ↦
            (Entries.get? tags tag).map fun value ↦ (tag, value) :=
        List.filterMap_cons_some (by rw [hfirst]; rfl)
      rw [htake]
      refine ⟨hkeys.cons_cons first, fun tag htag ↦ ?_⟩
      rw [Entries.get?_cons]
      split_ifs with heq
      · rw [← heq]
        exact hfirst.symm
      · exact hget tag ((List.mem_cons.mp htag).resolve_left (Ne.symm heq))

theorem get?_inTagOrder (tags : Tagged) (tag : Tag) :
    Entries.get? (inTagOrder tags) tag = Entries.get? tags tag :=
  (collect_spec tags Tag.all).2 tag tag.mem_all

theorem ofTags_inTagOrder (env : Assignment) (tags : Tagged) :
    ofTags env (inTagOrder tags) = ofTags env tags := by
  funext property
  have hsame (kind : Kind) : reading env (inTagOrder tags) ⟨property, kind⟩ =
      reading env tags ⟨property, kind⟩ := reading_congr (get?_inTagOrder tags _)
  rw [ofTags, ofTags, hsame, hsame, hsame]

theorem nodup_inTagOrder (tags : Tagged) : (Entries.keys (inTagOrder tags)).Nodup := by
  have hnodup : Tag.all.Nodup := by decide
  exact (collect_spec tags Tag.all).1.nodup hnodup

/-- Once all tags have been pushed none is left. -/
theorem without_eq_nil {tags dropped : Tagged}
    (h : ∀ tag, Entries.contains tags tag = true → Entries.contains dropped tag = true) :
    without tags dropped = [] := by
  rw [without, List.filter_eq_nil_iff]
  intro entry hentry
  have hcontains : Entries.contains tags entry.1 = true :=
    (Entries.contains_iff_mem_keys tags entry.1).mpr (List.mem_map_of_mem hentry)
  rw [h entry.1 hcontains]
  decide

/-- The same where they are pushed in order. -/
theorem without_inTagOrder_eq_nil {tags dropped : Tagged} (h : ∀ tag,
    Entries.contains (inTagOrder tags) tag = true → Entries.contains dropped tag = true) :
    without tags dropped = [] := by
  refine without_eq_nil fun tag htag ↦ h tag ?_
  rwa [Entries.contains_congr (get?_inTagOrder tags tag)]

end Ordering

end Motion
