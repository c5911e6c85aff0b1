import Motion.Proofs.Scene.Faults
import Motion.Proofs.Scene.Kept
import Motion.Proofs.Scene.Untagging

/-!
Groups whose properties are integers and simple bindings, whether or not the expressions of the
bindings are well-formed. What such properties amount to need not be known: merging makes integers
and simple bindings of them again, under no new keys and no larger than the sizes of both allow. So a
push meets no fault, and properties are taken from under their tags unless a number is too long.
-/

set_option autoImplicit false
set_option relaxedAutoImplicit false

namespace Motion

namespace Data

/-- Whether a value is an integer or a simple binding. -/
def isSimple : Data → Bool
  | .num (.int _) => true
  | value => value.isSimpleBinding

/-- What holds of an integer or a simple binding under a tag of the given kind. -/
def IsSimpleOf : Kind → Data → Prop
  | .numeric, value => ∃ i : ℤ, value = .num (.int i)
  | .binding, value => ∃ s, value.interior? = some s
  | .special, _ => False

theorem isSimple_cases {value : Data} (h : value.isSimple = true) :
    (∃ i : ℤ, value = .num (.int i)) ∨ ∃ s, value.interior? = some s := by
  unfold isSimple at h
  split at h
  · rename_i i
    exact Or.inl ⟨i, rfl⟩
  · exact Or.inr (Option.isSome_iff_exists.mp h)

theorem IsSimpleOf.kind_ne {kind : Kind} {value : Data} (h : value.IsSimpleOf kind) :
    kind ≠ .special := by
  rintro rfl
  exact h

theorem size_of_interior? {value : Data} {s : List Char} (h : value.interior? = some s) :
    value.size = 1 :=
  size_of_number?_none (number?_eq_none h)

/-- Under its tag a simple value is simple of its kind, and has the same size. -/
theorem isSimpleOf_tagged {value : Data} (h : value.isSimple = true) :
    value.tagged.IsSimpleOf value.kind ∧ value.tagged.size = value.size := by
  rcases isSimple_cases h with ⟨i, rfl⟩ | ⟨s, hs⟩
  · exact ⟨⟨i, rfl⟩, rfl⟩
  · cases value with
    | str text =>
      have hdense := interior?_tagged hs
      rw [tagged_of_interior? hs, kind_of_interior? hs, size_of_interior? hs,
        size_of_interior? hdense]
      exact ⟨⟨_, hdense⟩, rfl⟩
    | _ => cases hs

theorem IsSimpleOf.isArithmetic {kind : Kind} {value : Data} (h : value.IsSimpleOf kind) :
    value.IsArithmetic := by
  cases kind with
  | numeric =>
    obtain ⟨i, rfl⟩ := h
    exact Or.inl ⟨.int i, rfl⟩
  | binding => exact Or.inr h
  | special => exact absurd h id

end Data

/-- What holds of a simple value under a tag. No clip path is simple. -/
def IsSimpleUnder (tag : Tag) (value : Data) : Prop :=
  value.IsSimpleOf tag.kind ∧ tag.property ≠ .clipPath

/-- Tags that hold integers and simple bindings, each of its kind, and no clip path. -/
abbrev Tagged.IsSimple (tags : Tagged) : Prop :=
  tags.Holds IsSimpleUnder

/-- Whether some tag acts about the pivot. -/
def Tagged.isPivotal (tags : Tagged) : Bool :=
  tags.any fun entry ↦ entry.1.isPivotal

theorem Tagged.isPivotal_iff {tags : Tagged} (h : (Entries.keys tags).Nodup) :
    tags.isPivotal = true ↔ ∃ tag, tag.isPivotal = true ∧ Entries.contains tags tag = true := by
  rw [isPivotal, List.any_eq_true]
  constructor
  · rintro ⟨entry, hentry, hpivotal⟩
    refine ⟨entry.1, hpivotal, ?_⟩
    rw [Entries.contains_eq_isSome, Entries.get?_of_mem h hentry]
    rfl
  · rintro ⟨tag, hpivotal, hcontains⟩
    rw [Entries.contains_eq_isSome, Option.isSome_iff_exists] at hcontains
    obtain ⟨value, hget⟩ := hcontains
    exact ⟨(tag, value), Entries.mem_of_get? hget, hpivotal⟩

section Merging

variable {tags candidates : Tagged}

/-- What merging a simple value under a tag makes of simple tags. -/
structure IsMergedAt (tags : Tagged) (tag : Tag) (value : Data) (merged : Tagged) : Prop where
  simple : merged.IsSimple
  other : ∀ other, other ≠ tag → Entries.get? merged other = Entries.get? tags other
  size : sizeAt merged tag ≤ sizeAt tags tag * value.size
  contains : Entries.contains tags tag = true → Entries.contains merged tag = true

theorem isMergedAt_put (htags : tags.IsSimple) {tag : Tag} {value merged : Data}
    (hmerged : IsSimpleUnder tag merged) (hsize : merged.size ≤ sizeAt tags tag * value.size) :
    IsMergedAt tags tag value (Entries.put tags tag merged) := by
  refine ⟨htags.put hmerged, ?_, ?_, ?_⟩
  · intro other hother
    exact Entries.get?_put_of_ne (Ne.symm hother) tags merged
  · rwa [sizeAt_put, if_pos rfl]
  · intro _
    simp [Entries.contains_put]

theorem mergeNumber_isMergedAt (htags : tags.IsSimple) {tag : Tag} (hkind : tag.kind = .numeric)
    (hclip : tag.property ≠ .clipPath) {value : Data} (hvalue : value.IsSimpleOf .numeric)
    {op : Option Operator} (hop : Fits op tag) :
    ∃ merged, mergeNumber tags tag value op = .ok merged ∧ IsMergedAt tags tag value merged := by
  have hcurrent (current : Data) (hget : Entries.get? tags tag = some current) :
      current.IsOf .numeric := by
    have hsimple := (htags.holds tag current hget).1
    rwa [hkind] at hsimple
  obtain ⟨merged, hok, hmerge⟩ := mergeNumber_eq_ok hcurrent hvalue hop
  have hmerged : merged.IsSimpleOf tag.kind := hkind ▸ hmerge.isOf
  exact ⟨_, hok, isMergedAt_put htags ⟨hmerged, hclip⟩ hmerge.size⟩

theorem mergeText_isMergedAt (htags : tags.IsSimple) {tag : Tag} (hkind : tag.kind = .binding)
    (hclip : tag.property ≠ .clipPath) {kind : Kind} {value : Data} (hvalue : value.IsSimpleOf kind)
    (hwritable : isWritableOperand value = true) (op : Option Operator) :
    ∃ merged, mergeText tags tag value op = .ok merged ∧ IsMergedAt tags tag value merged := by
  have hcurrent : (Entries.get? tags tag).getD .null = .null ∨
      ((Entries.get? tags tag).getD .null).IsSimpleOf .binding := by
    cases hget : Entries.get? tags tag with
    | none => exact Or.inl rfl
    | some current => exact Or.inr (hkind ▸ (htags.holds tag current hget).1)
  have husable : isWritableOperand ((Entries.get? tags tag).getD .null) = true := by
    rcases hcurrent with hnull | ⟨s, hs⟩
    · rw [hnull]
      rfl
    · exact Data.isWritableOperand_of_interior? hs
  have hok : mergeText tags tag value op = .ok (joinText tags tag value op) := by
    rw [mergeText, husable, hwritable]
    rfl
  refine ⟨_, hok, ?_⟩
  rcases joinText_cases tags tag value op with hsame | ⟨text, hput, hjoined⟩
  · rw [hsame]
    exact ⟨htags, fun _ _ ↦ rfl, Nat.le_mul_of_pos_right _ value.one_le_size, id⟩
  · have hinterior := hjoined.interior? hvalue.isArithmetic
      (hcurrent.imp_right Data.IsSimpleOf.isArithmetic)
    have hbinding : (Data.str (Scalar.binding (String.ofList text))).IsSimpleOf tag.kind :=
      hkind ▸ ⟨text, hinterior⟩
    rw [hput]
    refine isMergedAt_put htags ⟨hbinding, hclip⟩ ?_
    rw [Data.size_of_interior? hinterior]
    exact Nat.mul_pos (one_le_sizeAt tags tag) value.one_le_size

/-- A simple value of the kind of a tag merges into what is under it. -/
theorem merge_isMergedAt (htags : tags.IsSimple) {tag : Tag} {value : Data}
    (hvalue : IsSimpleUnder tag value) {op : Option Operator} (hop : Fits op tag) :
    ∃ merged, (if tag.kind = .numeric then mergeNumber tags tag value op
        else mergeText tags tag value op) = .ok merged ∧ IsMergedAt tags tag value merged := by
  obtain ⟨hsimple, hclip⟩ := hvalue
  by_cases hnumeric : tag.kind = .numeric
  · rw [if_pos hnumeric]
    exact mergeNumber_isMergedAt htags hnumeric hclip (hnumeric ▸ hsimple) hop
  · have hbinding : tag.kind = .binding := by
      have hspecial := hsimple.kind_ne
      cases hkind : tag.kind <;> simp_all
    obtain ⟨s, hs⟩ : value.IsSimpleOf .binding := hbinding ▸ hsimple
    rw [if_neg hnumeric]
    exact mergeText_isMergedAt htags hbinding hclip hsimple
      (Data.isWritableOperand_of_interior? hs) op

/-- What absorbing simple candidates makes of simple tags. -/
structure IsMixture (tags candidates merged : Tagged) : Prop where
  simple : merged.IsSimple
  contains : ∀ tag, Entries.contains merged tag = true →
    Entries.contains tags tag = true ∨ Entries.contains candidates tag = true
  size : ∀ tag, sizeAt merged tag ≤ sizeAt tags tag * sizeAt candidates tag

theorem absorb_cons_eq {tag : Tag} (hkind : tag.kind ≠ .special) (tags : Tagged) (value : Data)
    (rest : Tagged) : absorb tags ((tag, value) :: rest) =
      (Progress.ofExcept tags (if tag.kind = .numeric then mergeNumber tags tag value none
        else mergeText tags tag value none)).andThen fun tags ↦ absorb tags rest := by
  obtain ⟨property, kind⟩ := tag
  cases kind with
  | special => exact absurd rfl hkind
  | _ => rfl

/-- Absorbing simple candidates meets no fault. -/
theorem absorb_isMixture : ∀ (candidates tags : Tagged), tags.IsSimple → candidates.IsSimple →
    ∃ merged, absorb tags candidates = .done merged ∧ IsMixture tags candidates merged
  | [], tags, htags, _ => ⟨tags, rfl, htags, fun _ h ↦ Or.inl h, fun _ ↦ (Nat.mul_one _).ge⟩
  | (tag, value) :: rest, tags, htags, hcandidates => by
    obtain ⟨hvalue, habsent, hrest⟩ := hcandidates.of_cons
    obtain ⟨first, hfirst, hmerge⟩ := merge_isMergedAt htags hvalue (Or.inl rfl)
    obtain ⟨merged, hdone, hmixture⟩ := absorb_isMixture rest first hmerge.simple hrest
    refine ⟨merged, ?_, hmixture.simple, ?_, ?_⟩
    · rw [absorb_cons_eq hvalue.1.kind_ne, hfirst]
      exact hdone
    · intro other hother
      by_cases htag : other = tag
      · exact Or.inr (by simp [Entries.contains, htag])
      · rcases hmixture.contains other hother with htags | hlater
        · left
          rwa [Entries.contains_congr (hmerge.other other htag)] at htags
        · right
          rw [Entries.contains, List.any_cons]
          exact Bool.or_eq_true_iff.mpr (Or.inr hlater)
    · intro other
      have hother := hmixture.size other
      rw [sizeAt_cons]
      by_cases htag : tag = other
      · subst htag
        rw [sizeAt_of_none habsent, Nat.mul_one] at hother
        rw [if_pos rfl]
        exact hother.trans hmerge.size
      · rw [if_neg htag]
        rwa [sizeAt_congr (hmerge.other other (Ne.symm htag))] at hother

/-- Compensation moves the pivots of simple candidates. -/
theorem compensate_isShifted {child : Tagged} (hchild : child.IsSimple)
    (hcandidates : candidates.IsSimple) (hpivotal : candidates.isPivotal = true) :
    ∃ moved, compensate child candidates = .done moved ∧ moved.IsSimple ∧
      IsShifted child candidates pivotTags moved := by
  have hstep (tag : Tag) (rest : List Tag) (moved : Tagged) (htag : tag ∈ pivotTags)
      (hnew : tag ∉ rest) (h : moved.IsSimple ∧ IsShifted child candidates rest moved) :
      ∃ next, mergeShift child moved tag = .ok next ∧ next.IsSimple ∧
        IsShifted child candidates (tag :: rest) next := by
    obtain ⟨hmoved, hshifted⟩ := h
    obtain ⟨-, -, hclip, hneutral, -⟩ := pivotTags_spec htag
    unfold mergeShift
    cases hget : Entries.get? child tag.shift with
    | none =>
      exact ⟨moved, rfl, hmoved, hshifted.step hnew (fun _ _ ↦ rfl)
        (Nat.le_mul_of_pos_right _ (one_le_sizeAt child _)) id⟩
    | some value =>
      have hvalue : value.IsSimpleOf tag.kind := (hchild.holds tag.shift value hget).1
      obtain ⟨next, hok, hmerge⟩ :=
        merge_isMergedAt hmoved ⟨hvalue, hclip⟩ (Or.inr ⟨rfl, hneutral⟩)
      refine ⟨next, hok, hmerge.simple, hshifted.step hnew hmerge.other ?_ hmerge.contains⟩
      rw [sizeAt_of_some hget]
      exact hmerge.size
  rw [compensate_eq child hpivotal]
  exact moveEach_eq_done ⟨hcandidates, isShifted_nil child candidates⟩ hstep

/-- What a push makes of simple tags and simple candidates. -/
structure IsSimplePush (tags candidates merged moved : Tagged) : Prop where
  simple : merged.IsSimple
  pivotal : merged.isPivotal = true → tags.isPivotal = true ∨ candidates.isPivotal = true
  contains : ∀ tag, Entries.contains candidates tag = true → Entries.contains moved tag = true
  size : ∀ bound limit : ℕ, (∀ tag, sizeAt candidates tag ≤ bound) → (∀ tag, sizeAt tags tag ≤ limit) →
    ∀ tag, sizeAt merged tag ≤ bound * limit

theorem get?_of_not_isPivotal (htags : (Entries.keys tags).Nodup) (h : tags.isPivotal = false)
    (tag : Tag) (htag : tag.isPivotal = true) : Entries.get? tags tag = none := by
  rw [← Entries.contains_eq_false_iff, Bool.eq_false_iff]
  intro hcontains
  rw [(Tagged.isPivotal_iff htags).mpr ⟨tag, htag, hcontains⟩] at h
  cases h

/-- Simple candidates are pushed into simple tags without a fault, unless both act about a pivot. -/
theorem pushInto_isSimplePush (htags : tags.IsSimple) (hcandidates : candidates.IsSimple)
    (hfree : tags.isPivotal = false ∨ candidates.isPivotal = false) :
    ∃ merged moved, pushInto tags candidates = .done (merged, moved) ∧
      IsSimplePush tags candidates merged moved := by
  have hmoved : ∃ moved, compensate tags candidates = .done moved ∧ moved.IsSimple ∧
      (∀ tag, Entries.contains candidates tag = true → Entries.contains moved tag = true) ∧
      (moved.isPivotal = true → candidates.isPivotal = true) ∧
      ∀ bound limit : ℕ, (∀ tag, sizeAt candidates tag ≤ bound) → (∀ tag, sizeAt tags tag ≤ limit) →
        ∀ tag, sizeAt tags tag * sizeAt moved tag ≤ bound * limit := by
    by_cases hpivotal : candidates.isPivotal = true
    · have hstill := hfree.resolve_right (by simp [hpivotal])
      obtain ⟨moved, hdone, hsimple, hshifted⟩ := compensate_isShifted htags hcandidates hpivotal
      exact ⟨moved, hdone, hsimple, hshifted.contains, fun _ ↦ hpivotal, fun bound limit ↦
        hshifted.size_le (get?_of_not_isPivotal htags.nodup hstill)⟩
    · have hdone : compensate tags candidates = .done candidates := by
        rw [compensate, ← Tagged.isPivotal, if_neg hpivotal]
      refine ⟨candidates, hdone, hcandidates, fun _ h ↦ h, id, ?_⟩
      intro bound limit hbound hlimit tag
      rw [Nat.mul_comm]
      exact Nat.mul_le_mul (hbound tag) (hlimit tag)
  obtain ⟨moved, hdone, hsimple, hcontains, hpivotal, hsize⟩ := hmoved
  obtain ⟨absorbed, habsorb, hmixture⟩ := absorb_isMixture moved tags htags hsimple
  refine ⟨prune absorbed, moved, pushInto_of_absorb hdone habsorb, hmixture.simple.filter _, ?_,
    hcontains, ?_⟩
  · intro hpruned
    obtain ⟨entry, hentry, hacts⟩ := List.any_eq_true.mp hpruned
    have habsorbed : absorbed.isPivotal = true :=
      List.any_eq_true.mpr ⟨entry, List.mem_of_mem_filter hentry, hacts⟩
    obtain ⟨tag, htag, hcontains⟩ := (Tagged.isPivotal_iff hmixture.simple.nodup).mp habsorbed
    rcases hmixture.contains tag hcontains with hold | hnew
    · exact Or.inl ((Tagged.isPivotal_iff htags.nodup).mpr ⟨tag, htag, hold⟩)
    · exact Or.inr (hpivotal ((Tagged.isPivotal_iff hsimple.nodup).mpr ⟨tag, htag, hnew⟩))
  · intro bound limit hbound hlimit tag
    calc
      sizeAt (prune absorbed) tag ≤ sizeAt absorbed tag := sizeAt_filter hmixture.simple.nodup _ tag
      _ ≤ sizeAt tags tag * sizeAt moved tag := hmixture.size tag
      _ ≤ bound * limit := hsize bound limit hbound hlimit tag

/-- Simple candidates may be pushed into simple tags, unless both act about a pivot. -/
theorem accepts_of_isSimple (htags : tags.IsSimple) (hcandidates : candidates.IsSimple)
    (hfree : tags.isPivotal = false ∨ candidates.isPivotal = false) :
    accepts candidates tags = true := by
  rw [accepts, List.all_eq_true]
  intro entry hentry
  rw [Bool.and_eq_true, List.all_eq_true]
  constructor
  · have hsimple := (htags.holds entry.1 entry.2 (Entries.get?_of_mem htags.nodup hentry)).1
    simpa using hsimple.kind_ne
  · intro candidate hcandidate
    have hclip := (hcandidates.holds candidate.1 candidate.2
      (Entries.get?_of_mem hcandidates.nodup hcandidate)).2
    have hfamily : candidate.1.family ≠ .clipPath := by
      rw [Tag.family]
      cases hproperty : candidate.1.property <;> simp_all [Property.family]
    have hpivotal : (candidate.1.isPivotal && entry.1.isPivotal) = false := by
      rcases hfree with hfree | hfree
      · simp [Bool.eq_false_iff.mpr (List.any_eq_false.mp hfree entry hentry)]
      · simp [Bool.eq_false_iff.mpr (List.any_eq_false.mp hfree candidate hcandidate)]
    simp [Tag.conflicts, hfamily, hpivotal]

end Merging

/-- Properties are taken from under simple tags unless a number is too long. -/
theorem untagValue?_of_isSimple {tags : Tagged} (h : tags.IsSimple) (property : Property) :
    FaultsOnly (fun fault ↦ fault = .badValue ∧ IsOverlong tags) (untagValue? tags property) := by
  unfold untagValue?
  dsimp only
  split
  · rename_i binding number hbinding hnumber
    refine faultsOnly_map _ ?_
    obtain ⟨hsimple, hclip⟩ := h.holds _ number hnumber
    have hnumeric : number.IsSimpleOf .numeric := hsimple
    obtain ⟨i, hi⟩ := hnumeric
    subst hi
    by_cases hwritable : isWritableOperand (.num (.int i)) = true
    · have hmerge : ∃ merged, mergeText tags (⟨property, .binding⟩ : Tag) (.num (.int i)) none =
          .ok merged ∧ IsMergedAt tags ⟨property, .binding⟩ (.num (.int i)) merged := by
        refine mergeText_isMergedAt h rfl ?_ hsimple hwritable none
        exact hclip
      obtain ⟨merged, hok, -⟩ := hmerge
      rw [hok]
      exact faultsOnly_ok merged
    · intro fault hfault
      rw [mergeText, Bool.eq_false_iff.mpr hwritable, Bool.and_false] at hfault
      cases hfault
      exact ⟨rfl, isOverlong_of_get? hnumber (Bool.eq_false_iff.mpr hwritable)⟩
  · exact faultsOnly_ok _
  · exact faultsOnly_ok _
  · exact faultsOnly_ok _

end Motion
