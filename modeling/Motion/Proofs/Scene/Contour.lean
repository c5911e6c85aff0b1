import Motion.Proofs.Scene.Pushing

/-!
Where groups clip. A clip path is given in the coordinates of its group, so the affine maps of the
group and of all groups above it place it. The contour of a chain of groups is their clips in order,
each with that map, and what they do to the coordinates below. A push gives the child the contour of
both groups as long as the child does not clip and only shifts where the parent clips
(`IsPush.contour`).
-/

set_option autoImplicit false
set_option relaxedAutoImplicit false

namespace Motion

open Pose

/-- What a chain of groups does to the coordinates of what is below it, and its clips from the
outermost inwards, each with the affine map that places it. -/
@[ext]
structure Contour where
  clips : List (ℚ × (Plane →ᵃ[ℝ] Plane))
  placement : Plane →ᵃ[ℝ] Plane

namespace Contour

/-- The clips of a chain below further groups, which place them too. -/
def placed (placement : Plane →ᵃ[ℝ] Plane) (clips : List (ℚ × (Plane →ᵃ[ℝ] Plane))) :
    List (ℚ × (Plane →ᵃ[ℝ] Plane)) :=
  clips.map fun clip ↦ (clip.1, placement * clip.2)

instance : One Contour :=
  ⟨⟨[], 1⟩⟩

instance : Mul Contour :=
  ⟨fun outer inner ↦ ⟨outer.clips ++ placed outer.placement inner.clips,
    outer.placement * inner.placement⟩⟩

theorem clips_one : (1 : Contour).clips = [] :=
  rfl

theorem placement_one : (1 : Contour).placement = 1 :=
  rfl

theorem clips_mul (outer inner : Contour) :
    (outer * inner).clips = outer.clips ++ placed outer.placement inner.clips :=
  rfl

theorem placement_mul (outer inner : Contour) :
    (outer * inner).placement = outer.placement * inner.placement :=
  rfl

theorem placed_one (clips : List (ℚ × (Plane →ᵃ[ℝ] Plane))) : placed 1 clips = clips := by
  simp [placed]

theorem placed_placed (outer inner : Plane →ᵃ[ℝ] Plane) (clips : List (ℚ × (Plane →ᵃ[ℝ] Plane))) :
    placed outer (placed inner clips) = placed (outer * inner) clips := by
  simp [placed, mul_assoc]

instance : Monoid Contour where
  mul_assoc := by
    intro first second third
    ext1
    · simp only [clips_mul, placement_mul, List.append_assoc, ← placed_placed]
      simp [placed]
    · exact mul_assoc _ _ _
  one_mul := by
    intro contour
    ext1
    · rw [clips_mul, clips_one, placement_one, placed_one, List.nil_append]
    · exact one_mul contour.placement
  mul_one := by
    intro contour
    ext1
    · rw [clips_mul, clips_one, placed, List.map_nil, List.append_nil]
    · exact mul_one contour.placement

/-- Whether a contour has no clips and only shifts. -/
def IsShift (contour : Contour) : Prop :=
  contour.clips = [] ∧ ∃ v, contour.placement = shift v

/-- Whether no contour with clips comes before one that is more than a shift. -/
def IsCalm (above : List Contour) : Prop :=
  above.Pairwise fun outer inner ↦ outer.clips = [] ∨ inner.IsShift

theorem isCalm_of_cons {contour : Contour} {above : List Contour} (h : IsCalm (contour :: above)) :
    IsCalm above :=
  (List.pairwise_cons.mp h).2

/-- An contour that does nothing can come first. -/
theorem IsCalm.one_cons {above : List Contour} (h : IsCalm above) : IsCalm (1 :: above) :=
  List.pairwise_cons.mpr ⟨fun _ _ ↦ Or.inl rfl, h⟩

/-- The first two contours can be taken together. -/
theorem IsCalm.mul_cons {first second : Contour} {above : List Contour}
    (h : IsCalm (first :: second :: above)) : IsCalm ((first * second) :: above) := by
  obtain ⟨hfirst, hrest⟩ := List.pairwise_cons.mp h
  obtain ⟨hsecond, habove⟩ := List.pairwise_cons.mp hrest
  refine List.pairwise_cons.mpr ⟨fun inner hinner ↦ ?_, habove⟩
  rcases hfirst inner (List.mem_cons_of_mem _ hinner) with hnone | hshift
  · rcases hsecond inner hinner with hnone' | hshift
    · left
      rw [clips_mul, hnone, hnone']
      rfl
    · exact Or.inr hshift
  · exact Or.inr hshift

end Contour

/-- The contour of a group with a given pose that clips or does not. -/
def Pose.contour (turning : Turning) (clips : Bool) (t : Pose) : Contour where
  clips := if clips then [(t .clipPath, t.placement turning)] else []
  placement := t.placement turning

theorem Pose.clips_contour {turning : Turning} {clips : Bool} {t : Pose} :
    (t.contour turning clips).clips = [] ↔ clips = false := by
  rw [contour]
  cases clips <;> simp

/-- Whether there is a clip path under some tag. -/
def Tagged.clips (tags : Tagged) : Bool :=
  Kind.all.any fun kind ↦ Entries.contains tags ⟨.clipPath, kind⟩

/-- The contour of a group by its tags. -/
def tagContour (turning : Turning) (env : Assignment) (tags : Tagged) : Contour :=
  (ofTags env tags).contour turning tags.clips

section Contours

variable {turning : Turning} {env : Assignment} {tags candidates : Tagged}

theorem Pose.contour_congr {t u : Pose} (happearance : t.appearance turning = u.appearance turning)
    (hclip : t .clipPath = u .clipPath) (clips : Bool) : t.contour turning clips =
      u.contour turning clips := by
  have hplacement : t.placement turning = u.placement turning := congrArg Prod.fst happearance
  rw [contour, contour, hplacement, hclip]

theorem Tagged.clips_eq_false_iff :
    tags.clips = false ↔ ∀ kind, Entries.get? tags ⟨.clipPath, kind⟩ = none := by
  have hall (kind : Kind) : kind ∈ Kind.all := by cases kind <;> decide
  rw [clips, List.any_eq_false]
  refine ⟨fun h kind ↦ ?_, fun h kind _ ↦ ?_⟩
  · rw [← Entries.contains_eq_false_iff]
    exact Bool.eq_false_iff.mpr (h kind (hall kind))
  · rw [Bool.not_eq_true, Entries.contains_eq_false_iff]
    exact h kind

/-- Where no tag holds a clip path, the clip counts as zero. -/
theorem ofTags_clipPath (h : tags.clips = false) : ofTags env tags .clipPath = 0 :=
  ofTags_of_neutral fun kind ↦ reading_of_none (Tagged.clips_eq_false_iff.mp h kind)

theorem tagContour_nil : tagContour turning env [] = 1 := by
  ext1
  · rfl
  · exact congrArg Prod.fst (appearance_ofTags_nil turning env)

theorem tagContour_inTagOrder (tags : Tagged) :
    tagContour turning env (inTagOrder tags) = tagContour turning env tags := by
  have hclips : (inTagOrder tags).clips = tags.clips := by
    rw [Tagged.clips, Tagged.clips]
    exact congrArg _ (funext fun kind ↦ Entries.contains_congr (get?_inTagOrder tags _))
  rw [tagContour, tagContour, hclips, ofTags_inTagOrder]

/-- A group that turns and scales about its pivot leaves the pivot where it is, so it is a shift by
nothing if it is a shift at all and has no translation. -/
theorem placement_eq_one {t : Pose} (htranslation : t.translation = 0) {v : Plane}
    (h : t.placement turning = shift v) : t.placement turning = 1 := by
  have hfixed : t.placement turning t.pivot = t.pivot := by
    rw [placement, htranslation, shift_zero, one_mul]
    show t.turn turning (t.pivot + -t.pivot) + t.pivot = t.pivot
    rw [add_neg_cancel, turn, LinearMap.coe_toAffineMap, map_zero, zero_add]
  have hshifted : t.placement turning t.pivot = t.pivot + v := by
    rw [h]
    rfl
  have hzero : v = 0 := by
    rw [hfixed] at hshifted
    simpa using hshifted
  rw [h, hzero, shift_zero]

/-- Nothing is shifted in a group into which a clip path may be pushed. -/
theorem translation_of_accepts (haccepts : accepts candidates tags = true)
    (hclips : candidates.clips = true) : (ofTags env tags).translation = 0 := by
  obtain ⟨kind, -, hkind⟩ := List.any_eq_true.mp hclips
  rw [Entries.contains_eq_isSome, Option.isSome_iff_exists] at hkind
  obtain ⟨clip, hclip⟩ := hkind
  have hnone (property : Property) (hproperty : property.family = .translate) :
      ofTags env tags property = neutral property := by
    refine ofTags_of_neutral fun other ↦ reading_of_none ?_
    have hmoved : Tag.family ⟨property, other⟩ = .translate := hproperty
    refine get?_of_accepts haccepts (Entries.mem_of_get? hclip) ?_
    rw [Tag.conflicts, hmoved]
    rfl
  rw [translation, hnone .translateX rfl, hnone .translateY rfl]
  exact Prod.ext Rat.cast_zero Rat.cast_zero

/-- A group that does not clip adds to the contour of the group below where its coordinates are. -/
theorem Pose.contour_mul_left {outer inner both : Pose}
    (hplacement : both.placement turning = outer.placement turning * inner.placement turning)
    (hclip : both .clipPath = inner .clipPath) (clips : Bool) :
    both.contour turning clips = outer.contour turning false * inner.contour turning clips := by
  ext1
  · rw [Contour.clips_mul]
    cases clips with
    | false => rfl
    | true => simp [contour, Contour.placed, hclip, hplacement]
  · exact hplacement

/-- A group that does not clip and leaves the coordinates alone adds nothing to the contour of the
group above. -/
theorem Pose.contour_mul_right {outer inner both : Pose} (hinner : inner.placement turning = 1)
    (hplacement : both.placement turning = outer.placement turning)
    (hclip : both .clipPath = outer .clipPath) (clips : Bool) :
    both.contour turning clips = outer.contour turning clips * inner.contour turning false := by
  have hone : inner.contour turning false = 1 := Contour.ext rfl hinner
  rw [hone, mul_one, contour, contour, hplacement, hclip]

/-- A push gives the child the contour of both groups, as long as the child does not clip and only
shifts where the parent clips. -/
theorem IsPush.contour {merged moved : Tagged} (h : IsPush tags candidates merged moved)
    (haccepts : accepts candidates tags = true)
    (hcalm : (tagContour turning env candidates).clips = [] ∨
      (tagContour turning env tags).IsShift) :
    tagContour turning env merged =
      tagContour turning env candidates * tagContour turning env tags := by
  have hplacement : (ofTags env merged).placement turning =
      (ofTags env candidates).placement turning * (ofTags env tags).placement turning :=
    congrArg Prod.fst (h.appearance turning env)
  have hclip : ofTags env merged .clipPath =
      ofTags env tags .clipPath + ofTags env candidates .clipPath := by
    rw [ofTags, ofTags, ofTags, h.clip, h.clip, h.clip]
    show _ + _ + _ = _ + _ + _ + (_ + _ + _)
    ring
  have hclips : merged.clips = (tags.clips || candidates.clips) := by
    rw [Bool.eq_iff_iff, Bool.or_eq_true, Tagged.clips, Tagged.clips, Tagged.clips]
    simp only [List.any_eq_true, h.clips, Bool.or_eq_true, and_or_left, exists_or]
  cases hparent : candidates.clips with
  | false =>
    rw [hparent, Bool.or_false] at hclips
    rw [ofTags_clipPath hparent, add_zero] at hclip
    rw [tagContour, tagContour, tagContour, hparent, hclips]
    exact Pose.contour_mul_left hplacement hclip _
  | true =>
    obtain ⟨hnone, v, hv⟩ : (tagContour turning env tags).IsShift := by
      refine hcalm.resolve_left ?_
      rw [tagContour, Pose.clips_contour, hparent]
      decide
    have hchild : tags.clips = false := Pose.clips_contour.mp hnone
    have hstill : (ofTags env tags).placement turning = 1 :=
      placement_eq_one (translation_of_accepts haccepts hparent) hv
    rw [hchild, hparent, Bool.or_true] at hclips
    rw [ofTags_clipPath hchild, zero_add] at hclip
    rw [hstill, mul_one] at hplacement
    rw [tagContour, tagContour, tagContour, hparent, hclips, hchild]
    exact Pose.contour_mul_right hstill hplacement hclip _

end Contours

namespace Frame

/-- The contour of a group by its tags. -/
def taggedContour (turning : Turning) (env : Assignment) (frame : Frame) : Contour :=
  tagContour turning env frame.tagged

end Frame

end Motion
