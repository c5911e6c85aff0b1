import Motion.Proofs.Document.Cleaning
import Mathlib.Data.List.Perm.Subperm

/-!
Storing gradients. The number of a new name is free (`contains_freeNumber`), so a new gradient comes
behind those that are stored already. The gradients are put into the first resource that has some, or
into a new one behind all others (`Stores`); nothing else changes among the resources of a document
(`hoistGradients_resources`).
-/

set_option autoImplicit false
set_option relaxedAutoImplicit false

namespace Motion

section Names

theorem gradientName_injective : Function.Injective gradientName :=
  numbered_injective gradientKey.toList

theorem le_freeNumber (taken : Members) (n fuel : ℕ) : n ≤ freeNumber taken n fuel := by
  induction fuel generalizing n with
  | zero => exact le_refl n
  | succ fuel ih =>
    rw [freeNumber]
    split_ifs
    · exact (Nat.le_succ n).trans (ih (n + 1))
    · exact le_refl n

/-- If the search ends with a number whose name is taken, all names on the way are taken. -/
theorem contains_of_freeNumber {taken : Members} {n fuel : ℕ}
    (h : Entries.contains taken (gradientName (freeNumber taken n fuel)) = true) :
    ∀ k ≤ fuel, Entries.contains taken (gradientName (n + k)) = true := by
  induction fuel generalizing n with
  | zero =>
    intro k hk
    rw [Nat.le_zero.mp hk]
    exact h
  | succ fuel ih =>
    intro k hk
    rw [freeNumber] at h
    split_ifs at h with htaken
    · cases k with
      | zero => exact htaken
      | succ k =>
        have hnext := ih h k (Nat.le_of_succ_le_succ hk)
        rwa [Nat.add_assoc, Nat.add_comm 1 k] at hnext
    · exact absurd h htaken

/-- The search finds a free number: there are more numbers on the way than names that are taken. -/
theorem contains_freeNumber (taken : Members) (n : ℕ) :
    Entries.contains taken (gradientName (freeNumber taken n taken.length)) = false := by
  by_contra hfound
  rw [Bool.not_eq_false] at hfound
  have hall := contains_of_freeNumber hfound
  have hnodup : ((List.range (taken.length + 1)).map fun k ↦ gradientName (n + k)).Nodup := by
    refine List.nodup_range.map fun k l hkl ↦ ?_
    exact Nat.add_left_cancel (gradientName_injective hkl)
  have hsubset : (List.range (taken.length + 1)).map (fun k ↦ gradientName (n + k)) ⊆
      Entries.keys taken := by
    intro name hname
    obtain ⟨k, hk, rfl⟩ := List.mem_map.mp hname
    exact (Entries.contains_iff_mem_keys _ _).mp (hall k (Nat.le_of_lt_succ (List.mem_range.mp hk)))
  have hlength := (List.subperm_of_subset hnodup hsubset).length_le
  rw [List.length_map, List.length_range, Entries.keys, List.length_map] at hlength
  exact absurd hlength (Nat.not_succ_le_self _)

end Names

section Resources

namespace Data

/-- The resources of a document; none if it has no list of them. -/
def resourceList (document : Data) : List Data :=
  match document.get? resourcesKey with
  | some (.list resources) => resources
  | _ => []

theorem amongResources_eq {α : Type} (view : Data → List α) (document : Data) :
    document.amongResources view = document.resourceList.flatMap view := by
  unfold amongResources resourceList
  cases document.get? resourcesKey with
  | none => rfl
  | some found => cases found <;> rfl

/-- The gradients that a resource stores by name. -/
def gradientsOf (resource : Data) : Members :=
  ((resource.get? gradientKey).bind members?).getD []

/-- The gradients in the first resource of a document that has some. -/
def storedGradients (document : Data) : Members :=
  ((gradientsAmong document.resourceList).bind members?).getD []

end Data

/-- How resources come to hold gradients: in the first resource that has some, in the place of what it
has, or in a new resource behind all others. -/
inductive Stores (gradients : Members) : List Data → List Data → Prop
  | extend {before after : List Data} {members : Members} {old : Data}
      (hbefore : ∀ resource ∈ before, resource.get? gradientKey = none)
      (hfirst : Entries.get? members gradientKey = some old) :
      Stores gradients (before ++ .obj members :: after)
        (before ++ .obj (Entries.put members gradientKey (.obj gradients)) :: after)
  | create {resources : List Data}
      (hnone : ∀ resource ∈ resources, resource.get? gradientKey = none) :
      Stores gradients resources (resources ++ [.obj [(gradientKey, .obj gradients)]])

variable {gradients : Members} {resources kept : List Data}

/-- The first resource that has gradients stands behind those that have none. -/
theorem gradientsAmong_append {before : List Data}
    (h : ∀ resource ∈ before, resource.get? gradientKey = none) (after : List Data) :
    gradientsAmong (before ++ after) = gradientsAmong after := by
  rw [gradientsAmong, List.findSome?_append, List.findSome?_eq_none_iff.mpr h, Option.none_or]
  rfl

theorem Stores.cons {resource : Data} (hnone : resource.get? gradientKey = none)
    (h : Stores gradients resources kept) :
    Stores gradients (resource :: resources) (resource :: kept) := by
  cases h with
  | @extend before after members old hbefore hfirst =>
    exact @Stores.extend gradients (resource :: before) after members old
      (List.forall_mem_cons.mpr ⟨hnone, hbefore⟩) hfirst
  | create hall => exact .create (List.forall_mem_cons.mpr ⟨hnone, hall⟩)

theorem storeGradients_stores (gradients : Members) (resources : List Data) :
    Stores gradients resources (storeGradients gradients resources) := by
  induction resources with
  | nil => exact .create (List.forall_mem_nil _)
  | cons resource rest ih =>
    cases resource with
    | obj members =>
      rw [storeGradients]
      split_ifs with hgradients
      · rw [Entries.contains_eq_isSome] at hgradients
        obtain ⟨old, hold⟩ := Option.isSome_iff_exists.mp hgradients
        exact @Stores.extend gradients [] rest members old (List.forall_mem_nil _) hold
      · rw [Bool.not_eq_true, Entries.contains_eq_false_iff] at hgradients
        exact ih.cons hgradients
    | _ => exact ih.cons rfl

/-- Only the gradients of one resource change, or a resource with nothing else is added. -/
theorem Stores.forall₂ (h : Stores gradients resources kept) : ∃ same new, kept = same ++ new ∧
    List.Forall₂ (fun resource kept ↦ ∀ key ≠ gradientKey, kept.get? key = resource.get? key)
      resources same ∧ ∀ resource ∈ new, ∀ key ≠ gradientKey, resource.get? key = none := by
  have hself (others : List Data) :
      List.Forall₂ (fun resource kept ↦ ∀ key ≠ gradientKey, kept.get? key = resource.get? key)
        others others := List.forall₂_same.mpr fun _ _ _ _ ↦ rfl
  cases h with
  | @extend before after members old hbefore hfirst =>
    refine ⟨_, [], (List.append_nil _).symm, ?_, List.forall_mem_nil _⟩
    refine List.rel_append (hself before) (.cons (fun key hkey ↦ ?_) (hself after))
    exact Entries.get?_put_of_ne hkey.symm members _
  | create =>
    refine ⟨resources, _, rfl, hself resources, List.forall_mem_singleton.mpr fun key hkey ↦ ?_⟩
    rw [Data.get?, Entries.get?_cons, if_neg hkey.symm, Entries.get?_nil]

end Resources

section Documents

variable {members others : Members}

theorem resourceList_of_get? {resources : List Data}
    (h : Entries.get? members resourcesKey = some (.list resources)) :
    (Data.obj members).resourceList = resources := by
  rw [Data.resourceList, Data.get?, h]

theorem resourceList_congr
    (h : Entries.get? others resourcesKey = Entries.get? members resourcesKey) :
    (Data.obj others).resourceList = (Data.obj members).resourceList := by
  rw [Data.resourceList, Data.get?, h, Data.resourceList, Data.get?]

theorem resourceList_intoDocument (listing : GradientListing) (members : Members) :
    (Data.obj (listing.intoDocument members)).resourceList = (Data.obj members).resourceList ∨
      ∃ gradients, (Data.obj (listing.intoDocument members)).resourceList =
        storeGradients gradients (Data.obj members).resourceList := by
  unfold GradientListing.intoDocument
  split
  · rename_i gradients _ _
    refine Or.inr ⟨gradients, ?_⟩
    rw [resourceList_of_get? (Entries.get?_put_self _ _ _)]
    rfl
  · exact Or.inl rfl

/-- Hoisting changes the gradients of resources, or adds a resource that has nothing else. -/
theorem hoistGradients_resources (limit : ℤ) (members : Members) : ∃ same new,
    (hoistGradients limit (.obj members)).value.resourceList = same ++ new ∧
      List.Forall₂ (fun resource kept ↦ ∀ key ≠ gradientKey, kept.get? key = resource.get? key)
        (Data.obj members).resourceList same ∧
      ∀ resource ∈ new, ∀ key ≠ gradientKey, resource.get? key = none := by
  have hoisting := @Data.hoist_hoistsFrom limit (.obj members) 0 (.ofDocument members)
  obtain ⟨others, hothers, hsame, -⟩ := hoisting.tidied.obj
  rw [hoistGradients, Progress.value_map, ← Prod.mk.eta (p := Progress.value _), hothers]
  rw [← resourceList_congr (hsame resourcesKey (by decide))]
  rcases resourceList_intoDocument
      (hoist limit 0 (.ofDocument members) (.obj members)).value.2 others with
    hunchanged | ⟨gradients, hstored⟩
  · refine ⟨_, [], (List.append_nil _).symm, ?_, List.forall_mem_nil _⟩
    rw [hunchanged]
    exact List.forall₂_same.mpr fun _ _ _ _ ↦ rfl
  · dsimp only
    rw [hstored]
    exact (storeGradients_stores gradients _).forall₂

end Documents

end Motion
