import Motion.Proofs.Document.Gradients

/-!
What references to gradients come to stand for when a document is hoisted. A name stands for the
first gradient that the resources store under it. A new name stands for the gradient that was moved,
every other name for what it stood for before (`Data.Hoists.resolve?_eq`). New names are new to the
resource that they are stored in only: one under which a resource further on stores a gradient is
captured. Where there is no such gradient every reference is kept (`hoistGradients_resolves`).
-/

set_option autoImplicit false
set_option relaxedAutoImplicit false

namespace Motion

namespace Data

/-- The gradient that the first of some resources to define a name stores under it. -/
def resolveAmong (resources : List Data) (name : String) : Option Data :=
  resources.findSome? fun resource ↦ Entries.get? resource.gradientsOf name

/-- The gradient that a name stands for in a document. -/
def resolve? (document : Data) (name : String) : Option Data :=
  resolveAmong document.resourceList name

/-- Resources without gradients define no name. -/
theorem resolveAmong_append {before : List Data}
    (h : ∀ resource ∈ before, resource.get? gradientKey = none) (after : List Data) (name : String) :
    resolveAmong (before ++ after) name = resolveAmong after name := by
  have hnone : ∀ resource ∈ before, Entries.get? resource.gradientsOf name = none := by
    intro resource hresource
    rw [gradientsOf, h resource hresource]
    rfl
  rw [resolveAmong, List.findSome?_append, List.findSome?_eq_none_iff.mpr hnone, Option.none_or]
  rfl

theorem resolveAmong_cons (resource : Data) (rest : List Data) (name : String) :
    resolveAmong (resource :: rest) name =
      (Entries.get? resource.gradientsOf name).or (resolveAmong rest name) := by
  rw [resolveAmong, List.findSome?_cons]
  cases Entries.get? resource.gradientsOf name <;> rfl

end Data

variable {limit : ℤ} {members : Members} {document hoisted : Data} {moves : List Data.Move}

/-- A name stands for what is stored under it in the first resource that has gradients, or else for
what it stands for in resources further on, which do not change. -/
theorem Stores.exists_later
    (h : Stores hoisted.storedGradients document.resourceList hoisted.resourceList) :
    ∃ later, ∀ name,
      document.resolve? name =
        (Entries.get? document.storedGradients name).or (Data.resolveAmong later name) ∧
      hoisted.resolve? name =
        (Entries.get? hoisted.storedGradients name).or (Data.resolveAmong later name) := by
  unfold Data.resolve?
  generalize hkept : hoisted.storedGradients = gradients at h ⊢
  rw [Data.storedGradients]
  generalize document.resourceList = resources at h ⊢
  generalize hoisted.resourceList = kept at h ⊢
  cases h with
  | @extend before after members old hnone hfirst =>
    refine ⟨after, fun name ↦ ?_⟩
    have hstored : ((gradientsAmong (before ++ .obj members :: after)).bind Data.members?).getD [] =
        (Data.obj members).gradientsOf := by
      rw [gradientsAmong_append hnone, gradientsAmong, List.findSome?_cons, Data.gradientsOf,
        Data.get?, hfirst]
    have hput : (Data.obj (Entries.put members gradientKey (.obj gradients))).gradientsOf =
        gradients := by
      rw [Data.gradientsOf, Data.get?, Entries.get?_put_self]
      rfl
    rw [hstored, Data.resolveAmong_append hnone, Data.resolveAmong_append hnone,
      Data.resolveAmong_cons, Data.resolveAmong_cons, hput]
    exact ⟨rfl, rfl⟩
  | create hnone =>
    refine ⟨[], fun name ↦ ?_⟩
    have hresources := Data.resolveAmong_append hnone [] name
    have hstored := gradientsAmong_append hnone []
    rw [List.append_nil] at hresources hstored
    rw [hresources, hstored, Data.resolveAmong_append hnone, Data.resolveAmong_cons]
    exact ⟨rfl, rfl⟩

/-- Any other name stands for what it stood for. -/
theorem Data.Hoists.resolve?_eq (h : Hoists moves document hoisted) {name : String}
    (hname : ∀ move ∈ moves, move.name ≠ name) :
    hoisted.resolve? name = document.resolve? name := by
  by_cases hmoves : moves = []
  · rw [h.unmoved hmoves]
  · obtain ⟨later, hlater⟩ := (h.resources hmoves).exists_later
    have hnone : Entries.get? (moves.map Move.entry) name = none := by
      rw [← Entries.contains_eq_false_iff, Entries.contains, List.any_eq_false]
      refine List.forall_mem_map.mpr fun move hmove ↦ ?_
      rw [decide_eq_true_iff]
      exact hname move hmove
    rw [(hlater name).1, (hlater name).2, h.stored, Entries.get?_append, hnone, Option.or_none]

/-- Whether names numbered as new gradients are, if they stand for anything, are defined in the first
resource that has gradients. -/
def Data.DefinesFirst (document : Data) : Prop :=
  ∀ n ≥ firstGradient, (document.resolve? (gradientName n)).isSome = true →
    Entries.contains document.storedGradients (gradientName n) = true

/-- No gradient gets a name that stood for another one where names numbered as new gradients are
defined first. -/
theorem Data.Hoists.resolve?_name_eq_none (h : Hoists moves document hoisted)
    (hfirst : document.DefinesFirst) {move : Move} (hmove : move ∈ moves) :
    document.resolve? move.name = none := by
  have hentry : move.entry ∈ moves.map Move.entry := List.mem_map_of_mem hmove
  obtain ⟨n, hn, hname⟩ := h.names.numbered _ hentry
  have hfresh := h.names.fresh _ hentry
  rw [hname] at hfresh
  rw [← Option.not_isSome_iff_eq_none]
  intro hsome
  have hname : move.name = gradientName n := hname
  rw [hname] at hsome
  rw [hfirst n hn hsome] at hfresh
  cases hfresh

/-- Hoisting changes only what the new names stand for. It captures no reference where names numbered
as new gradients are defined in the first resource that has gradients: no new name stood for a
gradient, and whatever stood for a gradient stands for it still. -/
theorem hoistGradients_resolves (h : hoistGradients limit (.obj members) = .done hoisted) :
    ∃ moves, Data.Hoists moves (.obj members) hoisted ∧
      (∀ name, (∀ move ∈ moves, move.name ≠ name) →
        hoisted.resolve? name = (Data.obj members).resolve? name) ∧
      ((Data.obj members).DefinesFirst →
        (∀ move ∈ moves, (Data.obj members).resolve? move.name = none) ∧
          ∀ name gradient, (Data.obj members).resolve? name = some gradient →
            hoisted.resolve? name = some gradient) := by
  obtain ⟨moves, hmoves⟩ := exists_hoists h
  refine ⟨moves, hmoves, fun name hname ↦ hmoves.resolve?_eq hname, fun hfirst ↦ ?_⟩
  refine ⟨fun move hmove ↦ hmoves.resolve?_name_eq_none hfirst hmove,
    fun name gradient hresolve ↦ ?_⟩
  rw [hmoves.resolve?_eq, hresolve]
  rintro move hmove rfl
  rw [hmoves.resolve?_name_eq_none hfirst hmove] at hresolve
  cases hresolve

/-- A path with a static gradient, one that refers to a gradient, and two resources that store
gradients, of which the second defines the one that is referred to. -/
def layeredDocument (first : Members) : Data :=
  .obj [("items", .list [.obj [("type", .str "path"), ("fill", .str "@gradient1000")],
      .obj [("type", .str "path"), ("fill", .obj [("type", .str "linear")])]]),
    ("resources", .list [.obj [("gradient", .obj first)],
      .obj [("gradient", .obj [("gradient1000", .obj [("type", .str "radial")])])]])]

/-- The first resource defines the name as well, and the new gradient gets another one. -/
theorem hoistGradients_resolves_layered :
    (hoistGradients 1 (layeredDocument [("gradient1000", .obj [])])).fault? = none ∧
      (layeredDocument [("gradient1000", .obj [])]).DefinesFirst ∧
      ∀ name gradient,
        (layeredDocument [("gradient1000", .obj [])]).resolve? name = some gradient →
          (hoistGradients 1 (layeredDocument [("gradient1000", .obj [])])).value.resolve? name =
            some gradient := by
  have hfault : (hoistGradients 1 (layeredDocument [("gradient1000", .obj [])])).fault? = none := by
    decide +kernel
  have hfirst : (layeredDocument [("gradient1000", .obj [])]).DefinesFirst := by
    intro n _ hsome
    have hresolve (name : String) : (layeredDocument [("gradient1000", .obj [])]).resolve? name =
        (Entries.get? [("gradient1000", .obj [])] name).or
          ((Entries.get? [("gradient1000", .obj [("type", .str "radial")])] name).or none) :=
      (Data.resolveAmong_cons _ _ name).trans
        (congrArg (Option.or _) (Data.resolveAmong_cons _ _ name))
    have hstored : (layeredDocument [("gradient1000", .obj [])]).storedGradients =
        [("gradient1000", .obj [])] := rfl
    rw [hstored, Entries.contains_eq_isSome]
    by_cases hname : "gradient1000" = gradientName n
    · rw [← hname]
      rfl
    · rw [hresolve, Entries.get?_cons, Entries.get?_cons, if_neg hname, if_neg hname] at hsome
      cases hsome
  obtain ⟨moves, -, -, hresolves⟩ := hoistGradients_resolves (Progress.eq_done hfault)
  exact ⟨hfault, hfirst, (hresolves hfirst).2⟩

/-- The first resource defines nothing, and the new gradient captures the reference. -/
theorem hoistGradients_captures :
    (layeredDocument []).hasResources = true ∧
      (hoistGradients 1 (layeredDocument [])).fault? = none ∧
      (layeredDocument []).resolve? "gradient1000" = some (.obj [("type", .str "radial")]) ∧
      (hoistGradients 1 (layeredDocument [])).value.resolve? "gradient1000" =
        some (.obj [("type", .str "linear")]) ∧
      ¬ ∀ name gradient, (layeredDocument []).resolve? name = some gradient →
        (hoistGradients 1 (layeredDocument [])).value.resolve? name = some gradient := by
  have hbefore : (layeredDocument []).resolve? "gradient1000" =
      some (.obj [("type", .str "radial")]) := by rfl
  have hafter : (hoistGradients 1 (layeredDocument [])).value.resolve? "gradient1000" =
      some (.obj [("type", .str "linear")]) := by rfl
  refine ⟨by decide +kernel, by decide +kernel, hbefore, hafter, fun hkept ↦ ?_⟩
  have hsame := (hkept _ _ hbefore).symm.trans hafter
  simp at hsame

end Motion
