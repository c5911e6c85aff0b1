import Motion.Proofs.Outcome
import Motion.Proofs.Scene.Leaves
import Motion.Scene.Listing
import Motion.Scene.Push
import Motion.Scene.Splice
import Motion.Scene.Tagging

/-!
Walks over a scene that go through. A walk goes through exactly if none of its steps meets a fault,
and then its outcome is made of the outcomes of the steps. So it is enough to know what a change
does to one frame: a walk that changes frame after frame does it to all of them and keeps the leaves
(`Item.changeEach_leaves`).
-/

set_option autoImplicit false
set_option relaxedAutoImplicit false

namespace Motion

namespace Progress

variable {α β : Type}

@[simp] theorem fault?_done (value : α) : (done value).fault? = none := rfl

@[simp] theorem value_done (value : α) : (done value).value = value := rfl

theorem eq_done {p : Progress α} (h : p.fault? = none) : p = done p.value := by
  rw [done, ← h]

@[simp] theorem fault?_map (f : α → β) (p : Progress α) : (p.map f).fault? = p.fault? := rfl

@[simp] theorem value_map (f : α → β) (p : Progress α) : (p.map f).value = f p.value := rfl

theorem fault?_cons_eq_none {first : Progress α} {unchanged : List α} {rest : Progress (List α)} :
    (cons first unchanged rest).fault? = none ↔ first.fault? = none ∧ rest.fault? = none := by
  unfold cons
  cases h : first.fault? <;> simp

theorem value_cons {first : Progress α} (h : first.fault? = none) (unchanged : List α)
    (rest : Progress (List α)) :
    (cons first unchanged rest).value = first.value :: rest.value := by
  simp [cons, h]

theorem fault?_guarded_eq_none {check : Option Fault} {unchanged : α} {walk : Progress α} :
    (guarded check unchanged walk).fault? = none ↔ check = none ∧ walk.fault? = none := by
  cases check <;> simp [guarded]

@[simp] theorem guarded_none (unchanged : α) (walk : Progress α) :
    guarded none unchanged walk = walk := rfl

/-- What a walk so far and its rest keep, the whole walk keeps. -/
theorem andThen_keeps {q : α → Prop} {p : Progress α} {next : α → Progress α} (h : q p.value)
    (hnext : ∀ value, q value → q (next value).value) : q (p.andThen next).value := by
  unfold andThen
  cases p.fault? with
  | some fault => exact h
  | none => exact hnext p.value h

theorem andThen_done (value : α) (next : α → Progress α) : (done value).andThen next = next value :=
  rfl

theorem andThen_assoc (p : Progress α) (next last : α → Progress α) :
    p.andThen (fun value ↦ (next value).andThen last) = (p.andThen next).andThen last := by
  unfold andThen
  cases h : p.fault? <;> simp [h]

theorem toExcept_eq_ok {p : Progress α} {value : α} :
    p.toExcept = .ok value ↔ p.fault? = none ∧ p.value = value := by
  unfold toExcept
  cases h : p.fault? <;> simp

end Progress

namespace Item

variable {α β : Type}

mutual

theorem Every.mono {p q : Frame → List Item → Prop}
    (hpq : ∀ frame items, p frame items → q frame items) : ∀ {item : Item}, Every p item → Every q item
  | .leaf _, h => h
  | .group frame items, h => ⟨hpq frame items h.1, EveryIn.mono hpq h.2⟩

theorem EveryIn.mono {p q : Frame → List Item → Prop}
    (hpq : ∀ frame items, p frame items → q frame items) :
    ∀ {items : List Item}, EveryIn p items → EveryIn q items
  | [], _ => trivial
  | _ :: _, h => ⟨Every.mono hpq h.1, EveryIn.mono hpq h.2⟩

end

mutual

theorem Every.and {p q : Frame → List Item → Prop} : ∀ {item : Item}, Every p item → Every q item →
    Every (fun frame items ↦ p frame items ∧ q frame items) item
  | .leaf _, h, _ => h
  | .group _ _, hp, hq => ⟨⟨hp.1, hq.1⟩, EveryIn.and hp.2 hq.2⟩

theorem EveryIn.and {p q : Frame → List Item → Prop} : ∀ {items : List Item}, EveryIn p items →
    EveryIn q items → EveryIn (fun frame items ↦ p frame items ∧ q frame items) items
  | [], _, _ => trivial
  | _ :: _, hp, hq => ⟨Every.and hp.1 hq.1, EveryIn.and hp.2 hq.2⟩

end

mutual

/-- Making lists keeps the leaves, and what holds of frames no matter how items are held. -/
theorem listBelow_leaves {p : Frame → Prop}
    (hp : ∀ frame, p frame → p { frame with holding := .listed })
    {view : Frame → α} (hview : ∀ frame, view { frame with holding := .listed } = view frame)
    (limit : Int) : ∀ (item : Item) (depth : Int),
    Every (fun frame items ↦ p frame ∧ (frame.holding = .absent → items = [])) item →
    (listBelow limit depth item).fault? = none →
      Every (fun frame items ↦ p frame ∧ frame.HasList items) (listBelow limit depth item).value ∧
        leaves view (listBelow limit depth item).value = leaves view item
  | .leaf value, depth, h, _ => ⟨h, rfl⟩
  | .group frame items, depth, h, hfault => by
    obtain ⟨⟨hframe, habsent⟩, hitems⟩ := h
    by_cases hholding : frame.holding = .absent
    · have hnil := habsent hholding
      subst hnil
      rw [listBelow, if_pos hholding]
      exact ⟨⟨⟨hframe, Or.inr ⟨hholding, rfl⟩⟩, trivial⟩, rfl⟩
    · rw [listBelow, if_neg hholding] at hfault ⊢
      obtain ⟨hcheck, hbelow⟩ := Progress.fault?_guarded_eq_none.mp hfault
      rw [hcheck]
      obtain ⟨hevery, hleaves⟩ := listEach_leaves hp hview limit items (depth + 1) hitems hbelow
      refine ⟨⟨⟨hp frame hframe, Or.inl rfl⟩, hevery⟩, ?_⟩
      simp only [Progress.guarded_none, Progress.value_map, leaves, hleaves, hview]

theorem listEach_leaves {p : Frame → Prop} (hp : ∀ frame, p frame → p { frame with holding := .listed })
    {view : Frame → α} (hview : ∀ frame, view { frame with holding := .listed } = view frame)
    (limit : Int) : ∀ (items : List Item) (depth : Int),
    EveryIn (fun frame items ↦ p frame ∧ (frame.holding = .absent → items = [])) items →
    (listEach limit depth items).fault? = none →
      EveryIn (fun frame items ↦ p frame ∧ frame.HasList items) (listEach limit depth items).value ∧
        leavesIn view (listEach limit depth items).value = leavesIn view items
  | [], _, _, _ => ⟨trivial, rfl⟩
  | item :: rest, depth, h, hfault => by
    obtain ⟨hfirst, hrest⟩ := Progress.fault?_cons_eq_none.mp hfault
    have first := listBelow_leaves hp hview limit item depth h.1 hfirst
    have others := listEach_leaves hp hview limit rest depth h.2 hrest
    rw [listEach, Progress.value_cons hfirst]
    exact ⟨⟨first.1, others.1⟩, by rw [leavesIn, first.2, others.2, leavesIn]⟩

end

mutual

/-- A walk that changes frames, by what they are and what their items are, keeps the leaves: what
the change makes of one frame it makes of all. -/
theorem changeBelow_leaves {change : Frame → List Item → Progress Frame} {p q : Frame → Prop}
    {view : Frame → α} {view' : Frame → α}
    (hchange : ∀ frame items, p frame → frame.HasList items → (change frame items).fault? = none →
      (change frame items).value.holding = frame.holding ∧ q (change frame items).value ∧
        view' (change frame items).value = view frame)
    (limit : Int) : ∀ (item : Item) (depth : Int),
    Every (fun frame items ↦ p frame ∧ frame.HasList items) item →
    (changeBelow change limit depth item).fault? = none →
      Every (fun frame items ↦ q frame ∧ frame.HasList items)
          (changeBelow change limit depth item).value ∧
        leaves view' (changeBelow change limit depth item).value = leaves view item
  | .leaf value, depth, h, _ => ⟨h, rfl⟩
  | .group frame items, depth, h, hfault => by
    obtain ⟨⟨hframe, hlist⟩, hitems⟩ := h
    rw [changeBelow] at hfault ⊢
    obtain ⟨hchanged, hbelow⟩ := Progress.fault?_guarded_eq_none.mp hfault
    obtain ⟨hholding, hq, hview⟩ := hchange frame items hframe hlist hchanged
    rw [hchanged, Progress.guarded_none]
    rcases hlist with hlisted | ⟨habsent, rfl⟩
    · rw [hlisted] at hholding
      rw [hholding] at hbelow ⊢
      obtain ⟨hcheck, hbelow⟩ := Progress.fault?_guarded_eq_none.mp hbelow
      obtain ⟨hevery, hleaves⟩ :=
        changeEach_leaves hchange limit items (depth + 1) hitems hbelow
      rw [hcheck]
      refine ⟨⟨⟨hq, Or.inl hholding⟩, hevery⟩, ?_⟩
      simp only [Progress.guarded_none, Progress.value_map, leaves, hleaves, hview]
    · rw [habsent] at hholding
      rw [hholding]
      refine ⟨⟨⟨hq, Or.inr ⟨hholding, rfl⟩⟩, trivial⟩, ?_⟩
      simp only [Progress.value_done, leaves, leavesIn, List.map_nil]

theorem changeEach_leaves {change : Frame → List Item → Progress Frame} {p q : Frame → Prop}
    {view : Frame → α} {view' : Frame → α}
    (hchange : ∀ frame items, p frame → frame.HasList items → (change frame items).fault? = none →
      (change frame items).value.holding = frame.holding ∧ q (change frame items).value ∧
        view' (change frame items).value = view frame)
    (limit : Int) : ∀ (items : List Item) (depth : Int),
    EveryIn (fun frame items ↦ p frame ∧ frame.HasList items) items →
    (changeEach change limit depth items).fault? = none →
      EveryIn (fun frame items ↦ q frame ∧ frame.HasList items)
          (changeEach change limit depth items).value ∧
        leavesIn view' (changeEach change limit depth items).value = leavesIn view items
  | [], _, _, _ => ⟨trivial, rfl⟩
  | item :: rest, depth, h, hfault => by
    obtain ⟨hfirst, hrest⟩ := Progress.fault?_cons_eq_none.mp hfault
    have first := changeBelow_leaves hchange limit item depth h.1 hfirst
    have others := changeEach_leaves hchange limit rest depth h.2 hrest
    rw [changeEach, Progress.value_cons hfirst]
    exact ⟨⟨first.1, others.1⟩, by rw [leavesIn, first.2, others.2, leavesIn]⟩

end

/-- What a change makes of one frame holds of all frames after the walk. -/
theorem changeEach_every {change : Frame → List Item → Progress Frame} {p q : Frame → Prop}
    (hchange : ∀ frame items, p frame → frame.HasList items → (change frame items).fault? = none →
      (change frame items).value.holding = frame.holding ∧ q (change frame items).value)
    {limit : Int} {items : List Item} {depth : Int}
    (h : EveryIn (fun frame items ↦ p frame ∧ frame.HasList items) items)
    (hfault : (changeEach change limit depth items).fault? = none) :
    EveryIn (fun frame items ↦ q frame ∧ frame.HasList items)
      (changeEach change limit depth items).value := by
  refine (@changeEach_leaves Unit change p q (fun _ ↦ ()) (fun _ ↦ ())
    (fun frame items hframe hlist hnone ↦ ?_) limit items depth h hfault).1
  obtain ⟨hholding, hq⟩ := hchange frame items hframe hlist hnone
  exact ⟨hholding, hq, rfl⟩

mutual

/-- Pushing changes tagged properties only. -/
theorem pushBelow_leaves {p : Frame → Prop}
    (hp : ∀ frame (tags : Tagged), p frame → p { frame with tags })
    {view : Frame → α} (hview : ∀ frame tags, view { frame with tags } = view frame)
    (limit : Int) : ∀ (item : Item) (depth : Int) (push : Bool) (candidates : Tagged),
    Every (fun frame items ↦ p frame ∧ frame.HasList items) item →
    (pushBelow limit depth push candidates item).fault? = none →
      Every (fun frame items ↦ p frame ∧ frame.HasList items)
          (pushBelow limit depth push candidates item).value.1 ∧
        leaves view (pushBelow limit depth push candidates item).value.1 = leaves view item
  | .leaf value, _, _, _, h, _ => ⟨h, rfl⟩
  | .group ⟨before, after, holding, tags⟩ items, depth, push, candidates, h, hfault => by
    obtain ⟨⟨hframe, hlist⟩, hitems⟩ := h
    rw [pushBelow] at hfault ⊢
    generalize (if push then pushInto (Frame.tagged ⟨before, after, holding, tags⟩) candidates
      else .done (Frame.tagged ⟨before, after, holding, tags⟩, candidates) :
        Progress (Tagged × Tagged)) = received at hfault ⊢
    cases hreceived : received.fault? with
    | some fault => simp [hreceived, Progress.stopped] at hfault
    | none =>
      simp only [hreceived] at hfault ⊢
      rcases hlist with rfl | ⟨rfl, rfl⟩
      · obtain ⟨hcheck, hbelow⟩ := Progress.fault?_guarded_eq_none.mp hfault
        obtain ⟨hevery, hleaves⟩ := pushEach_leaves hp hview limit items (depth + 1)
          (mayPush items (inTagOrder received.value.1)) (inTagOrder received.value.1) hitems hbelow
        rw [hcheck]
        refine ⟨⟨⟨hp _ _ hframe, Or.inl rfl⟩, hevery⟩, ?_⟩
        rw [Progress.guarded_none, Progress.value_map, leaves, leaves, hleaves]
        exact congrArg (fun a ↦ (leavesIn view items).map (Leaf.under a))
          (hview ⟨before, after, .listed, tags⟩ _)
      · refine ⟨⟨⟨hp _ _ hframe, Or.inr ⟨rfl, rfl⟩⟩, trivial⟩, ?_⟩
        rfl

theorem pushEach_leaves {p : Frame → Prop}
    (hp : ∀ frame (tags : Tagged), p frame → p { frame with tags })
    {view : Frame → α} (hview : ∀ frame tags, view { frame with tags } = view frame)
    (limit : Int) : ∀ (items : List Item) (depth : Int) (push : Bool) (candidates : Tagged),
    EveryIn (fun frame items ↦ p frame ∧ frame.HasList items) items →
    (pushEach limit depth push candidates items).fault? = none →
      EveryIn (fun frame items ↦ p frame ∧ frame.HasList items)
          (pushEach limit depth push candidates items).value.1 ∧
        leavesIn view (pushEach limit depth push candidates items).value.1 = leavesIn view items
  | [], _, _, _, _, _ => ⟨trivial, rfl⟩
  | item :: rest, depth, push, candidates, h, hfault => by
    rw [pushEach] at hfault ⊢
    cases hfirst : (pushBelow limit depth push candidates item).fault? with
    | some fault => simp [hfirst, Progress.stopped] at hfault
    | none =>
      simp only [hfirst, Progress.fault?_map] at hfault ⊢
      have first := pushBelow_leaves hp hview limit item depth push candidates h.1 hfirst
      have others := pushEach_leaves hp hview limit rest depth push _ h.2 hfault
      exact ⟨⟨first.1, others.1⟩, by
        simp only [Progress.value_map, leavesIn, first.2, others.2]⟩

end

theorem leavesIn_append (view : Frame → α) (first second : List Item) :
    leavesIn view (first ++ second) = leavesIn view first ++ leavesIn view second := by
  induction first with
  | nil => rfl
  | cons item rest ih => rw [List.cons_append, leavesIn, leavesIn, ih, List.append_assoc]

theorem everyIn_append {p : Frame → List Item → Prop} {first second : List Item} :
    EveryIn p (first ++ second) ↔ EveryIn p first ∧ EveryIn p second := by
  induction first with
  | nil => simp [EveryIn]
  | cons item rest ih => rw [List.cons_append, EveryIn, EveryIn, ih, and_assoc]

section Splicing

variable {p : Frame → Prop} (view : Frame → α) (keep : α → Bool)

/-- Where redundant groups give way to their items, the leaves lose those groups from above them
and nothing else. -/
theorem leavesIn_spliceEach
    (hidle : ∀ frame items, p frame → isRedundant (.group frame items) = true →
      keep (view frame) = false) :
    ∀ items : List Item, EveryIn (fun frame items ↦ p frame ∧ frame.HasList items) items →
      EveryIn (fun frame items ↦ p frame ∧ frame.HasList items) (spliceEach items) ∧
        (leavesIn view (spliceEach items)).map (Leaf.filter keep) =
          (leavesIn view items).map (Leaf.filter keep)
  | [], _ => ⟨trivial, rfl⟩
  | .leaf value :: rest, h => by
    obtain ⟨hevery, hleaves⟩ := leavesIn_spliceEach hidle rest h.2
    have hsplice : spliceEach (.leaf value :: rest) = .leaf value :: spliceEach rest := rfl
    rw [hsplice]
    refine ⟨⟨h.1, hevery⟩, ?_⟩
    rw [leavesIn, leavesIn, List.map_append, List.map_append, hleaves]
  | .group frame items :: rest, h => by
    obtain ⟨hevery, hleaves⟩ := leavesIn_spliceEach hidle rest h.2
    have hsplice : spliceEach (.group frame items :: rest) =
        spliced (.group frame items) ++ spliceEach rest := rfl
    rw [hsplice, everyIn_append, leavesIn_append, leavesIn, List.map_append, List.map_append,
      hleaves, spliced]
    by_cases hredundant : isRedundant (.group frame items) = true
    · rw [if_pos hredundant]
      refine ⟨⟨h.1.2, hevery⟩, ?_⟩
      have hkeep := hidle frame items h.1.1.1 hredundant
      rw [leaves, List.map_map]
      congr 1
      refine List.map_congr_left fun leaf _ ↦ ?_
      rw [Function.comp_apply, Leaf.filter_under, hkeep]
      rfl
    · rw [if_neg hredundant]
      exact ⟨⟨⟨h.1, trivial⟩, hevery⟩, by rw [leavesIn, leavesIn, List.append_nil]⟩

mutual

/-- Splicing takes redundant groups from above the leaves and changes nothing else. -/
theorem spliceBelow_leaves
    (hidle : ∀ frame items, p frame → isRedundant (.group frame items) = true →
      keep (view frame) = false) (limit : Int) : ∀ (item : Item) (depth : Int),
    Every (fun frame items ↦ p frame ∧ frame.HasList items) item →
    (spliceBelow limit depth item).fault? = none →
      Every (fun frame items ↦ p frame ∧ frame.HasList items)
          (spliceBelow limit depth item).value ∧
        (leaves view (spliceBelow limit depth item).value).map (Leaf.filter keep) =
          (leaves view item).map (Leaf.filter keep)
  | .leaf value, _, h, _ => ⟨h, rfl⟩
  | .group ⟨before, after, holding, tags⟩ items, depth, h, hfault => by
    obtain ⟨⟨hframe, hlist⟩, hitems⟩ := h
    rcases hlist with rfl | ⟨rfl, rfl⟩
    · rw [spliceBelow] at hfault ⊢
      obtain ⟨hcheck, hfault⟩ := Progress.fault?_guarded_eq_none.mp hfault
      have hbelow : (spliceItems limit (depth + 1) items).fault? = none := by
        cases hnone : (spliceItems limit (depth + 1) items).fault? with
        | none => rfl
        | some fault => simp [hnone] at hfault
      obtain ⟨hevery, hleaves⟩ := spliceItems_leaves hidle limit items (depth + 1) hitems hbelow
      obtain ⟨hspliced, hsame⟩ := leavesIn_spliceEach view keep hidle _ hevery
      simp only [hcheck, hbelow, Progress.guarded_none, Option.isNone_none, if_true,
        Progress.value_map]
      refine ⟨⟨⟨hframe, Or.inl rfl⟩, hspliced⟩, ?_⟩
      rw [leaves, leaves]
      exact Leaf.map_filter_under _ (hsame.trans hleaves)
    · exact ⟨⟨⟨hframe, Or.inr ⟨rfl, rfl⟩⟩, trivial⟩, rfl⟩

theorem spliceItems_leaves
    (hidle : ∀ frame items, p frame → isRedundant (.group frame items) = true →
      keep (view frame) = false) (limit : Int) : ∀ (items : List Item) (depth : Int),
    EveryIn (fun frame items ↦ p frame ∧ frame.HasList items) items →
    (spliceItems limit depth items).fault? = none →
      EveryIn (fun frame items ↦ p frame ∧ frame.HasList items)
          (spliceItems limit depth items).value ∧
        (leavesIn view (spliceItems limit depth items).value).map (Leaf.filter keep) =
          (leavesIn view items).map (Leaf.filter keep)
  | [], _, _, _ => ⟨trivial, rfl⟩
  | item :: rest, depth, h, hfault => by
    obtain ⟨hfirst, hrest⟩ := Progress.fault?_cons_eq_none.mp hfault
    have first := spliceBelow_leaves hidle limit item depth h.1 hfirst
    have others := spliceItems_leaves hidle limit rest depth h.2 hrest
    rw [spliceItems, Progress.value_cons hfirst]
    exact ⟨⟨first.1, others.1⟩, by
      rw [leavesIn, List.map_append, first.2, others.2, leavesIn, List.map_append]⟩

end

end Splicing

end Item

end Motion
