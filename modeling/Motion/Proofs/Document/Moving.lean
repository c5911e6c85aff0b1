import Motion.Proofs.Document.Idempotence
import Motion.Proofs.Document.Storing

/-!
Where hoisting takes gradients from and where it puts them. A walk moves static gradients, each from
a place that it comes to, and leaves none at such a place (`Relocates`); undoing the moves gives back
what was walked. The listing takes the gradients in the order of the moves under names that are new to
it (`Takes`).
-/

set_option autoImplicit false
set_option relaxedAutoImplicit false

namespace Motion

namespace Data

section Places

/-- A step from a value to a part of it. -/
inductive Step where
  | member (key : String)
  | item (n : ℕ)
deriving DecidableEq

/-- The steps from a value down to a part of it. -/
abbrev Place := List Step

/-- Puts a value in a place, if there is such a place. -/
def write (new : Data) : Place → Data → Data
  | [], _ => new
  | .member key :: rest, .obj members =>
    match Entries.get? members key with
    | some value => .obj (Entries.put members key (write new rest value))
    | none => .obj members
  | .item n :: rest, .list items => .list (items.modify n (write new rest))
  | _, value => value

theorem write_member {members : Members} {key : String} {value : Data}
    (hget : Entries.get? members key = some value) (new : Data) (rest : Place) :
    write new (.member key :: rest) (.obj members) =
      .obj (Entries.put members key (write new rest value)) := by
  rw [write, hget]

/-- Whether a place that hoisting comes to below a value, the fill or the stroke of a path, holds a
paint. -/
inductive Paints : Data → Place → Data → Prop
  | paint {members : Members} {key : String} {paint : Data} (hpath : isPath members = true)
      (hkey : key = "fill" ∨ key = "stroke") (hget : Entries.get? members key = some paint) :
      Paints (.obj members) [.member key] paint
  | single {members : Members} {value paint : Data} {place : Place} (hpath : isPath members = false)
      (hget : Entries.get? members (childKey members) = some value)
      (below : Paints value place paint) :
      Paints (.obj members) (.member (childKey members) :: place) paint
  | listed {members : Members} {items : List Data} {n : ℕ} {item paint : Data} {place : Place}
      (hpath : isPath members = false) (hkey : childKey members = itemsKey)
      (hget : Entries.get? members itemsKey = some (.list items)) (hitem : items[n]? = some item)
      (below : Paints item place paint) :
      Paints (.obj members) (.member itemsKey :: .item n :: place) paint

/-- A gradient that is moved from a place and stored under a name. -/
structure Move where
  place : Place
  name : String
  gradient : Data

/-- The move as seen from further up. -/
def Move.below (steps : Place) (move : Move) : Move :=
  { move with place := steps ++ move.place }

/-- The entry of the listing in which the gradient is stored. -/
def Move.entry (move : Move) : String × Data :=
  (move.name, move.gradient)

/-- Puts the gradient of a move back in its place. -/
def Move.undo (move : Move) (value : Data) : Data :=
  write move.gradient move.place value

def undoAll (moves : List Move) (value : Data) : Data :=
  moves.foldr Move.undo value

theorem undoAll_append (first second : List Move) (value : Data) :
    undoAll (first ++ second) value = undoAll first (undoAll second value) :=
  List.foldr_append

theorem undoAll_member {members : Members} {key : String} {value : Data}
    (hget : Entries.get? members key = some value) (moves : List Move) :
    undoAll (moves.map (Move.below [.member key])) (.obj members) =
      .obj (Entries.put members key (undoAll moves value)) := by
  induction moves with
  | nil => exact congrArg Data.obj (Entries.put_of_get? hget).symm
  | cons move rest ih =>
    have hunder : undoAll ((move :: rest).map (Move.below [.member key])) (.obj members) =
        write move.gradient (.member key :: move.place)
          (undoAll (rest.map (Move.below [.member key])) (.obj members)) := rfl
    rw [hunder, ih, write_member (Entries.get?_put_self _ _ _), Entries.put_put]
    rfl

/-- The moves from the items of a list, each with the number of its item, as moves from the list. -/
def belowItems (moves : List (ℕ × Move)) : List Move :=
  moves.map fun move ↦ move.2.below [.item move.1]

/-- Puts gradients back in the items from which they were moved. -/
def undoEach (moves : List (ℕ × Move)) (items : List Data) : List Data :=
  moves.foldr (fun move items ↦ items.modify move.1 move.2.undo) items

theorem undoAll_belowItems (moves : List (ℕ × Move)) (items : List Data) :
    undoAll (belowItems moves) (.list items) = .list (undoEach moves items) := by
  induction moves with
  | nil => rfl
  | cons move rest ih =>
    have hunder : undoAll (belowItems (move :: rest)) (.list items) =
        write move.2.gradient (.item move.1 :: move.2.place)
          (undoAll (belowItems rest) (.list items)) := rfl
    rw [hunder, ih]
    rfl

theorem undoEach_append (first second : List (ℕ × Move)) (items : List Data) :
    undoEach (first ++ second) items = undoEach first (undoEach second items) :=
  List.foldr_append

theorem undoEach_zero (moves : List Move) (item : Data) (rest : List Data) :
    undoEach (moves.map fun move ↦ (0, move)) (item :: rest) = undoAll moves item :: rest := by
  induction moves with
  | nil => rfl
  | cons move others ih =>
    rw [List.map_cons, undoEach, List.foldr_cons, ← undoEach, ih]
    rfl

theorem undoEach_succ (moves : List (ℕ × Move)) (item : Data) (rest : List Data) :
    undoEach (moves.map fun move ↦ (move.1 + 1, move.2)) (item :: rest) =
      item :: undoEach moves rest := by
  induction moves with
  | nil => rfl
  | cons move others ih =>
    rw [List.map_cons, undoEach, List.foldr_cons, ← undoEach, ih]
    rfl

end Places

section Relocating

variable {moves : List Move} {value hoisted : Data} {members : Members}

/-- Whether a value comes from another one by moves of static gradients, all that hoisting comes to.
Each gradient stood in a place of the one value where the other one has its token. -/
structure Relocates (moves : List Move) (value hoisted : Data) : Prop where
  before : ∀ move ∈ moves, value.Paints move.place move.gradient ∧
    move.gradient.isStaticGradient = true
  after : ∀ move ∈ moves, hoisted.Paints move.place (.str (tokenOf move.name))
  undone : undoAll moves hoisted = value
  settled : ∀ place paint, hoisted.Paints place paint → paint.isStaticGradient = false

theorem relocates_nothing
    (h : ∀ place paint, value.Paints place paint → paint.isStaticGradient = false) :
    Relocates [] value value :=
  ⟨List.forall_mem_nil _, List.forall_mem_nil _, rfl, h⟩

/-- Below a member that holds a single value. -/
theorem Relocates.single (h : Relocates moves value hoisted) (hpath : isPath members = false)
    (hget : Entries.get? members (childKey members) = some value)
    (hlist : ∀ items, hoisted ≠ .list items) :
    Relocates (moves.map (Move.below [.member (childKey members)])) (.obj members)
      (.obj (Entries.put members (childKey members) hoisted)) := by
  have hput := Entries.get?_put_self members (childKey members) hoisted
  refine ⟨List.forall_mem_map.mpr fun move hmove ↦ ?_, List.forall_mem_map.mpr fun move hmove ↦ ?_,
    ?_, fun place paint hpaints ↦ ?_⟩
  · exact ⟨.single hpath hget (h.before move hmove).1, (h.before move hmove).2⟩
  · have hpaints := h.after move hmove
    have hbelow := @Paints.single (Entries.put members (childKey members) hoisted) hoisted
    rw [isPath_put, childKey_put] at hbelow
    exact hbelow hpath hput hpaints
  · rw [undoAll_member hput, h.undone, Entries.put_put, Entries.put_of_get? hget]
  · cases hpaints with
    | paint hothers =>
      rw [isPath_put, hpath] at hothers
      cases hothers
    | single _ hfound below =>
      rw [childKey_put, hput] at hfound
      cases hfound
      exact h.settled _ _ below
    | @listed _ items _ _ _ _ _ hkey hfound =>
      rw [childKey_put] at hkey
      rw [← hkey, hput] at hfound
      exact absurd (Option.some.inj hfound) (hlist items)

/-- Whether the items of a list come from others by moves. -/
structure RelocatesEach (moves : List (ℕ × Move)) (items hoisted : List Data) : Prop where
  before : ∀ move ∈ moves, ∃ item, items[move.1]? = some item ∧
    item.Paints move.2.place move.2.gradient ∧ move.2.gradient.isStaticGradient = true
  after : ∀ move ∈ moves, ∃ item, hoisted[move.1]? = some item ∧
    item.Paints move.2.place (.str (tokenOf move.2.name))
  undone : undoEach moves hoisted = items
  settled : ∀ item ∈ hoisted, ∀ place paint, item.Paints place paint →
    paint.isStaticGradient = false

theorem RelocatesEach.cons {others : List (ℕ × Move)} {rest kept : List Data}
    (first : Relocates moves value hoisted) (h : RelocatesEach others rest kept) :
    RelocatesEach ((moves.map fun move ↦ (0, move)) ++ others.map fun move ↦ (move.1 + 1, move.2))
      (value :: rest) (hoisted :: kept) := by
  refine ⟨?_, ?_, ?_, List.forall_mem_cons.mpr ⟨first.settled, h.settled⟩⟩
  · refine List.forall_mem_append.mpr ⟨List.forall_mem_map.mpr fun move hmove ↦ ?_,
      List.forall_mem_map.mpr fun move hmove ↦ ?_⟩
    · exact ⟨value, rfl, first.before move hmove⟩
    · exact h.before move hmove
  · refine List.forall_mem_append.mpr ⟨List.forall_mem_map.mpr fun move hmove ↦ ?_,
      List.forall_mem_map.mpr fun move hmove ↦ ?_⟩
    · exact ⟨hoisted, rfl, first.after move hmove⟩
    · exact h.after move hmove
  · rw [undoEach_append, undoEach_succ, h.undone, undoEach_zero, first.undone]

/-- Below a list of items. -/
theorem RelocatesEach.listed {moves : List (ℕ × Move)} {items kept : List Data}
    (h : RelocatesEach moves items kept) (hpath : isPath members = false)
    (hkey : childKey members = itemsKey)
    (hget : Entries.get? members itemsKey = some (.list items)) :
    Relocates ((belowItems moves).map (Move.below [.member itemsKey])) (.obj members)
      (.obj (Entries.put members itemsKey (.list kept))) := by
  have hput := Entries.get?_put_self members itemsKey (.list kept)
  have hothers : isPath (Entries.put members itemsKey (.list kept)) = false := by
    rw [← hkey, isPath_put, hpath]
  have hchild : childKey (Entries.put members itemsKey (.list kept)) = itemsKey := by
    rw [← hkey, childKey_put]
  refine ⟨?_, ?_, ?_, fun place paint hpaints ↦ ?_⟩
  · refine List.forall_mem_map.mpr (List.forall_mem_map.mpr fun move hmove ↦ ?_)
    obtain ⟨item, hitem, hpaints, hstatic⟩ := h.before move hmove
    exact ⟨.listed hpath hkey hget hitem hpaints, hstatic⟩
  · refine List.forall_mem_map.mpr (List.forall_mem_map.mpr fun move hmove ↦ ?_)
    obtain ⟨item, hitem, hpaints⟩ := h.after move hmove
    exact .listed hothers hchild hput hitem hpaints
  · rw [undoAll_member hput, undoAll_belowItems, h.undone, Entries.put_put,
      Entries.put_of_get? hget]
  · cases hpaints with
    | paint htrue =>
      rw [hothers] at htrue
      cases htrue
    | single _ hfound below =>
      rw [hchild, hput] at hfound
      cases hfound
      cases below
    | listed _ _ hfound hitem below =>
      rw [hput] at hfound
      cases hfound
      exact h.settled _ (List.mem_of_getElem? hitem) _ _ below

end Relocating

end Data

section Taking

variable {listing after : GradientListing} {entries : List (String × Data)} {gradients : Members}

/-- How a listing takes gradients, one after the other, and under which names. -/
inductive Takes : GradientListing → List (String × Data) → GradientListing → Prop
  | none (listing : GradientListing) : Takes listing [] listing
  | add {listing added after : GradientListing} {name : String} {gradient : Data}
      {entries : List (String × Data)} (h : listing.add gradient = .ok (added, tokenOf name))
      (rest : Takes added entries after) : Takes listing ((name, gradient) :: entries) after

theorem Takes.append {between : GradientListing} {others : List (String × Data)}
    (h : Takes listing entries between) (rest : Takes between others after) :
    Takes listing (entries ++ others) after := by
  induction h with
  | none => exact rest
  | add hadd _ ih => exact .add hadd (ih rest)

/-- A gradient is added under a name that is not taken. -/
theorem add_eq_ok {added : GradientListing} {name : String} {gradient : Data}
    (h : listing.add gradient = .ok (added, tokenOf name)) :
    ∃ gradients, listing.gradients = .ok gradients ∧ Entries.contains gradients name = false ∧
      (∃ n ≥ listing.next, name = gradientName n ∧ added.next = n + 1) ∧
      added.gradients = .ok (gradients ++ [(name, gradient)]) ∧ added.used = true := by
  cases hgradients : listing.gradients with
  | error fault =>
    rw [GradientListing.add, hgradients] at h
    cases h
  | ok gradients =>
    rw [GradientListing.add, hgradients] at h
    obtain ⟨rfl, htoken⟩ := Prod.mk.inj (Except.ok.inj h)
    have hname : gradientName (freeNumber gradients listing.next gradients.length) = name :=
      tokenOf_injective htoken
    have hfree := contains_freeNumber gradients listing.next
    rw [hname] at hfree
    refine ⟨gradients, rfl, hfree, ⟨_, le_freeNumber _ _ _, hname.symm, rfl⟩, ?_, rfl⟩
    dsimp only
    rw [hname, Entries.put_of_contains_eq_false hfree]

/-- Whether gradients come behind those that are listed under names of their own, numbered from a
number on. -/
structure Extends (gradients : Members) (next : ℕ) (entries : List (String × Data)) : Prop where
  fresh : ∀ entry ∈ entries, Entries.contains gradients entry.1 = false
  distinct : (entries.map Prod.fst).Nodup
  numbered : ∀ entry ∈ entries, ∃ n ≥ next, entry.1 = gradientName n

/-- A listing that has taken gradients holds them behind its own; another one is as it was. -/
theorem Takes.cases (h : Takes listing entries after) :
    (entries = [] ∧ after = listing) ∨
      ∃ gradients, entries ≠ [] ∧ listing.gradients = .ok gradients ∧
        after.gradients = .ok (gradients ++ entries) ∧ after.used = true ∧
          Extends gradients listing.next entries := by
  induction h with
  | none => exact Or.inl ⟨rfl, rfl⟩
  | @add listing added after name gradient entries hadd _ ih =>
    obtain ⟨gradients, hgradients, hfresh, ⟨n, hn, hname, hnext⟩, hadded, hused⟩ := add_eq_ok hadd
    refine Or.inr ⟨gradients, List.cons_ne_nil _ _, hgradients, ?_⟩
    rcases ih with ⟨rfl, rfl⟩ | ⟨listed, -, hlisted, hafter, hlater, hextends⟩
    · exact ⟨hadded, hused, List.forall_mem_singleton.mpr hfresh, List.nodup_singleton name,
        List.forall_mem_singleton.mpr ⟨n, hn, hname⟩⟩
    · rw [hadded] at hlisted
      cases hlisted
      refine ⟨by rw [hafter, List.append_assoc]; rfl, hlater, ?_, ?_, ?_⟩
      · refine List.forall_mem_cons.mpr ⟨hfresh, fun entry hentry ↦ ?_⟩
        have hnot := hextends.fresh entry hentry
        rw [Entries.contains, List.any_append, Bool.or_eq_false_iff] at hnot
        exact hnot.1
      · refine List.nodup_cons.mpr ⟨fun hmem ↦ ?_, hextends.distinct⟩
        obtain ⟨entry, hentry, heq⟩ := List.mem_map.mp hmem
        have hnot := hextends.fresh entry hentry
        rw [heq, Entries.contains, List.any_append, Bool.or_eq_false_iff] at hnot
        simp at hnot
      · refine List.forall_mem_cons.mpr ⟨⟨n, hn, hname⟩, fun entry hentry ↦ ?_⟩
        obtain ⟨m, hm, hentry⟩ := hextends.numbered entry hentry
        exact ⟨m, by omega, hentry⟩

end Taking

namespace Data

section Walking

variable {limit depth : ℤ} {listing : GradientListing} {members : Members} {value : Data}

/-- Whether a value and a listing come from others by moves into the listing. -/
def MovesInto (listing : GradientListing) (value : Data) (walked : Data × GradientListing) : Prop :=
  ∃ moves, Relocates moves value walked.1 ∧ Takes listing (moves.map Move.entry) walked.2

theorem movesInto_nothing
    (h : ∀ place paint, value.Paints place paint → paint.isStaticGradient = false) :
    MovesInto listing value (value, listing) :=
  ⟨[], relocates_nothing h, .none listing⟩

theorem paints_obj (hpath : isPath members = true) {place : Place} {paint : Data}
    (h : (Data.obj members).Paints place paint) :
    ∃ key, (key = "fill" ∨ key = "stroke") ∧ place = [.member key] ∧
      Entries.get? members key = some paint := by
  cases h with
  | paint _ hkey hget => exact ⟨_, hkey, rfl, hget⟩
  | single hnot =>
    rw [hpath] at hnot
    cases hnot
  | listed hnot =>
    rw [hpath] at hnot
    cases hnot

/-- The paint under a key is moved if it is a static gradient. -/
theorem hoistPaint_moves {key : String} (h : (hoistPaint listing members key).fault? = none) :
    ∃ moves, Takes listing (moves.map Move.entry) (hoistPaint listing members key).value.2 ∧
      undoAll moves (.obj (hoistPaint listing members key).value.1) = .obj members ∧
      ∀ move ∈ moves, move.place = [.member key] ∧
        Entries.get? members key = some move.gradient ∧ move.gradient.isStaticGradient = true ∧
        Entries.get? (hoistPaint listing members key).value.1 key =
          some (.str (tokenOf move.name)) := by
  unfold hoistPaint at h ⊢
  cases hget : Entries.get? members key with
  | none => exact ⟨[], .none listing, rfl, List.forall_mem_nil _⟩
  | some paint =>
    rw [hget] at h
    dsimp only at h ⊢
    cases hstatic : paint.isStaticGradient with
    | false =>
      rw [if_neg Bool.false_ne_true]
      exact ⟨[], .none listing, rfl, List.forall_mem_nil _⟩
    | true =>
      rw [hstatic, if_pos rfl] at h
      rw [if_pos rfl]
      rcases add_cases listing paint with ⟨fault, -, hadd⟩ | ⟨gradients, next, n, hadd⟩
      · rw [hadd] at h
        cases h
      · rw [hadd]
        have hput := Entries.get?_put_self members key (.str (tokenOf (gradientName n)))
        refine ⟨[⟨[.member key], gradientName n, paint⟩], .add hadd (.none _), ?_, ?_⟩
        · have hwrite := write_member hput paint []
          rw [Entries.put_put, write, Entries.put_of_get? hget] at hwrite
          exact hwrite
        · exact List.forall_mem_singleton.mpr ⟨rfl, rfl, hstatic, hput⟩

/-- The gradients of a path are moved. -/
theorem hoistPaints_moves (hpath : isPath members = true)
    (h : (hoistPaints listing members).fault? = none) :
    MovesInto listing (.obj members) ((.obj (hoistPaints listing members).value.1),
      (hoistPaints listing members).value.2) := by
  have hpainted := isPath_hoistPaints hpath h
  have hsettled := (@isHoisted_hoistPaints 0 0 _ _ hpath h).paints hpainted
  obtain ⟨hfill, hthen⟩ := hoistPaints_eq h
  rw [hthen] at h hpainted hsettled ⊢
  obtain ⟨filled, htakes, hundone, hmoved⟩ := hoistPaint_moves hfill
  obtain ⟨stroked, htakes', hundone', hmoved'⟩ := hoistPaint_moves h
  refine ⟨filled ++ stroked, ⟨?_, ?_, ?_, fun place paint hpaints ↦ ?_⟩, ?_⟩
  · refine List.forall_mem_append.mpr ⟨fun move hmove ↦ ?_, fun move hmove ↦ ?_⟩
    · obtain ⟨hplace, hget, hstatic, -⟩ := hmoved move hmove
      rw [hplace]
      exact ⟨.paint hpath (Or.inl rfl) hget, hstatic⟩
    · obtain ⟨hplace, hget, hstatic, -⟩ := hmoved' move hmove
      rw [get?_hoistPaint listing members (by decide)] at hget
      rw [hplace]
      exact ⟨.paint hpath (Or.inr rfl) hget, hstatic⟩
  · refine List.forall_mem_append.mpr ⟨fun move hmove ↦ ?_, fun move hmove ↦ ?_⟩
    · obtain ⟨hplace, -, -, hget⟩ := hmoved move hmove
      rw [hplace]
      refine .paint hpainted (Or.inl rfl) ?_
      rw [get?_hoistPaint _ _ (by decide)]
      exact hget
    · obtain ⟨hplace, -, -, hget⟩ := hmoved' move hmove
      rw [hplace]
      exact .paint hpainted (Or.inr rfl) hget
  · rw [undoAll_append, hundone', hundone]
  · obtain ⟨key, hkey, -, hget⟩ := paints_obj hpainted hpaints
    exact hsettled key hkey paint hget
  · rw [List.map_append]
    exact htakes.append htakes'

theorem hoistEach_moves {items : List Data} (ih : ∀ item ∈ items, ∀ listing,
    (hoist limit depth listing item).fault? = none →
      MovesInto listing item (hoist limit depth listing item).value)
    (h : (hoistEach limit depth listing items).fault? = none) :
    ∃ moves, RelocatesEach moves items (hoistEach limit depth listing items).value.1 ∧
      Takes listing (moves.map fun move ↦ move.2.entry)
        (hoistEach limit depth listing items).value.2 := by
  induction items generalizing listing with
  | nil =>
    exact ⟨[], ⟨List.forall_mem_nil _, List.forall_mem_nil _, rfl, List.forall_mem_nil _⟩,
      .none listing⟩
  | cons item rest ihrest =>
    obtain ⟨hitem, hothers⟩ := List.forall_mem_cons.mp ih
    rw [hoistEach] at h ⊢
    cases hfirst : (hoist limit depth listing item).fault? with
    | some fault => simp [hfirst, Progress.stopped] at h
    | none =>
      simp only [hfirst, Progress.fault?_map, Progress.value_map] at h ⊢
      obtain ⟨moves, hmoves, htakes⟩ := hitem listing hfirst
      obtain ⟨others, heach, htakes'⟩ := ihrest hothers h
      refine ⟨_, heach.cons hmoves, ?_⟩
      rw [List.map_append, List.map_map, List.map_map]
      exact htakes.append htakes'

theorem hoist_ne_list (limit depth : ℤ) (listing : GradientListing) {value : Data}
    (h : ∀ items, value ≠ .list items) (items : List Data) :
    (hoist limit depth listing value).value.1 ≠ .list items := by
  intro heq
  cases value with
  | obj members =>
    rw [hoist] at heq
    split_ifs at heq <;> cases heq
  | list others => exact h others rfl
  | _ => cases heq

/-- The gradients below the member of a group that is followed are moved. -/
theorem hoistMember_moves (hpath : isPath members = false)
    (hget : Entries.get? members (childKey members) = some value)
    (ih : ∀ item ∈ value.held, ∀ listing, (hoist limit depth listing item).fault? = none →
      MovesInto listing item (hoist limit depth listing item).value)
    (h : (hoistMember limit depth listing (childKey members) value).fault? = none) :
    MovesInto listing (.obj members)
      (.obj (Entries.put members (childKey members)
        (hoistMember limit depth listing (childKey members) value).value.1),
      (hoistMember limit depth listing (childKey members) value).value.2) := by
  -- anything but a list is walked as a single value
  have hsingle (hlist : ∀ items, value ≠ .list items) (hself : value ∈ value.held)
      (hmember : hoistMember limit depth listing (childKey members) value =
        hoist limit depth listing value) :
      MovesInto listing (.obj members)
        (.obj (Entries.put members (childKey members)
          (hoistMember limit depth listing (childKey members) value).value.1),
        (hoistMember limit depth listing (childKey members) value).value.2) := by
    rw [hmember] at h ⊢
    obtain ⟨moves, hmoves, htakes⟩ := ih value hself listing h
    refine ⟨_, hmoves.single hpath hget (hoist_ne_list limit depth listing hlist), ?_⟩
    rw [List.map_map]
    exact htakes
  cases value with
  | list items =>
    rw [hoistMember] at h ⊢
    split_ifs at h ⊢ with hkey
    · rw [Progress.fault?_map] at h
      obtain ⟨moves, hmoves, htakes⟩ := hoistEach_moves ih h
      rw [hkey] at hget ⊢
      refine ⟨_, hmoves.listed hpath hkey hget, ?_⟩
      rw [belowItems, List.map_map, List.map_map]
      exact htakes
    · rw [Progress.value_done, Entries.put_of_get? hget]
      refine movesInto_nothing fun place paint hpaints ↦ ?_
      cases hpaints with
      | paint hnot =>
        rw [hpath] at hnot
        cases hnot
      | single _ hfound below =>
        rw [hget] at hfound
        cases hfound
        cases below
      | listed _ hitems => exact absurd hitems hkey
  | _ => exact hsingle (fun _ heq ↦ by cases heq) (List.mem_singleton.mpr rfl) rfl

/-- What hoisting does as it goes through a value is to move static gradients into the listing. -/
theorem hoist_moves (value : Data) : ∀ (depth : ℤ) (listing : GradientListing),
    (hoist limit depth listing value).fault? = none →
      MovesInto listing value (hoist limit depth listing value).value := by
  induction value using parts_induction with
  | step value ih =>
    intro depth listing h
    cases value with
    | obj members =>
      rw [hoist_obj] at h ⊢
      cases hpath : isPath members with
      | true =>
        rw [hpath, if_pos rfl, Progress.fault?_map] at h
        rw [if_pos rfl]
        exact hoistPaints_moves hpath h
      | false =>
        rw [hpath, if_neg Bool.false_ne_true] at h
        rw [if_neg Bool.false_ne_true]
        cases hget : Entries.get? members (childKey members) with
        | none =>
          refine movesInto_nothing fun place paint hpaints ↦ ?_
          cases hpaints with
          | paint hnot => exact absurd (hnot.symm.trans hpath) (by decide)
          | single _ hfound =>
            rw [hget] at hfound
            cases hfound
          | listed _ hkey hfound =>
            rw [hkey, hfound] at hget
            cases hget
        | some value =>
          rw [hget] at h
          obtain ⟨hdepth, hbelow⟩ := Progress.fault?_guarded_eq_none.mp h
          rw [Progress.fault?_map] at hbelow
          dsimp only
          rw [hdepth, Progress.guarded_none, Progress.value_map]
          exact hoistMember_moves hpath hget
            (fun item hitem ↦ ih item (mem_parts hget hitem) (depth + 1)) hbelow
    | _ => exact movesInto_nothing fun _ _ hpaints ↦ by cases hpaints

end Walking

end Data

end Motion
