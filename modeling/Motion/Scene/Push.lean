import Motion.Scene.Item

/-!
Pushing the transform of a group into its only child. The candidates are the tagged properties of
the parent; they are pushed all together or not at all (`mayPush`). Where the parent has a pivot,
rotation or scale, its pivot is first moved by the shift of the child, so that it stays at the
same place (`compensate`). Then each candidate is merged into the child, and what became neutral is
dropped. A parent whose properties have been pushed loses them.
-/

set_option autoImplicit false
set_option relaxedAutoImplicit false

namespace Motion

/-- Whether candidates may be pushed into a group with the given tags. -/
def accepts (candidates tags : Tagged) : Bool :=
  tags.all fun entry =>
    entry.1.kind ≠ .special && candidates.all fun candidate => !candidate.1.conflicts entry.1

/-- Whether candidates may be pushed into items: there is one item, a group, none of the properties
on both sides is special, and no two conflict. -/
def mayPush (items : List Item) (candidates : Tagged) : Bool :=
  match items with
  | [.group frame _] =>
    candidates.all (fun candidate => candidate.1.kind ≠ .special)
      && accepts candidates frame.tagged
  | _ => false

/-- The pivots and the shifts that move them. -/
def pivotAxes : List (Property × Property) :=
  [(.pivotX, .translateX), (.pivotY, .translateY)]

/-- Moves one pivot of the candidates by the shift of the child. -/
def compensateAxis (child candidates : Tagged) (pivot translate : Property) : Progress Tagged :=
  let moved : Progress Tagged :=
    match Entries.get? child ⟨translate, .numeric⟩ with
    | some value =>
      .ofExcept candidates (mergeNumber candidates (⟨pivot, .numeric⟩ : Tag) value (some .sub))
    | none => .done candidates
  moved.andThen fun candidates =>
    match Entries.get? child ⟨translate, .binding⟩ with
    | some value =>
      .ofExcept candidates (mergeText candidates (⟨pivot, .binding⟩ : Tag) value (some .sub))
    | none => .done candidates

/-- Moves the pivots of the candidates by the shift of the child, if any candidate acts about
a pivot. -/
def compensate (child candidates : Tagged) : Progress Tagged :=
  if candidates.any fun candidate => candidate.1.isPivotal then
    (compensateAxis child candidates .pivotX .translateX).andThen fun candidates =>
      compensateAxis child candidates .pivotY .translateY
  else .done candidates

/-- Merges candidates into the tags of a child, one after the other. -/
def absorb (tags : Tagged) : List (Tag × Data) → Progress Tagged
  | [] => .done tags
  | (tag, value) :: rest =>
    let merged : Progress Tagged :=
      match tag.kind with
      | .numeric => .ofExcept tags (mergeNumber tags tag value none)
      | .binding => .ofExcept tags (mergeText tags tag value none)
      | .special => .done (Entries.put tags tag value)
    merged.andThen fun tags => absorb tags rest

/-- The tags of a child after a push, and the candidates as they were pushed. -/
def pushInto (tags candidates : Tagged) : Progress (Tagged × Tagged) :=
  let moved := compensate tags candidates
  match moved.fault? with
  | some fault => .stopped (tags, moved.value) fault
  | none =>
    let absorbed := absorb tags moved.value
    match absorbed.fault? with
    | some fault => .stopped (absorbed.value, moved.value) fault
    | none => .done (prune absorbed.value, moved.value)

/-- The tagged properties in the order of the tags. -/
def inTagOrder (tags : Tagged) : Tagged :=
  Tag.all.filterMap fun tag => (Entries.get? tags tag).map fun value => (tag, value)

/-- The tagged properties without those under the keys of others. -/
def without (tags dropped : Tagged) : Tagged :=
  tags.filter fun entry => !Entries.contains dropped entry.1

/-- The outcome of pushing candidates into items: the items, the candidates as they were pushed, and
whether they were. -/
structure Pushed (α : Type) where
  value : α
  candidates : Tagged
  pushed : Bool

namespace Item

mutual

/-- Pushes transforms downwards from an item at the given depth, after pushing the candidates into
it if so told. -/
def pushBelow (limit depth : Int) (push : Bool) (candidates : Tagged) :
    Item → Progress (Item × Tagged)
  | .leaf value => .done (.leaf value, candidates)
  | .group frame items =>
    let received : Progress (Tagged × Tagged) :=
      if push then pushInto frame.tagged candidates else .done (frame.tagged, candidates)
    let tags := received.value.1
    let given := received.value.2
    let here : Item := .group { frame with tags := some tags } items
    match received.fault? with
    | some fault => .stopped (here, given) fault
    | none =>
      match frame.holding with
      | .absent => .done (here, given)
      | .single =>
        .guarded ((checkDepth limit (depth + 1)).or (checkElements items)) (here, given)
          (.done (here, given))
      | .listed =>
        let down := inTagOrder tags
        let may := mayPush items down
        .guarded (checkDepth limit (depth + 1)) (here, given)
          (let below := pushEach limit (depth + 1) may down items
          let kept :=
            if may && below.fault?.isNone then without tags below.value.2 else tags
          below.map fun result => (.group { frame with tags := some kept } result.1, given))

/-- Pushes transforms downwards from each item of a list at the given depth. -/
def pushEach (limit depth : Int) (push : Bool) (candidates : Tagged) :
    List Item → Progress (List Item × Tagged)
  | [] => .done ([], candidates)
  | item :: rest =>
    let first := pushBelow limit depth push candidates item
    match first.fault? with
    | some fault => .stopped (first.value.1 :: rest, first.value.2) fault
    | none =>
      (pushEach limit depth push first.value.2 rest).map fun result =>
        (first.value.1 :: result.1, result.2)

end

/-- Pushes candidates into the items of a root, if they may be pushed, and transforms downwards
everywhere below. -/
def pushAll (limit : Int) (candidates : Tagged) (items : List Item) :
    Progress (Pushed (List Item)) :=
  let may := mayPush items candidates
  .guarded (checkDepth limit 0) ⟨items, candidates, false⟩
    ((pushEach limit 0 may candidates items).map fun result => ⟨result.1, result.2, may⟩)

end Item

end Motion
