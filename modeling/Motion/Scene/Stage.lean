import Motion.Scene.Listing
import Motion.Scene.Shown
import Motion.Scene.Splice

/-!
The stages of collapsing, each for itself. `Stage.run` is a stage among the others, on the items of
a root; `Stage.runShown` is a stage on its own, on a scene in the form in which scenes are shown.
There the items may be any value, and what a stage leaves behind in each place it works on is told.
-/

set_option autoImplicit false
set_option relaxedAutoImplicit false

namespace Motion

/-- A stage of collapsing: making lists of items, tagging, pushing, untagging, splicing. -/
inductive Stage where
  | list
  | tag
  | push
  | untag
  | splice
deriving DecidableEq, Repr

/-- What a stage leaves behind: the items, the candidates for a push, the members of the parent. -/
structure StageOutcome where
  items : Data
  candidates : Entries Key Data
  parent : Members
  /-- Whether candidates have been pushed. -/
  pushed : Bool

namespace Stage

/-- The stages in order, with or without merging. -/
def all (merge : Bool) : List Stage :=
  if merge then [list, tag, push, untag, splice] else [list, splice]

/-- A stage on the items of a root. -/
def run (limit : Int) (items : List Item) : Stage → Progress (List Item)
  | list => Item.listAll limit items
  | tag => Item.tagAll limit items
  | push => (Item.pushAll limit [] items).map Pushed.value
  | untag => Item.untagAll limit items
  | splice =>
    let below := Item.spliceAll limit items
    if below.fault?.isSome then below else below.map Item.spliceEach

/-- Makes lists of items. Items that are no list get into one, which the parent then holds. -/
def runList (limit : Int) (items : Data) (candidates : Entries Key Data) : Progress StageOutcome :=
  (Item.listAll limit (Item.itemsOf [(itemsKey, items)])).map fun listed =>
    let made := Item.toList listed
    match items with
    | .list _ => ⟨.list made, candidates, [], false⟩
    | _ =>
      let parent := if (checkDepth limit 0).isNone then [(itemsKey, .list made)] else []
      ⟨made.headD .null, candidates, parent, false⟩

/-- A stage on what a walk over the items meets. Only a list is changed by it. -/
def runElements (limit : Int) (items : Data) (elements : List Item)
    (candidates : Entries Key Data) : Stage → Progress StageOutcome
  | push =>
    (Item.pushShown limit elements candidates).map fun (made, given, pushed) =>
      ⟨left (Item.toList made), given, [], pushed⟩
  | splice =>
    let below := Item.spliceAll limit elements
    let parent :=
      if below.fault?.isSome then []
      else [(itemsKey, .list (Item.toList (Item.spliceEach below.value)))]
    below.map fun made => ⟨left (Item.toList made), candidates, parent, false⟩
  | untag => plain (Item.changeAll (fun frame _ => frame.untagShown) limit elements)
  | tag => plain (Item.tagAll limit elements)
  | list => plain (Item.listAll limit elements)
where
  left (made : List Data) : Data :=
    match items with
    | .list _ => .list made
    | _ => items
  plain (p : Progress (List Item)) : Progress StageOutcome :=
    p.map fun made => ⟨left (Item.shownEach made), candidates, [], false⟩

/-- A stage on the value that stands for the items of a parent, with candidates for a push. -/
def runShown (limit : Int) (items : Data) (candidates : Entries Key Data) (stage : Stage) :
    Progress StageOutcome :=
  let untouched : StageOutcome := ⟨items, candidates, [], false⟩
  if stage = list then runList limit items candidates
  else
    .guarded (checkDepth limit 0) untouched
      (match items.elements? with
      | none => .stopped untouched .wrongType
      | some elements => runElements limit items (Item.ofList elements) candidates stage)

end Stage

end Motion
