import Motion.Scene.Key
import Motion.Scene.Push
import Motion.Scene.Tagging

/-!
Scenes as they are shown while they are changed: the tagged properties of a group stand in a map
among its members, under a private key. A scene may also be given in this form. The map may then
hold stray tags, and another value may stand in its place. Neither takes part in a change, but a
push that has to tell one of them is stopped there.

`ShownTags` is what stands under the key; `Item.pushShown` pushes transforms in scenes of this form
as `Item.pushAll` does in others.
-/

set_option autoImplicit false
set_option relaxedAutoImplicit false

namespace Motion

/-- The key of the map of tagged properties. -/
def tagsKey : String := "_tagged"

namespace Key

/-- The entries under tags of properties. -/
def tagged (entries : Entries Key Data) : Tagged :=
  entries.filterMap fun entry => entry.1.tag?.map fun tag => (tag, entry.2)

/-- Tagged properties as entries of a map. -/
def ofTagged (tags : Tagged) : Entries Key Data :=
  tags.map fun entry => (.tag entry.1, entry.2)

mutual

/-- Tells the keys of all tagged properties that are shown in a value. -/
def checkShown : Data → Except Fault Unit
  | .list items => checkShownEach items
  | .obj members => checkShownMembers members
  | _ => .ok ()

def checkShownEach : List Data → Except Fault Unit
  | [] => .ok ()
  | item :: rest => do
    checkShown item
    checkShownEach rest

def checkShownMembers : List (String × Data) → Except Fault Unit
  | [] => .ok ()
  | (key, value) :: rest => do
    if key = tagsKey then discard (entries ofTagText (value.members?.getD []))
    checkShown value
    checkShownMembers rest

end

end Key

/-- What is shown as the tagged properties of a group. -/
inductive ShownTags where
  | map (entries : Entries Key Data)
  /-- A value that is no map. -/
  | other (value : Data)

namespace ShownTags

/-- The tagged properties that are shown among some members. A map is read as empty where its keys
cannot be told. -/
def ofMembers (members : Members) : ShownTags :=
  match Entries.get? members tagsKey with
  | none => .map []
  | some (.obj entries) => .map ((Key.entries Key.ofTagText entries).toOption.getD [])
  | some value => .other value

def toData : ShownTags → Data
  | map entries => .obj (Key.members entries)
  | other value => value

/-- The keys that a walk over the tags meets. The items of another value are no keys. -/
def keys : ShownTags → Except Fault (List Key)
  | map entries => .ok (Entries.keys entries)
  | other value =>
    match value.elements? with
    | none => .error .wrongType
    | some [] => .ok []
    | some _ => .error .noMembers

/-- The properties that may be pushed further down, in the order of the tags. A list can be asked
for tags and has none; other values cannot be asked. -/
def toPush : ShownTags → Except Fault Tagged
  | map entries => .ok (inTagOrder (Key.tagged entries))
  | other (.list _) => .ok []
  | other _ => .error .wrongType

/-- The tags without those under the given keys. -/
def without (dropped : Entries Key Data) : ShownTags → ShownTags
  | map entries => .map (entries.filter fun entry => !Entries.contains dropped entry.1)
  | other value => .other value

/-- The candidates for a push into a child, with their pivots moved by its shift. Where a tag is
stray there is nothing to move: a child with entries accepts no stray candidate, and one with stray
entries none that acts about a pivot. -/
def moved (child candidates : Entries Key Data) : Progress (Entries Key Data) :=
  if candidates.all fun entry => entry.1.tag?.isSome then
    (compensate (Key.tagged child) (Key.tagged candidates)).map Key.ofTagged
  else .done candidates

/-- Pushes candidates into the tags of a child that accepts them: the tags, and the candidates as
they were pushed. Into a value that is no map nothing can be pushed; a text cannot even be asked for
a shift. -/
def receive (tags : ShownTags) (candidates : Entries Key Data) :
    Progress (ShownTags × Entries Key Data) :=
  match (Entries.keys candidates).anyM Key.isPivotal with
  | .error fault => .stopped (tags, candidates) fault
  | .ok pivotal =>
    match tags with
    | .map child =>
      let given := moved child candidates
      match given.fault? with
      | some fault => .stopped (tags, given.value) fault
      | none => (absorbAt child given.value).map fun entries => (.map entries, given.value)
    | .other value =>
      if pivotal && !(value matches .list _) then .stopped (tags, candidates) .wrongType
      else if candidates.isEmpty then .done (tags, candidates)
      else .stopped (tags, candidates) .noMembers

end ShownTags

namespace Frame

/-- The members of a group with its tagged properties among them. -/
def shown (frame : Frame) (items : List Data) : Members :=
  let members := frame.before ++ Item.itemsMember frame.holding items ++ frame.after
  match frame.tags with
  | some tags => Entries.put members tagsKey (ShownTags.map (Key.ofTagged tags)).toData
  | none => members

/-- The tagged properties that are shown among the members. -/
def shownTags (frame : Frame) : ShownTags :=
  .ofMembers frame.members

/-- The frame with other tagged properties shown among its members. -/
def showing (frame : Frame) (tags : ShownTags) : Frame :=
  frame.put tagsKey tags.toData

/-- Puts the tagged properties that are shown back among the members (`Frame.untag`). A list in
their place holds none; other values stop the walk. -/
def untagShown (frame : Frame) : Progress Frame :=
  let bare := frame.filter fun member => !decide (member.1 = tagsKey)
  match frame.shownTags with
  | .map entries => { bare with tags := some (Key.tagged entries) }.untag
  | .other (.list _) => .done bare
  | .other _ => .stopped bare .wrongType

end Frame

namespace Item

mutual

/-- An item with its tagged properties among its members. -/
def shown : Item → Data
  | .leaf value => value
  | .group frame items => .obj (frame.shown (shownEach items))

def shownEach : List Item → List Data
  | [] => []
  | item :: rest => item.shown :: shownEach rest

end

/-- Whether candidates may be pushed into items: there is one item, a group, none of the properties
on both sides is special, and no two conflict. The keys are told one after the other. -/
def mayPushShown (items : List Item) (candidates : List Key) : Except Fault Bool := do
  if 1 < items.length then return false
  if ← candidates.anyM fun candidate => return (← candidate.kind) = .special then return false
  match items with
  | [.group frame _] => Key.accepts candidates (← frame.shownTags.keys)
  | _ => return false

mutual

/-- Pushes transforms downwards from an item at the given depth, after pushing the candidates into
it if so told. -/
def pushShownBelow (limit depth : Int) (push : Bool) (candidates : Entries Key Data) :
    Item → Progress (Item × Entries Key Data)
  | .leaf value => .done (.leaf value, candidates)
  | .group frame items =>
    let received : Progress (ShownTags × Entries Key Data) :=
      if push then frame.shownTags.receive candidates else .done (frame.shownTags, candidates)
    let tags := received.value.1
    let given := received.value.2
    let here : Item := .group (frame.showing tags) items
    match received.fault?, frame.holding, tags.toPush with
    | some fault, _, _ => .stopped (here, given) fault
    | none, .absent, _ => .done (here, given)
    | none, _, .error fault => .stopped (here, given) fault
    | none, .single, .ok _ =>
      .guarded ((checkDepth limit (depth + 1)).or (checkElements items)) (here, given)
        (.done (here, given))
    | none, .listed, .ok down =>
      .guarded (checkDepth limit (depth + 1)) (here, given)
        (match mayPushShown items (Entries.keys (Key.ofTagged down)) with
        | .error fault => .stopped (here, given) fault
        | .ok may =>
          let below := pushShownEach limit (depth + 1) may (Key.ofTagged down) items
          let kept := if may && below.fault?.isNone then tags.without below.value.2 else tags
          below.map fun result => (.group (frame.showing kept) result.1, given))

/-- Pushes transforms downwards from each item of a list at the given depth. -/
def pushShownEach (limit depth : Int) (push : Bool) (candidates : Entries Key Data) :
    List Item → Progress (List Item × Entries Key Data)
  | [] => .done ([], candidates)
  | item :: rest =>
    let first := pushShownBelow limit depth push candidates item
    match first.fault? with
    | some fault => .stopped (first.value.1 :: rest, first.value.2) fault
    | none =>
      (pushShownEach limit depth push first.value.2 rest).map fun result =>
        (first.value.1 :: result.1, result.2)

end

/-- Pushes candidates into the items of a root, if they may be pushed, and transforms downwards
everywhere below: the items, the candidates as they were pushed, and whether they were. -/
def pushShown (limit : Int) (items : List Item) (candidates : Entries Key Data) :
    Progress (List Item × Entries Key Data × Bool) :=
  .guarded (checkDepth limit 0) (items, candidates, false)
    (match mayPushShown items (Entries.keys candidates) with
    | .error fault => .stopped (items, candidates, false) fault
    | .ok may =>
      (pushShownEach limit 0 may candidates items).map fun result => (result.1, result.2, may))

end Item

end Motion
