import Motion.Easing.Table
import Motion.Scene.Merge
import Motion.Scene.Progress
import Motion.Scene.Depth

/-!
Dropping easing programs that a document does not use. A program is used if its token occurs in a
text below the document's items, private members apart. The easing listings of the document and the
table lose the same names.
-/

set_option autoImplicit false
set_option relaxedAutoImplicit false

namespace Motion

/-- The key of a document's resources. -/
def resourcesKey : String := "resources"

namespace Data

mutual

/-- The easing tokens in the texts within a value, private members apart. -/
def easingTokens : Data → List String
  | .str s => tokensIn s.toList
  | .list items => tokensInList items
  | .obj members => tokensInMembers members
  | _ => []

def tokensInList : List Data → List String
  | [] => []
  | item :: rest => item.easingTokens ++ tokensInList rest

def tokensInMembers : List (String × Data) → List String
  | [] => []
  | (key, value) :: rest =>
    if isPrivate key then tokensInMembers rest
    else value.easingTokens ++ tokensInMembers rest

end

mutual

/-- Whether a value that is at the given depth has items, private members apart, at a depth beyond
the limit. -/
def itemsExceed (limit depth : Int) : Data → Bool
  | .list items => itemsExceedInList limit depth items
  | .obj members => itemsExceedInMembers limit depth members
  | _ => false

def itemsExceedInList (limit depth : Int) : List Data → Bool
  | [] => false
  | item :: rest => item.itemsExceed limit depth || itemsExceedInList limit depth rest

def itemsExceedInMembers (limit depth : Int) : List (String × Data) → Bool
  | [] => false
  | (key, value) :: rest =>
    (if isPrivate key then false
      else if key = itemsKey then
        limit < depth + 1 || value.itemsExceed limit (depth + 1)
      else value.itemsExceed limit depth)
      || itemsExceedInMembers limit depth rest

end

/-- The easing tokens that a value uses, each once. -/
def usedEasings (limit : Int) (value : Data) : Except Fault (List String) :=
  if value.itemsExceed limit 0 then .error (.tooDeep limit) else .ok value.easingTokens.eraseDups

end Data

/-- What pruning works on: a part of the document and the easing table. -/
abbrev Pruning (α : Type) := Progress (α × EasingTable)

/-- Drops the unused names of an easing listing, and discards them from the table. -/
def pruneListing (used : List String) (table : EasingTable) : Members → Members × EasingTable
  | [] => ([], table)
  | (name, program) :: rest =>
    if used.contains (tokenOf name) then
      let pruned := pruneListing used table rest
      ((name, program) :: pruned.1, pruned.2)
    else pruneListing used (table.discard name) rest

/-- Whether all parts of a value that is no object are names in use. Nothing could be dropped from
such a value. -/
def allUsed (used : List String) (listing : Data) : Bool :=
  match listing.elements? with
  | some elements =>
    elements.all fun
      | .str name => used.contains (tokenOf name)
      | _ => false
  | none => false

/-- Prunes the easing listing of a resource. -/
def pruneResource (used : List String) (table : EasingTable) (resource : Data) : Pruning Data :=
  match resource, resource.get? EasingTable.easingKey with
  | .obj members, some (.obj listing) =>
    let pruned := pruneListing used table listing
    .done (.obj (Entries.put members EasingTable.easingKey (.obj pruned.1)), pruned.2)
  | _, some listing =>
    if !listing.isTruthy || allUsed used listing then .done (resource, table)
    else .stopped (resource, table) .wrongType
  | _, none => .done (resource, table)

/-- Prunes the easing listings of resources. -/
def pruneResources (used : List String) (table : EasingTable) : List Data → Pruning (List Data)
  | [] => .done ([], table)
  | resource :: rest =>
    let pruned := pruneResource used table resource
    match pruned.fault? with
    | some fault => .stopped (pruned.value.1 :: rest, pruned.value.2) fault
    | none =>
      (pruneResources used pruned.value.2 rest).map fun more =>
        (pruned.value.1 :: more.1, more.2)

/-- Drops the unused easings of a document from its resources and from the table. -/
def pruneEasings (limit : Int) (table : EasingTable) (document : Data) : Pruning Data :=
  match document with
  | .obj members =>
    match ((Entries.get? members itemsKey).getD .null).usedEasings limit with
    | .error fault => .stopped (document, table) fault
    | .ok used =>
      match (Entries.get? members resourcesKey).getD .null with
      | .list resources =>
        (pruneResources used table resources).map fun pruned =>
          (.obj (Entries.put members resourcesKey (.list pruned.1)), pruned.2)
      | resources =>
        if resources.isTruthy && resources.elements?.isNone then
          .stopped (document, table) .wrongType
        else .done (document, table)
  | _ => .stopped (document, table) .noMembers

end Motion
