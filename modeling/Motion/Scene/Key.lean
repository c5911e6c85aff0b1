import Motion.Scene.Merge
import Motion.Scene.Progress

/-!
Maps whose keys come from outside. A key is a plain name, or a name and a kind joined by an
underscore: the tag of a property, or a stray tag whose name is no property. Of a stray tag no
family can be told, so that a step which has to know it meets a fault.
-/

set_option autoImplicit false
set_option relaxedAutoImplicit false

namespace Motion

/-- A key of a map as a text names it. -/
inductive Key where
  | plain (name : String)
  | tag (tag : Tag)
  /-- A tag of a name that is no property. -/
  | stray (name : String) (kind : Kind)
deriving DecidableEq, Repr

instance : HasFamily Key where
  family?
    | .plain name => family? name
    | .tag tag => family? tag
    | .stray _ _ => none

namespace Key

/-- The tag of a name and a kind. -/
def ofParts (name : String) (kind : Kind) : Key :=
  match Property.ofName? name with
  | some property => tag ⟨property, kind⟩
  | none => stray name kind

/-- The tag that a text names: a name and a kind, around the first underscore. -/
def ofTagText (s : String) : Except Fault Key :=
  let name := s.toList.takeWhile (· ≠ '_')
  match Kind.ofName? (String.ofList (s.toList.drop (name.length + 1))) with
  | some kind => .ok (ofParts (String.ofList name) kind)
  | none => .error .badValue

/-- The key that a text names: the tag if it has an underscore and does not begin with it, else the
text itself. -/
def ofText (s : String) : Except Fault Key :=
  if s.toList.contains '_' && s.toList.head? != some '_' then ofTagText s else .ok (plain s)

def text : Key → String
  | plain name => name
  | tag known => known.text
  | stray name kind => name ++ "_" ++ kind.name

/-- Members whose keys have been told by the given reading. -/
def entries (read : String → Except Fault Key) (members : Members) :
    Except Fault (Entries Key Data) :=
  members.mapM fun member => do return (← read member.1, member.2)

/-- Entries as members. -/
def members (entries : Entries Key Data) : Members :=
  entries.map fun entry => (entry.1.text, entry.2)

def isStray : Key → Bool
  | stray _ _ => true
  | _ => false

/-- The tag of a property. -/
def tag? : Key → Option Tag
  | tag known => some known
  | _ => none

/-- What a key that is no tag of a property meets where it should be one. -/
def untaggedFault (key : Key) : Fault :=
  if key.isStray then .noMember else .noMembers

/-- The tag of a property that a key has to be. -/
def toTag (key : Key) : Except Fault Tag :=
  match key.tag? with
  | some known => .ok known
  | none => .error key.untaggedFault

/-- The kind of the tag that a key has to be. -/
def kind : Key → Except Fault Kind
  | plain _ => .error .noMembers
  | tag known => .ok known.kind
  | stray _ kind => .ok kind

/-- The operator by which the values under a key merge. -/
def operator (key : Key) : Except Fault Operator :=
  if key.isStray then .error .noMember else .ok (mergeOperator key)

/-- Whether pushing a property conflicts with another one. The other one has to be told only if the
first one can conflict at all. -/
def conflicts (candidate existing : Key) : Except Fault Bool := do
  let pushed ← candidate.toTag
  if pushed.isPivotal || decide (pushed.family = .clipPath) then
    return pushed.conflicts (← existing.toTag)
  else return false

/-- Whether a property acts about the pivot. -/
def isPivotal (key : Key) : Except Fault Bool :=
  key.toTag.map Tag.isPivotal

/-- Whether candidates may be pushed into a group with the given keys, which are told one after the
other. -/
def accepts (candidates : List Key) : List Key → Except Fault Bool
  | [] => .ok true
  | existing :: rest => do
    if (← existing.kind) = .special then return false
    if ← candidates.anyM (conflicts · existing) then return false
    accepts candidates rest

end Key

/-- Merges a number under a key (`mergeNumber`). Without an operator the key has to tell it, as soon
as there is something to merge. -/
def mergeNumberAt (entries : Entries Key Data) (key : Key) (value : Data) (op : Option Operator) :
    Except Fault (Entries Key Data) :=
  let present := (present? entries key).elim true Data.isNumeric
  if key.isStray && op.isNone && value.isNumeric && present then .error .noMember
  else mergeNumber entries key value op

/-- Merges a text under a key (`mergeText`). Without an operator the key has to tell it. -/
def mergeTextAt (entries : Entries Key Data) (key : Key) (value : Data) (op : Option Operator) :
    Except Fault (Entries Key Data) :=
  if key.isStray && op.isNone then .error .noMember else mergeText entries key value op

/-- Drops what does not show (`prune`). The walk ends at a stray tag. -/
def pruneAt (entries : Entries Key Data) : Progress (Entries Key Data) :=
  if entries.any fun entry => entry.1.isStray then
    let before := entries.takeWhile fun entry => !entry.1.isStray
    .stopped ((before.filter fun entry => !isNeutral entry.1 entry.2)
      ++ entries.drop before.length) .noMember
  else .done (prune entries)

/-- Merges a value under a key, by the kind of the key. -/
def mergeAt (entries : Entries Key Data) (key : Key) (value : Data) :
    Except Fault (Entries Key Data) := do
  match ← key.kind with
  | .numeric => mergeNumberAt entries key value none
  | .binding => mergeTextAt entries key value none
  | .special => return Entries.put entries key value

/-- Merges candidates into entries, one after the other, and drops what does not show. -/
def absorbAt (entries : Entries Key Data) : List (Key × Data) → Progress (Entries Key Data)
  | [] => pruneAt entries
  | (key, value) :: rest =>
    (Progress.ofExcept entries (mergeAt entries key value)).andThen fun entries =>
      absorbAt entries rest

/-- The entries without null values and private keys. A tag is no text and cannot be private; one
that is met with a value ends the walk. -/
def stripPrivateAt : Entries Key Data → Progress (Entries Key Data)
  | [] => .done []
  | (key, value) :: rest =>
    if value.isNull then stripPrivateAt rest
    else
      match key with
      | .plain name =>
        (stripPrivateAt rest).map fun kept => if isPrivate name then kept else (key, value) :: kept
      | _ => .stopped ((key, value) :: rest) .noMembers

end Motion
