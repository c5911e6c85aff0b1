/-!
Entries: pairs of a key and a value in the order in which the keys came. A key that is put again
keeps its place. All operations keep the keys distinct.
-/

set_option autoImplicit false
set_option relaxedAutoImplicit false

namespace Motion

/-- Pairs of a key and a value in order. -/
abbrev Entries (κ ν : Type) := List (κ × ν)

namespace Entries

variable {κ ν : Type} [DecidableEq κ]

/-- The value under a key. -/
def get? (entries : Entries κ ν) (key : κ) : Option ν :=
  (entries.find? fun entry => entry.1 = key).map (·.2)

def contains (entries : Entries κ ν) (key : κ) : Bool :=
  entries.any fun entry => entry.1 = key

/-- Puts a value under a key: in the place of the key if there is one, else at the end. -/
def put : Entries κ ν → κ → ν → Entries κ ν
  | [], key, value => [(key, value)]
  | entry :: rest, key, value =>
    if entry.1 = key then (key, value) :: rest else entry :: put rest key value

def erase (entries : Entries κ ν) (key : κ) : Entries κ ν :=
  entries.filter fun entry => !decide (entry.1 = key)

/-- Puts the entries of a list in turn. -/
def putAll (entries : Entries κ ν) (news : List (κ × ν)) : Entries κ ν :=
  news.foldl (fun acc entry => put acc entry.1 entry.2) entries

/-- Adds the entries of a list in turn whose keys are not there yet. -/
def addAll (entries : Entries κ ν) (news : List (κ × ν)) : Entries κ ν :=
  news.foldl (fun acc entry => if contains acc entry.1 then acc else acc ++ [entry]) entries

def keys (entries : Entries κ ν) : List κ :=
  entries.map (·.1)

end Entries

end Motion
