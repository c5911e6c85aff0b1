import Motion.Easing.Token
import Motion.Scalar.Basic

/-!
The easing table of a conversion. Each program text is registered once, under a name `ease1`,
`ease2`, …; registering it again gives the same token. A discarded program can be registered anew
but its name is not used again.
-/

set_option autoImplicit false
set_option relaxedAutoImplicit false

namespace Motion

/-- The registered easing programs, with the count of places that lists in programs are written
to. -/
structure EasingTable where
  /-- How many places after the point numbers in lists have. -/
  precision : Nat
  /-- Program texts by name. -/
  programs : Entries String String
  /-- Tokens by program text. -/
  tokens : Entries String String
  /-- The number of the next name. -/
  next : Nat
deriving DecidableEq, Repr

namespace EasingTable

/-- The table without programs. -/
def empty (precision : Nat) : EasingTable :=
  ⟨precision, [], [], 1⟩

/-- The table without its programs. Names start anew. -/
def reset (table : EasingTable) : EasingTable :=
  empty table.precision

def size (table : EasingTable) : Nat :=
  table.programs.length

/-- The names of the registered programs in the order of registration. -/
def names (table : EasingTable) : List String :=
  Entries.keys table.programs

/-- The program under a name or token. -/
def get? (table : EasingTable) (name : String) : Option String :=
  Entries.get? table.programs (nameOf name)

def contains (table : EasingTable) (name : String) : Bool :=
  Entries.contains table.programs (nameOf name)

/-- Registers a program and gives its token. The empty program is not registered and has the empty
token. -/
def add (table : EasingTable) (program : String) : EasingTable × String :=
  if program.isEmpty then (table, "")
  else
    match Entries.get? table.tokens program with
    | some token => (table, token)
    | none =>
      let name := easeName table.next
      let token := tokenOf name
      ({ table with
          programs := Entries.put table.programs name program
          tokens := Entries.put table.tokens program token
          next := table.next + 1 }, token)

/-- Forgets the program under a name or token, if there is one. -/
def discard (table : EasingTable) (name : String) : EasingTable :=
  match table.get? name with
  | none => table
  | some program =>
    { table with
      programs := Entries.erase table.programs (nameOf name)
      tokens := Entries.erase table.tokens program }

/-- The key of easing listings among the resources of a document. -/
def easingKey : String := "easing"

/-- The resources of a document that has these programs. -/
def resources (table : EasingTable) : Data :=
  .list [.obj [(easingKey,
    .obj (table.programs.map fun entry => (entry.1, .str entry.2)))]]

end EasingTable

/-- The scalar that reads an easing at the current frame; its slope is the forward difference. -/
def Scalar.ofToken (token : String) : Scalar :=
  .expr (token ++ "(frame)") (some (.expr ("(" ++ token ++ "(frame+1)-" ++ token ++ "(frame))")))

end Motion
