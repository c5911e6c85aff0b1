/-!
What is wrong with a record: for every faulty place its location and the kind of fault. A check of a
record gives the record or all the issues it finds.
-/

set_option autoImplicit false
set_option relaxedAutoImplicit false

namespace Motion

/-- One step on the way to a place in a record. -/
inductive Step where
  | field (name : String)
  | index (position : Nat)
deriving DecidableEq, Repr

/-- The kinds of faults of a place. -/
inductive IssueKind where
  | missing
  | extraForbidden
  | floatParsing
  | floatType
  | intParsing
  | intParsingSize
  | intFromFloat
  | intType
  | finiteNumber
  | greaterThanEqual
  | lessThanEqual
  | boolParsing
  | boolType
  | stringType
  | stringUnicode
  | listType
  | modelType
  | valueError (text : String)
deriving DecidableEq, Repr

/-- The code under which a kind of fault is reported. -/
def IssueKind.code : IssueKind → String
  | .missing => "missing"
  | .extraForbidden => "extra_forbidden"
  | .floatParsing => "float_parsing"
  | .floatType => "float_type"
  | .intParsing => "int_parsing"
  | .intParsingSize => "int_parsing_size"
  | .intFromFloat => "int_from_float"
  | .intType => "int_type"
  | .finiteNumber => "finite_number"
  | .greaterThanEqual => "greater_than_equal"
  | .lessThanEqual => "less_than_equal"
  | .boolParsing => "bool_parsing"
  | .boolType => "bool_type"
  | .stringType => "string_type"
  | .stringUnicode => "string_unicode"
  | .listType => "list_type"
  | .modelType => "model_type"
  | .valueError _ => "value_error"

/-- A faulty place of a record. -/
structure Issue where
  location : List Step
  kind : IssueKind
deriving DecidableEq, Repr

namespace Issue

/-- A fault of the value itself. -/
def here (kind : IssueKind) : Issue :=
  ⟨[], kind⟩

/-- The same fault seen from one step further out. -/
def under (step : Step) (issue : Issue) : Issue :=
  { issue with location := step :: issue.location }

end Issue

/-- A value, or the issues that stand in its way. -/
abbrev Checked (α : Type) := Except (List Issue) α

/-- A failed check of the value itself. -/
def Checked.fail {α : Type} (kind : IssueKind) : Checked α :=
  .error [.here kind]

end Motion
