import Motion.Number.Text

/-!
What a conversion reports beside its result.
-/

set_option autoImplicit false
set_option relaxedAutoImplicit false

namespace Motion

/-- A report on a conversion. -/
inductive Notice where
  /-- A skew has no counterpart in a group and is left out. -/
  | skewIgnored (path : String)
  /-- Collapsing with merged transforms failed and is tried without. -/
  | mergingFailed
  /-- A scene tree is nested deeper than the limit. -/
  | tooDeep (limit : Int)
  /-- Collapsing failed altogether. -/
  | collapsingFailed
deriving DecidableEq, Repr

namespace Notice

/-- Whether the report is about a failure, not only about something to watch. -/
def isError : Notice → Bool
  | skewIgnored _ => false
  | mergingFailed => false
  | tooDeep _ => true
  | collapsingFailed => true

def message : Notice → String
  | skewIgnored path => "Skew transforms are not supported; ignoring " ++ path ++ ".sk"
  | mergingFailed => "Failed collapsing groups with props combining; retrying without"
  | tooDeep limit => "Scene tree exceeds the depth limit of " ++ (Number.int limit).text
  | collapsingFailed => "Failed collapsing groups without props combining"

end Notice

end Motion
