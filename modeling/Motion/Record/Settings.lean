/-!
The settings of a conversion.
-/

set_option autoImplicit false
set_option relaxedAutoImplicit false

namespace Motion

/-- How deep a scene tree may be nested at most. Trees are walked recursively, so that the walks have to
find room on the stack. -/
def greatestDepth : Int := 400

/-- The settings of a conversion. -/
structure Settings where
  /-- How deep a scene tree may be nested. -/
  maxTreeDepth : Int
  /-- Whether groups are collapsed. -/
  collapseGroups : Bool
  /-- Whether collapsing tries to merge transforms first. -/
  combineProps : Bool
  /-- How many places after the point numbers in lists of easing programs have. -/
  listPrecision : Int
  logLevel : String
  depth_bounds : 1 ≤ maxTreeDepth ∧ maxTreeDepth ≤ greatestDepth
  precision_nonneg : 0 ≤ listPrecision
deriving DecidableEq, Repr

theorem Settings.maxTreeDepth_nonneg (settings : Settings) : 0 ≤ settings.maxTreeDepth :=
  Int.le_trans (by decide) settings.depth_bounds.1

/-- The settings where nothing else is given. -/
def Settings.default : Settings where
  maxTreeDepth := 256
  collapseGroups := true
  combineProps := true
  listPrecision := 3
  logLevel := "INFO"
  depth_bounds := by decide
  precision_nonneg := by decide

end Motion
