import Motion.Record.Keyframe

/-!
The records of gradients and dash patterns.
-/

set_option autoImplicit false
set_option relaxedAutoImplicit false

namespace Motion

/-- Color stops: how many, and their components, four for each stop. -/
structure GradientStops where
  count : Nat
  components : Animated

/-- A part of a dash pattern: a dash, a gap or the offset, by its letter. -/
structure DashItem where
  part : String
  name : String
  length : Animated

end Motion
