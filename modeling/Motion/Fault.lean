import Motion.Record.Issue
import Motion.Number.Text

/-!
Why a conversion fails. A `Fault` keeps the cause and the place; the wording of a cause is in
`Fault.message`. Faults of scalar arithmetic are the only ones that are attributed to the property
they happen in (`attributed`), so they have a type of their own.
-/

set_option autoImplicit false
set_option relaxedAutoImplicit false

namespace Motion

/-- Why scalar arithmetic fails. The texts are the offending values as messages show them. -/
inductive ArithmeticFault where
  | notFormattable (shown : String)
  | notScalar (shown : String)
  | notLiteral (shown : String)
  | badOperand (shown : String)
  | badNumber (shown : String)
  | notConvertible (shown : String)
  | divisionByZero (dividend : String)
deriving DecidableEq, Repr

/-- Why keyframes do not compile. -/
inductive EasingFault where
  | noKeyframes
  | noStart
  | missingTangents
  | missingOutHandle
  | missingHandles
  | noCurve
  | tooFewComponents (stops : Int) (components : Nat)
deriving DecidableEq, Repr

/-- Why the keyframes of a shape do not fit together. -/
inductive ShapeFault where
  | noFirstCurve
  | unequalCounts
deriving DecidableEq, Repr

/-- Why a conversion fails. -/
inductive Fault where
  /-- Scalar arithmetic outside any property. -/
  | arithmetic (cause : ArithmeticFault)
  /-- Scalar arithmetic within the property at a path. -/
  | property (path : String) (cause : ArithmeticFault)
  /-- The derivative of an expression is asked for and not known. -/
  | noDerivative (expression : String)
  | easing (cause : EasingFault) (path : String) (keyframe : Option Nat)
  | shape (cause : ShapeFault)
  | undefinedBox
  /-- A record does not validate. -/
  | invalid (issues : List Issue)
  /-- A scene tree has more levels than allowed. -/
  | tooDeep (limit : Int)
  /-- A scene tree cannot be collapsed at all. -/
  | notCollapsible
  /-- A member that is needed is not there. -/
  | noMember
  /-- A list is too short. -/
  | noItem
  /-- A value of one kind stands where another kind is needed. -/
  | wrongType
  /-- A value has no members where some are looked up or changed. -/
  | noMembers
  /-- A value of the right kind cannot be used. -/
  | badValue
  /-- A number is beyond the range of a format. -/
  | outOfRange
deriving DecidableEq, Repr

namespace ArithmeticFault

def message : ArithmeticFault → String
  | notFormattable shown => "Cannot format " ++ shown ++ " as a number"
  | notScalar shown => "Cannot construct Value from " ++ shown
  | notLiteral shown => shown ++ " is not a number"
  | badOperand shown => "Invalid argument " ++ shown
  | badNumber shown => "Invalid number " ++ shown
  | notConvertible shown => "Cannot convert " ++ shown ++ " to values"
  | divisionByZero dividend => "Unable to divide " ++ dividend ++ " by zero"

end ArithmeticFault

namespace EasingFault

def text : EasingFault → String
  | noKeyframes => "No keyframes to compile"
  | noStart => "First keyframe has no start value"
  | missingTangents => "Spatial keyframe is missing tangents"
  | missingOutHandle => "Keyframe has an in handle but no out handle"
  | missingHandles => "Shape keyframe is missing easing handles"
  | noCurve => "Shape keyframe has neither a start nor a previous end"
  | tooFewComponents stops components =>
    "Gradient declares " ++ (Number.int stops).text ++ " stops but has "
      ++ (Number.int components).text ++ " components"

/-- A text with the place it speaks of: a path, or a stand-in for an empty one, and the number of
the keyframe if it is one of several. -/
def located (text path : String) (keyframe : Option String) : String :=
  let place := if path.isEmpty then "<property>" else path
  match keyframe with
  | none => text ++ " at " ++ place
  | some number => text ++ " at " ++ place ++ " keyframe " ++ number

end EasingFault

namespace ShapeFault

def message : ShapeFault → String
  | noFirstCurve => "animated shape needs a first keyframe with a start curve"
  | unequalCounts => "all keyframes of a shape must have the same vertex count"

end ShapeFault

namespace Fault

/-- The text for a fault within the property at a path. -/
def propertyMessage (path cause : String) : String :=
  "Failed to compile property '" ++ path ++ "': " ++ cause

/-- The text for a tree that is deeper than a limit. -/
def depthMessage (limit : String) : String :=
  "Scene tree is nested deeper than " ++ limit ++ " levels"

/-- The wording of a fault. The faults that are about the shape of values only have none. -/
def message? : Fault → Option String
  | arithmetic cause => some cause.message
  | property path cause => some (propertyMessage path cause.message)
  | noDerivative expression => some ("Derivative of " ++ expression ++ " is unavailable")
  | easing cause path keyframe =>
    some (EasingFault.located cause.text path (keyframe.map fun n => (Number.int n).text))
  | shape cause => some cause.message
  | undefinedBox => some "Unable to read from undefined box"
  | tooDeep limit => some (depthMessage (Number.int limit).text)
  | notCollapsible => some "Unable to collapse groups"
  | invalid _ | noMember | noItem | wrongType | noMembers | badValue | outOfRange => none

/-- Attributes a fault of scalar arithmetic to the property at a path. -/
def within (path : String) : Fault → Fault
  | arithmetic cause => property path cause
  | fault => fault

end Fault

/-- Runs a compilation with its faults of scalar arithmetic attributed to the property at a path. -/
def attributed {α : Type} (path : String) : Except Fault α → Except Fault α
  | .ok a => .ok a
  | .error fault => .error (fault.within path)

/-- Passes if a value can be used. -/
def usable (holds : Bool) : Except Fault Unit :=
  if holds then .ok () else .error .badValue

/-- A number that may be beyond the binary64 range, as a result. -/
def inRange {α : Type} : Option α → Except Fault α
  | some a => .ok a
  | none => .error .outOfRange

end Motion
