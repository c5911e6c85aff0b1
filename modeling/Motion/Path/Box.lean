import Motion.Fault

/-!
Axis-aligned boxes. A box is undefined until it gets its first point, and each further point makes
it just large enough. A side keeps its number where a new one is equal by value.
-/

set_option autoImplicit false
set_option relaxedAutoImplicit false

namespace Motion

/-- A box, given by its sides once it has any. -/
inductive Box where
  | undefined
  | sides (left top right bottom : Number)
deriving DecidableEq, Repr

namespace Box

/-- The box with the given sides; a missing right or bottom side falls on the opposite one. -/
def ofSides (left top right bottom : Option Number) : Box :=
  match left, top with
  | some left, some top => sides left top (right.getD left) (bottom.getD top)
  | _, _ => undefined

/-- A box of its own with the same sides. -/
def copyOf : Box → Box
  | undefined => ofSides none none none none
  | sides left top right bottom => ofSides (some left) (some top) (some right) (some bottom)

def isDefined : Box → Bool
  | undefined => false
  | sides .. => true

/-- The box grown to hold a point. -/
def update : Box → Number → Number → Box
  | undefined, x, y => sides x y x y
  | sides left top right bottom, x, y =>
    sides (left.min x) (top.min y) (right.max x) (bottom.max y)

/-- The least box that holds two boxes. -/
def combine : Box → Box → Box
  | sides l t r b, sides l' t' r' b' => sides (l.min l') (t.min t') (r.max r') (b.max b')
  | undefined, other => other
  | box, undefined => box

def left : Box → Except Fault Number
  | undefined => .error .undefinedBox
  | sides left _ _ _ => .ok left

def top : Box → Except Fault Number
  | undefined => .error .undefinedBox
  | sides _ top _ _ => .ok top

def width : Box → Except Fault Number
  | undefined => .error .undefinedBox
  | sides left _ right _ => inRange (right.sub left)

def height : Box → Except Fault Number
  | undefined => .error .undefinedBox
  | sides _ top _ bottom => inRange (bottom.sub top)

/-- The box as a message shows it: its size and its upper left corner. -/
def shown (box : Box) : Except Fault String :=
  match box with
  | undefined => .ok "Box<undefined>"
  | sides left top _ _ => do
    let width ← box.width
    let height ← box.height
    return "Box<" ++ width.shown ++ "x" ++ height.shown ++ "+" ++ left.shown ++ "+" ++ top.shown
      ++ ">"

end Box

end Motion
