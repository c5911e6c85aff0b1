import Motion.Data.Entries

/-!
The transform properties of a group, their families, and the tags under which a group keeps them
while its scene is being collapsed. A tag adds to the property how its value can be merged: as a
number, as a data binding, or not at all.
-/

set_option autoImplicit false
set_option relaxedAutoImplicit false

namespace Motion

/-- What a transform property acts on. -/
inductive Family where
  | translate
  | pivot
  | rotation
  | scale
  | opacity
  | clipPath
deriving DecidableEq, Repr

namespace Family

def name : Family → String
  | translate => "translate"
  | pivot => "pivot"
  | rotation => "rotation"
  | scale => "scale"
  | opacity => "opacity"
  | clipPath => "clipPath"

/-- The value that changes nothing. A clip path has none. -/
def neutral? : Family → Option Int
  | translate => some 0
  | pivot => some 0
  | rotation => some 0
  | scale => some 1
  | opacity => some 1
  | clipPath => none

/-- Scale and opacity merge by multiplication, the other families by addition. -/
def isMultiplicative : Family → Bool
  | scale => true
  | opacity => true
  | _ => false

/-- Rotation and scale take place about the pivot. -/
def isPivotal : Family → Bool
  | pivot => true
  | rotation => true
  | scale => true
  | _ => false

end Family

/-- A transform property of a group. -/
inductive Property where
  | translateX
  | translateY
  | pivotX
  | pivotY
  | rotation
  | scaleX
  | scaleY
  | opacity
  | clipPath
deriving DecidableEq, Repr

namespace Property

/-- All properties, in the order in which a group lists them. -/
def all : List Property :=
  [translateX, translateY, pivotX, pivotY, rotation, scaleX, scaleY, opacity, clipPath]

def name : Property → String
  | translateX => "translateX"
  | translateY => "translateY"
  | pivotX => "pivotX"
  | pivotY => "pivotY"
  | rotation => "rotation"
  | scaleX => "scaleX"
  | scaleY => "scaleY"
  | opacity => "opacity"
  | clipPath => "clipPath"

def ofName? (s : String) : Option Property :=
  all.find? fun property => property.name = s

def family : Property → Family
  | translateX => .translate
  | translateY => .translate
  | pivotX => .pivot
  | pivotY => .pivot
  | rotation => .rotation
  | scaleX => .scale
  | scaleY => .scale
  | opacity => .opacity
  | clipPath => .clipPath

end Property

/-- How the value of a property can be merged with others. -/
inductive Kind where
  | numeric
  | binding
  | special
deriving DecidableEq, Repr

namespace Kind

/-- All kinds, in the order in which they are collected. -/
def all : List Kind :=
  [numeric, binding, special]

def name : Kind → String
  | numeric => "numeric"
  | binding => "data_binding"
  | special => "special"

def ofName? (s : String) : Option Kind :=
  all.find? fun kind => kind.name = s

end Kind

/-- A property together with the kind of its value. -/
structure Tag where
  property : Property
  kind : Kind
deriving DecidableEq, Repr

namespace Tag

def family (tag : Tag) : Family :=
  tag.property.family

def isPivotal (tag : Tag) : Bool :=
  tag.family.isPivotal

/-- All tags, by property and then by kind. -/
def all : List Tag :=
  Property.all.flatMap fun property => Kind.all.map fun kind => ⟨property, kind⟩

def text (tag : Tag) : String :=
  tag.property.name ++ "_" ++ tag.kind.name

def ofText? (s : String) : Option Tag :=
  all.find? fun tag => tag.text = s

/-- Whether pushing a property from a group into its child changes the rendering when the child
holds another one: pivots, rotations and scales do not commute with one another, and a clip path is
given in the coordinates that a shift changes. -/
def conflicts (candidate existing : Tag) : Bool :=
  (candidate.isPivotal && existing.isPivotal)
    || (decide (candidate.family = .clipPath) && decide (existing.family = .translate))

end Tag

/-- Keys that may name a transform property. -/
class HasFamily (κ : Type) where
  /-- The family of the property that a key names, if it names one. -/
  family? : κ → Option Family

export HasFamily (family?)

instance : HasFamily String where
  family? key := (Property.ofName? key).map Property.family

instance : HasFamily Tag where
  family? tag := some tag.family

instance {κ₁ κ₂ : Type} [HasFamily κ₁] [HasFamily κ₂] : HasFamily (κ₁ ⊕ κ₂) where
  family? key := key.elim family? family?

end Motion
