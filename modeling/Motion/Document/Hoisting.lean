import Motion.Document.Pruning

/-!
Moving static gradients of paths into the resources of a document. A fill or stroke that is a linear
or radial gradient and refers to no resource is stored once under a fresh name `gradient1000`,
`gradient1001`, … and replaced by the token of that name.

The gradients are stored in the first resource that has gradients already; if there is none, a new
resource is added at the end, but only when the first gradient is to be stored.
-/

set_option autoImplicit false
set_option relaxedAutoImplicit false

namespace Motion

/-- The key of gradients in a resource, with which their names begin too. -/
def gradientKey : String := "gradient"

/-- The number of the first name for a gradient. -/
def firstGradient : Nat := 1000

def gradientName (n : Nat) : String :=
  String.ofList (gradientKey.toList ++ Nat.toDigits 10 n)

/-- Whether a value is a linear or radial gradient that refers to no resource. -/
def Data.isStaticGradient (value : Data) : Bool :=
  match value, value.get? typeKey with
  | .obj _, some (.str kind) =>
    (kind == "linear" || kind == "radial") && !value.refersToResource
  | _, _ => false

/-- The stored gradients: a fault where the document's resources cannot take any. -/
structure GradientListing where
  /-- The gradients by name, with those that were there before. -/
  gradients : Except Fault Members
  /-- The number of the next name. -/
  next : Nat
  /-- Whether a gradient has been stored. -/
  used : Bool

/-- The gradients among resources: those of the first resource that has any. -/
def gradientsAmong (resources : List Data) : Option Data :=
  resources.findSome? (Data.get? gradientKey)

/-- The listing that a document offers. -/
def GradientListing.ofDocument (members : Members) : GradientListing where
  gradients :=
    match Entries.get? members resourcesKey with
    | none => .ok []
    | some (.list resources) =>
      match gradientsAmong resources with
      | none => .ok []
      | some (.obj gradients) => .ok gradients
      | some _ => .error .wrongType
    | some resources =>
      if resources.elements?.isSome then .error .noMembers else .error .wrongType
  next := firstGradient
  used := false

/-- The first number from `n` on whose name is not taken. Among one more numbers than there are
names one is free. -/
def freeNumber (taken : Members) : Nat → Nat → Nat
  | n, 0 => n
  | n, fuel + 1 =>
    if Entries.contains taken (gradientName n) then freeNumber taken (n + 1) fuel else n

/-- Stores a gradient and gives its token. -/
def GradientListing.add (listing : GradientListing) (gradient : Data) :
    Except Fault (GradientListing × String) :=
  listing.gradients.map fun gradients =>
    let number := freeNumber gradients listing.next gradients.length
    let name := gradientName number
    (⟨.ok (Entries.put gradients name gradient), number + 1, true⟩, tokenOf name)

/-- Puts the gradients into the first resource that has any, or into a new one. -/
def storeGradients (gradients : Members) : List Data → List Data
  | [] => [.obj [(gradientKey, .obj gradients)]]
  | .obj members :: rest =>
    if Entries.contains members gradientKey then
      .obj (Entries.put members gradientKey (.obj gradients)) :: rest
    else .obj members :: storeGradients gradients rest
  | resource :: rest => resource :: storeGradients gradients rest

/-- Puts the listing into a document if a gradient has been stored. -/
def GradientListing.intoDocument (listing : GradientListing) (members : Members) : Members :=
  match listing.used, listing.gradients with
  | true, .ok gradients =>
    let resources :=
      match Entries.get? members resourcesKey with
      | some (.list resources) => resources
      | _ => []
    Entries.put members resourcesKey (.list (storeGradients gradients resources))
  | _, _ => members

/-- What hoisting works on: a part of the document and the stored gradients. -/
abbrev Hoisting (α : Type) := Progress (α × GradientListing)

/-- Hoists the gradient under a key of a path. -/
def hoistPaint (listing : GradientListing) (members : Members) (key : String) :
    Hoisting Members :=
  match Entries.get? members key with
  | none => .done (members, listing)
  | some paint =>
    if paint.isStaticGradient then
      match listing.add paint with
      | .ok (listing, token) => .done (Entries.put members key (.str token), listing)
      | .error fault => .stopped (members, listing) fault
    else .done (members, listing)

/-- Hoists the fill and the stroke of a path. -/
def hoistPaints (listing : GradientListing) (members : Members) : Hoisting Members :=
  (hoistPaint listing members "fill").andThen fun (members, listing) =>
    hoistPaint listing members "stroke"

/-- The type of objects that are drawn along a path. -/
def isPath (members : Members) : Bool :=
  match Entries.get? members typeKey with
  | some (.str kind) => kind == "path"
  | _ => false

/-- The key under which an object holds a single other one. -/
def itemKey : String := "item"

/-- The key under which hoisting goes on below an object: `item`, else `items`. -/
def childKey (members : Members) : String :=
  if Entries.contains members itemKey then itemKey else itemsKey

mutual

/-- Hoists gradients from a value on downwards. -/
def hoist (limit depth : Int) (listing : GradientListing) : Data → Hoisting Data
  | .obj members =>
    if isPath members then
      (hoistPaints listing members).map fun (members, listing) => (.obj members, listing)
    else
      (hoistBelow limit depth listing (childKey members) members).map fun (members, listing) =>
        (.obj members, listing)
  | value => .done (value, listing)

/-- Hoists gradients below the member under a key, if there is one. A list under `items` is walked
item by item; any other value is a single item. -/
def hoistBelow (limit depth : Int) (listing : GradientListing) (key : String) :
    List (String × Data) → Hoisting (List (String × Data))
  | [] => .done ([], listing)
  | (k, .list items) :: rest =>
    if k = key then
      .guarded (checkDepth limit depth) ((k, .list items) :: rest, listing)
        (if key = itemsKey then
          (hoistEach limit (depth + 1) listing items).map fun (items, listing) =>
            ((k, .list items) :: rest, listing)
        else .done ((k, .list items) :: rest, listing))
    else
      (hoistBelow limit depth listing key rest).map fun (rest, listing) =>
        ((k, .list items) :: rest, listing)
  | (k, value) :: rest =>
    if k = key then
      .guarded (checkDepth limit depth) ((k, value) :: rest, listing)
        ((hoist limit (depth + 1) listing value).map fun (value, listing) =>
          ((k, value) :: rest, listing))
    else
      (hoistBelow limit depth listing key rest).map fun (rest, listing) =>
        ((k, value) :: rest, listing)

/-- Hoists gradients from each item of a list on downwards. -/
def hoistEach (limit depth : Int) (listing : GradientListing) :
    List Data → Hoisting (List Data)
  | [] => .done ([], listing)
  | item :: rest =>
    let first := hoist limit depth listing item
    match first.fault? with
    | some fault => .stopped (first.value.1 :: rest, first.value.2) fault
    | none =>
      (hoistEach limit depth first.value.2 rest).map fun (rest, listing) =>
        (first.value.1 :: rest, listing)

end

/-- Moves the static gradients of a document into its resources. -/
def hoistGradients (limit : Int) (document : Data) : Progress Data :=
  match document with
  | .obj members =>
    (hoist limit 0 (.ofDocument members) document).map fun (document, listing) =>
      match document with
      | .obj members => .obj (listing.intoDocument members)
      | other => other
  | _ => .done document

end Motion
