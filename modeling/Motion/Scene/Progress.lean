import Motion.Fault

/-!
Walks that change a tree as they go. Where a walk meets a fault it stops, and what it has changed by
then stays changed; so its outcome is a tree together with the fault, if there was one.
-/

set_option autoImplicit false
set_option relaxedAutoImplicit false

namespace Motion

/-- How far a walk got, and the fault that stopped it. -/
structure Progress (α : Type) where
  value : α
  fault? : Option Fault

namespace Progress

variable {α β : Type}

/-- A walk that went through. -/
def done (value : α) : Progress α :=
  ⟨value, none⟩

/-- A walk that was stopped. -/
def stopped (value : α) (fault : Fault) : Progress α :=
  ⟨value, some fault⟩

/-- A step that leaves the value as it was where it meets a fault. -/
def ofExcept (unchanged : α) : Except Fault α → Progress α
  | .ok value => ⟨value, none⟩
  | .error fault => ⟨unchanged, some fault⟩

def map (f : α → β) (p : Progress α) : Progress β :=
  ⟨f p.value, p.fault?⟩

/-- The rest of a walk, unless it has been stopped. -/
def andThen (p : Progress α) (next : α → Progress α) : Progress α :=
  match p.fault? with
  | some _ => p
  | none => next p.value

/-- The walk over a list whose first item and whose rest have been walked; if the first walk was
stopped the rest stays as it was. -/
@[macro_inline]
def cons (first : Progress α) (unchanged : List α) (rest : Progress (List α)) :
    Progress (List α) :=
  match first.fault? with
  | some fault => ⟨first.value :: unchanged, some fault⟩
  | none => ⟨first.value :: rest.value, rest.fault?⟩

/-- Passes a check before a walk; if it fails the value stays as it was. -/
@[macro_inline]
def guarded (check : Option Fault) (unchanged : α) (walk : Progress α) : Progress α :=
  match check with
  | some fault => ⟨unchanged, some fault⟩
  | none => walk

/-- The outcome as a result: the value of a walk that went through. -/
def toExcept (p : Progress α) : Except Fault α :=
  match p.fault? with
  | some fault => .error fault
  | none => .ok p.value

end Progress

end Motion
