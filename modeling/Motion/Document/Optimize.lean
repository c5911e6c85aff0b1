import Motion.Document.Hoisting
import Motion.Document.Typed
import Motion.Record.Settings
import Motion.Scene.Collapse

/-!
Optimizing a document: cleaning it, which drops untyped items and unused easings and hoists static
gradients, and collapsing its groups. The easing table loses the programs that cleaning drops.
-/

set_option autoImplicit false
set_option relaxedAutoImplicit false

namespace Motion

/-- Drops untyped items and unused easings and hoists static gradients. -/
def clean (limit : Int) (table : EasingTable) (document : Data) : Pruning Data :=
  let typed := document.dropUntypedItems limit
  match typed.fault? with
  | some fault => .stopped (typed.value, table) fault
  | none =>
    let pruned := pruneEasings limit table typed.value
    match pruned.fault? with
    | some fault => .stopped pruned.value fault
    | none => (hoistGradients limit pruned.value.1).map fun document => (document, pruned.value.2)

/-- What an optimization leaves: the document or a fault, the easing table, and the reports on the
way. -/
structure Optimized where
  result : Except Fault Data
  table : EasingTable
  notices : List Notice

/-- Cleans a document and collapses its groups as the settings say. -/
def optimize (settings : Settings) (table : EasingTable) (document : Data) : Optimized :=
  let limit := settings.maxTreeDepth
  match document.checkTreeDepth limit with
  | .error fault => ⟨.error fault, table, []⟩
  | .ok () =>
    let cleaned := clean limit table document
    match cleaned.fault? with
    | some fault => ⟨.error fault, cleaned.value.2, []⟩
    | none =>
      if settings.collapseGroups then
        let collapsed := cleaned.value.1.collapseSafely settings.combineProps limit
        ⟨collapsed.2, cleaned.value.2, collapsed.1⟩
      else ⟨.ok cleaned.value.1, cleaned.value.2, []⟩

end Motion
