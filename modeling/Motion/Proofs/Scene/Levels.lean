import Motion.Proofs.Data.Entries
import Motion.Scene.Depth
import Mathlib.Data.List.Chain
import Mathlib.Tactic.Ring

/-!
The levels of a scene tree. A tree goes deeper than the limit exactly if there is a descent with one
step more than the limit allows (`Data.exceeds_iff`), where each step goes from an object to an
object that is among its items, or stands in their place, and has items itself.
-/

set_option autoImplicit false
set_option relaxedAutoImplicit false

namespace Motion

namespace Data

/-- The values among the items of an object: the elements of a list of items, or an object that
stands in its place. -/
def children : Data → List Data
  | .obj members =>
    match Entries.get? members itemsKey with
    | some (.list items) => items
    | some (.obj inner) => [.obj inner]
    | _ => []
  | _ => []

/-- Whether a value is an object that has items. -/
def opensLevel : Data → Bool
  | .obj members => hasItems members
  | _ => false

/-- One step of a descent: to an object that is among the items and has items itself. -/
def IsStepDown (parent child : Data) : Prop :=
  child ∈ parent.children ∧ child.opensLevel = true

/-- Whether a descent of a number of steps starts at a value. -/
def HasDescent (steps : ℕ) (tree : Data) : Prop :=
  ∃ nodes : List Data, nodes.length = steps ∧ (tree :: nodes).IsChain IsStepDown

theorem hasDescent_zero (tree : Data) : tree.HasDescent 0 :=
  ⟨[], rfl, List.IsChain.singleton tree⟩

theorem hasDescent_succ {steps : ℕ} {tree : Data} :
    tree.HasDescent (steps + 1) ↔ ∃ child, tree.IsStepDown child ∧ child.HasDescent steps := by
  constructor
  · rintro ⟨nodes, hlength, hchain⟩
    cases nodes with
    | nil => cases hlength
    | cons child rest =>
      rw [List.isChain_cons_cons] at hchain
      exact ⟨child, hchain.1, rest, Nat.succ_inj.mp hlength, hchain.2⟩
  · rintro ⟨child, hstep, nodes, hlength, hchain⟩
    exact ⟨child :: nodes, by simp [hlength], List.isChain_cons_cons.mpr ⟨hstep, hchain⟩⟩

/-- Whether an object opens a level beyond the limit, itself or somewhere below. -/
def goesBeyond (limit depth : ℤ) (child : Data) : Bool :=
  child.opensLevel && (decide (limit < depth + 1) || child.exceeds limit (depth + 1))

theorem exceedsList_eq (limit depth : ℤ) (items : List Data) :
    exceedsList limit depth items = items.any (goesBeyond limit depth) := by
  induction items with
  | nil => rw [exceedsList, List.any_nil]
  | cons value rest ih =>
    cases value <;> simp [exceedsList, goesBeyond, opensLevel, exceeds, ih]

theorem exceeds_eq (limit depth : ℤ) (tree : Data) :
    tree.exceeds limit depth = tree.children.any (goesBeyond limit depth) := by
  cases tree with
  | obj members =>
    rw [exceeds, children]
    induction members with
    | nil => rw [exceedsItems, Entries.get?_nil, List.any_nil]
    | cons member rest ih =>
      obtain ⟨key, value⟩ := member
      by_cases h : key = itemsKey
      · cases value <;>
          simp [exceedsItems, Entries.get?_cons, h, exceedsList_eq, goesBeyond, opensLevel, exceeds]
      · cases value <;> simp [exceedsItems, Entries.get?_cons, h, ih]
  | _ => rfl

/-- A value goes deeper than the limit exactly if a descent does. -/
theorem exceeds_iff (limit : ℤ) (steps : ℕ) (depth : ℤ) (h : depth + steps = limit) (tree : Data) :
    tree.exceeds limit depth = true ↔ tree.HasDescent (steps + 1) := by
  induction steps generalizing depth tree with
  | zero =>
    have hlast : limit < depth + 1 := by simp at h; omega
    simp [exceeds_eq, goesBeyond, hlast, hasDescent_succ, hasDescent_zero, IsStepDown]
  | succ steps ih =>
    have hwithin : ¬ limit < depth + 1 := by push_cast at h; omega
    have hnext : depth + 1 + steps = limit := by push_cast at h; omega
    rw [exceeds_eq, hasDescent_succ]
    simp [goesBeyond, hwithin, ih (depth + 1) hnext, IsStepDown, and_assoc]

end Data

end Motion
