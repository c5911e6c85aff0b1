import Motion.Fault

/-!
How computations that may fail end. A computation in two steps goes through if both do; which faults
it may meet is told from the steps (`FaultsOnly`).
-/

set_option autoImplicit false
set_option relaxedAutoImplicit false

namespace Motion

theorem Except.bind_eq_ok {ε α β : Type} {x : Except ε α} {f : α → Except ε β} {b : β}
    (h : x >>= f = .ok b) : ∃ a, x = .ok a ∧ f a = .ok b := by
  cases x with
  | error e => cases h
  | ok a => exact ⟨a, rfl, h⟩

theorem Except.ok_bind {ε α β : Type} (a : α) (f : α → Except ε β) : Except.ok a >>= f = f a :=
  rfl

/-- A computation whose result passes a test goes through. -/
theorem Except.exists_of_any {ε α : Type} {x : Except ε α} {test : α → Bool}
    (h : x.toOption.any test = true) : ∃ a, x = .ok a ∧ test a = true := by
  cases x with
  | error e => cases h
  | ok a => exact ⟨a, rfl, h⟩

/-- Whether a computation fails with no other faults than those that satisfy a condition. -/
def FaultsOnly {α : Type} (q : Fault → Prop) (result : Except Fault α) : Prop :=
  ∀ fault, result = .error fault → q fault

variable {α β : Type} {q : Fault → Prop}

theorem faultsOnly_ok (value : α) : FaultsOnly q (.ok value) := by
  intro fault h
  cases h

theorem faultsOnly_bind {x : Except Fault α} {f : α → Except Fault β} (hx : FaultsOnly q x)
    (hf : ∀ value, x = .ok value → FaultsOnly q (f value)) : FaultsOnly q (x >>= f) := by
  cases x with
  | error fault =>
    intro other hother
    cases hother
    exact hx fault rfl
  | ok value => exact hf value rfl

theorem faultsOnly_map {x : Except Fault α} (f : α → β) (h : FaultsOnly q x) :
    FaultsOnly q (x.map f) := by
  intro fault hfault
  cases x with
  | error other =>
    cases hfault
    exact h _ rfl
  | ok value => cases hfault

theorem faultsOnly_mapM {f : α → Except Fault β} (hf : ∀ a, FaultsOnly q (f a)) (items : List α) :
    FaultsOnly q (items.mapM f) := by
  induction items with
  | nil => exact faultsOnly_ok _
  | cons item rest ih =>
    rw [List.mapM_cons]
    exact faultsOnly_bind (hf item) fun _ _ ↦ faultsOnly_bind ih fun _ _ ↦ faultsOnly_ok _

end Motion
