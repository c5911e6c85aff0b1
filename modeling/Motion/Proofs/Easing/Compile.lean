import Motion.Easing.Compile
import Motion.Proofs.Outcome
import Mathlib.Data.List.Basic
import Mathlib.Data.Int.Notation

/-!
How compilations end. A compilation runs on a table and ends with a value or a fault; what is known
about either on every table (`Compile.Ends`) is put together from the parts, and so is what a
compilation keeps of its table (`Compile.Keeps`). A component compiles to its course, which is
registered then.
-/

set_option autoImplicit false
set_option relaxedAutoImplicit false

namespace Motion

namespace Compile

variable {α β : Type}

/-- On every table a compilation ends with a value or a fault that satisfies the condition for
it. -/
def Ends (q : Fault → Prop) (p : α → Prop) (x : Compile α) : Prop :=
  ∀ table, match (x.run.run table).1 with
    | .ok value => p value
    | .error fault => q fault

variable {x : Compile α} {f : α → Compile β} {table next : EasingTable}

theorem run_bind_ok {a : α} (h : x.run.run table = (.ok a, next)) :
    (x >>= f).run.run table = (f a).run.run next := by
  rw [ExceptT.run_bind, StateT.run_bind, h]
  rfl

theorem run_bind_error {fault : Fault} (h : x.run.run table = (.error fault, next)) :
    (x >>= f).run.run table = (.error fault, next) := by
  rw [ExceptT.run_bind, StateT.run_bind, h]
  rfl

theorem run_eq_ok {a : α} (h : (x.run.run table).1.toOption = some a)
    (hnext : (x.run.run table).2 = next) : x.run.run table = (.ok a, next) := by
  rcases hrun : x.run.run table with ⟨result, other⟩
  rw [hrun] at h hnext
  cases result with
  | ok value =>
    cases h
    cases hnext
    rfl
  | error fault => cases h

theorem run_lift (result : Except Fault α) (table : EasingTable) :
    (lift result).run.run table = (result, table) := by
  cases result <;> rfl

section Ends

variable {q : Fault → Prop} {p : α → Prop} {r : β → Prop}

theorem ends_pure {a : α} (h : p a) : Ends q p (pure a) :=
  fun _ ↦ h

theorem ends_throw {fault : Fault} (h : q fault) : Ends q p (throw fault) :=
  fun _ ↦ h

theorem ends_lift {result : Except Fault α} (hfault : FaultsOnly q result)
    (hvalue : ∀ a, result = .ok a → p a) : Ends q p (lift result) := by
  intro table
  rw [run_lift]
  cases result with
  | ok a => exact hvalue a rfl
  | error fault => exact hfault fault rfl

theorem Ends.bind (hx : Ends q p x) (hf : ∀ a, p a → Ends q r (f a)) : Ends q r (x >>= f) := by
  intro table
  have hrun := hx table
  rcases hresult : x.run.run table with ⟨result, next⟩
  cases result with
  | ok a =>
    rw [hresult] at hrun
    rw [run_bind_ok hresult]
    exact hf a hrun next
  | error fault =>
    rw [hresult] at hrun
    rw [run_bind_error hresult]
    exact hrun

theorem Ends.imp {p' : α → Prop} (hx : Ends q p x) (h : ∀ a, p a → p' a) : Ends q p' x := by
  intro table
  have hrun := hx table
  cases hresult : (x.run.run table).1 with
  | ok a =>
    rw [hresult] at hrun
    exact h a hrun
  | error fault =>
    rw [hresult] at hrun
    exact hrun

theorem Ends.mono {q' : Fault → Prop} (hx : Ends q p x) (h : ∀ fault, q fault → q' fault) :
    Ends q' p x := by
  intro table
  have hrun := hx table
  cases hresult : (x.run.run table).1 with
  | ok a =>
    rw [hresult] at hrun
    exact hrun
  | error fault =>
    rw [hresult] at hrun
    exact h fault hrun

/-- Each item of a list is compiled as one of them is. -/
theorem ends_mapM {l : List β} {g : β → Compile α} (h : ∀ b ∈ l, Ends q p (g b)) :
    Ends q (fun results ↦ results.length = l.length ∧ ∀ a ∈ results, p a) (l.mapM g) := by
  induction l with
  | nil => exact ends_pure ⟨rfl, List.forall_mem_nil _⟩
  | cons b l ih =>
    obtain ⟨hb, hl⟩ := List.forall_mem_cons.mp h
    rw [List.mapM_cons]
    refine hb.bind fun a ha ↦ (ih hl).bind fun results hresults ↦ ends_pure ?_
    exact ⟨congrArg (· + 1) hresults.1, List.forall_mem_cons.mpr ⟨ha, hresults.2⟩⟩

end Ends

/-- On every table that satisfies the invariant, a compilation that goes through leads to one that
satisfies it too, and its value satisfies the condition. -/
def Keeps (I : EasingTable → Prop) (p : α → Prop) (x : Compile α) : Prop :=
  ∀ table next a, I table → x.run.run table = (.ok a, next) → I next ∧ p a

section Keeps

variable {I : EasingTable → Prop} {p : α → Prop} {q : β → Prop}

theorem keeps_pure {a : α} (h : p a) : Keeps I p (pure a) := by
  intro table next b hI hrun
  cases hrun
  exact ⟨hI, h⟩

theorem keeps_throw (fault : Fault) : Keeps I p (throw fault) := by
  intro table next a hI hrun
  cases hrun

theorem keeps_lift {result : Except Fault α} (h : ∀ a, result = .ok a → p a) :
    Keeps I p (lift result) := by
  cases result with
  | ok a => exact keeps_pure (h a rfl)
  | error fault => exact keeps_throw fault

theorem Keeps.bind (hx : Keeps I p x) (hf : ∀ a, p a → Keeps I q (f a)) : Keeps I q (x >>= f) := by
  intro table next b hI hrun
  rcases hresult : x.run.run table with ⟨result, between⟩
  cases result with
  | ok a =>
    rw [run_bind_ok hresult] at hrun
    obtain ⟨hbetween, ha⟩ := hx table between a hI hresult
    exact hf a ha between next b hbetween hrun
  | error fault =>
    rw [run_bind_error hresult] at hrun
    cases hrun

theorem Keeps.imp {p' : α → Prop} (hx : Keeps I p x) (h : ∀ a, p a → p' a) : Keeps I p' x := by
  intro table next a hI hrun
  exact (hx table next a hI hrun).imp_right (h a)

/-- Each item of a list is compiled as one of them is. -/
theorem keeps_mapM {r : β → α → Prop} {g : β → Compile α} {l : List β}
    (h : ∀ b ∈ l, Keeps I (r b) (g b)) : Keeps I (List.Forall₂ r l) (l.mapM g) := by
  induction l with
  | nil => exact keeps_pure .nil
  | cons b l ih =>
    obtain ⟨hb, hl⟩ := List.forall_mem_cons.mp h
    rw [List.mapM_cons]
    exact hb.bind fun a ha ↦ (ih hl).bind fun results hresults ↦ keeps_pure (.cons ha hresults)

end Keeps

end Compile

/-- A course that is registered is a number, or reads the token of its program. -/
theorem Course.run_register (course : Course) (table : EasingTable) :
    course.register.run.run table =
      match course with
      | .constant value => (.ok (.literal (.float value)), table)
      | .moving program =>
        (.ok (.ofToken (table.add (String.ofList (program.text table.precision))).2),
          (table.add (String.ofList (program.text table.precision))).1) := by
  cases course <;> rfl

theorem run_compileComponent (keyframes : List Keyframe) (count index : ℤ) (reversed : Bool)
    (path : String) (table : EasingTable) :
    (compileComponent keyframes count index reversed path).run.run table =
      match courseOf table.precision keyframes count index reversed path with
      | .ok course => course.register.run.run table
      | .error fault => (.error fault, table) := by
  have htable : (get : Compile EasingTable).run.run table = (.ok table, table) := rfl
  have hlift := Compile.run_lift (courseOf table.precision keyframes count index reversed path) table
  rw [compileComponent, Compile.run_bind_ok htable]
  cases hcourse : courseOf table.precision keyframes count index reversed path with
  | ok course => exact Compile.run_bind_ok (hcourse ▸ hlift)
  | error fault => exact Compile.run_bind_error (hcourse ▸ hlift)

end Motion
