import Motion.Path.Box
import Motion.Proofs.Number.Text
import Mathlib.Algebra.Order.Ring.Cast
import Mathlib.Algebra.Order.Ring.Rat

/-!
Boxes are hulls. The left and top side of a box are the least coordinates of the points that it was
grown to hold, the right and bottom side the greatest ones (`Box.IsHull`). Combining two boxes gives
the hull of the points of both, and growing a box by a point combines it with the box of that point.
-/

set_option autoImplicit false
set_option relaxedAutoImplicit false

namespace Motion

namespace Number

/-- Both numbers have rational values, and that of the first is at most that of the second. -/
def IsAtMost (m n : Number) : Prop :=
  ∃ p q, m.toRat? = some p ∧ n.toRat? = some q ∧ p ≤ q

/-- One of some numbers that is at most each of them. -/
def IsMinimum (n : Number) (numbers : List Number) : Prop :=
  n ∈ numbers ∧ ∀ m ∈ numbers, n.IsAtMost m

/-- One of some numbers that each of them is at most. -/
def IsMaximum (n : Number) (numbers : List Number) : Prop :=
  n ∈ numbers ∧ ∀ m ∈ numbers, m.IsAtMost n

variable {m n k : Number}

theorem IsAtMost.trans (hfirst : m.IsAtMost n) (hsecond : n.IsAtMost k) : m.IsAtMost k := by
  obtain ⟨p, q, hm, hn, hpq⟩ := hfirst
  obtain ⟨q', r, hn', hk, hqr⟩ := hsecond
  obtain rfl : q = q' := Option.some.inj (hn.symm.trans hn')
  exact ⟨p, r, hm, hk, hpq.trans hqr⟩

theorem isAtMost_int {i j : ℤ} : (Number.int i).IsAtMost (.int j) ↔ i ≤ j := by
  refine ⟨?_, fun h ↦ ⟨i, j, rfl, rfl, Int.cast_le.mpr h⟩⟩
  rintro ⟨p, q, hp, hq, h⟩
  cases hp
  cases hq
  exact Int.cast_le.mp h

theorem lt_of_toRat? {p q : ℚ} (hm : m.toRat? = some p) (hn : n.toRat? = some q) :
    m.lt n = decide (p < q) := by
  rw [lt, compare?_of_toRat? hm hn, compareRat]
  split_ifs with hless hgreater
  · simp [hless]
  · simp [hless]
  · simp [hless]

theorem lt_cases (hm : m.IsAtMost m) (hn : n.IsAtMost n) :
    m.lt n = true ∧ m.IsAtMost n ∨ m.lt n = false ∧ n.IsAtMost m := by
  obtain ⟨p, -, hp, -, -⟩ := hm
  obtain ⟨q, -, hq, -, -⟩ := hn
  rw [lt_of_toRat? hp hq]
  by_cases h : p < q
  · exact Or.inl ⟨decide_eq_true h, p, q, hp, hq, h.le⟩
  · exact Or.inr ⟨decide_eq_false h, q, p, hq, hp, not_lt.mp h⟩

/-- The smaller of two numbers is one of them and at most the other. -/
theorem min_cases (hm : m.IsAtMost m) (hn : n.IsAtMost n) :
    m.min n = m ∧ m.IsAtMost n ∨ m.min n = n ∧ n.IsAtMost m := by
  rw [min]
  rcases lt_cases hn hm with ⟨h, hle⟩ | ⟨h, hle⟩ <;> simp [h, hle]

/-- The greater of two numbers is one of them, and the other is at most it. -/
theorem max_cases (hm : m.IsAtMost m) (hn : n.IsAtMost n) :
    m.max n = m ∧ n.IsAtMost m ∨ m.max n = n ∧ m.IsAtMost n := by
  rw [max]
  rcases lt_cases hm hn with ⟨h, hle⟩ | ⟨h, hle⟩ <;> simp [h, hle]

theorem isMinimum_singleton (h : n.IsAtMost n) : n.IsMinimum [n] :=
  ⟨List.mem_singleton_self n, fun _ hmem ↦ by rwa [List.mem_singleton.mp hmem]⟩

theorem isMaximum_singleton (h : n.IsAtMost n) : n.IsMaximum [n] :=
  ⟨List.mem_singleton_self n, fun _ hmem ↦ by rwa [List.mem_singleton.mp hmem]⟩

variable {first second : List Number}

/-- Of two numbers that each come first among some numbers, the one that comes before the other is the
first among all of them. -/
theorem first_append (before : Number → Number → Prop)
    (htrans : ∀ {a b c}, before a b → before b c → before a c)
    (hk : k = m ∧ before m n ∨ k = n ∧ before n m)
    (hm : m ∈ first ∧ ∀ l ∈ first, before m l) (hn : n ∈ second ∧ ∀ l ∈ second, before n l) :
    k ∈ first ++ second ∧ ∀ l ∈ first ++ second, before k l := by
  rcases hk with ⟨rfl, h⟩ | ⟨rfl, h⟩
  · refine ⟨List.mem_append_left _ hm.1, List.forall_mem_append.mpr ⟨hm.2, fun l hl ↦ ?_⟩⟩
    exact htrans h (hn.2 l hl)
  · refine ⟨List.mem_append_right _ hn.1, List.forall_mem_append.mpr ⟨fun l hl ↦ ?_, hn.2⟩⟩
    exact htrans h (hm.2 l hl)

theorem IsMinimum.append (hm : m.IsMinimum first) (hn : n.IsMinimum second) :
    (m.min n).IsMinimum (first ++ second) :=
  first_append IsAtMost IsAtMost.trans (min_cases (hm.2 m hm.1) (hn.2 n hn.1)) hm hn

theorem IsMaximum.append (hm : m.IsMaximum first) (hn : n.IsMaximum second) :
    (m.max n).IsMaximum (first ++ second) :=
  first_append (fun a b ↦ b.IsAtMost a) (fun hab hbc ↦ hbc.trans hab)
    (max_cases (hm.2 m hm.1) (hn.2 n hn.1)) hm hn

end Number

namespace Box

/-- The box is undefined if there are no points, and else its sides are the least and greatest of
their coordinates. -/
def IsHull : Box → List (Number × Number) → Prop
  | undefined, points => points = []
  | sides left top right bottom, points =>
    left.IsMinimum (points.map Prod.fst) ∧ top.IsMinimum (points.map Prod.snd) ∧
      right.IsMaximum (points.map Prod.fst) ∧ bottom.IsMaximum (points.map Prod.snd)

variable {first second box : Box} {points others : List (Number × Number)} {x y : Number}

theorem isHull_undefined : undefined.IsHull [] :=
  rfl

theorem isHull_point (hx : x.IsAtMost x) (hy : y.IsAtMost y) : (sides x y x y).IsHull [(x, y)] :=
  ⟨Number.isMinimum_singleton hx, Number.isMinimum_singleton hy, Number.isMaximum_singleton hx,
    Number.isMaximum_singleton hy⟩

/-- Two boxes combined are the hull of the points of both. -/
theorem IsHull.combine (hfirst : first.IsHull points) (hsecond : second.IsHull others) :
    (first.combine second).IsHull (points ++ others) := by
  cases first with
  | undefined =>
    obtain rfl : points = [] := hfirst
    cases second with
    | undefined => exact hsecond
    | sides l' t' r' b' => exact hsecond
  | sides l t r b =>
    cases second with
    | undefined =>
      obtain rfl : others = [] := hsecond
      rw [List.append_nil]
      exact hfirst
    | sides l' t' r' b' =>
      obtain ⟨hl, ht, hr, hb⟩ := hfirst
      obtain ⟨hl', ht', hr', hb'⟩ := hsecond
      simp only [IsHull, Box.combine, List.map_append]
      exact ⟨hl.append hl', ht.append ht', hr.append hr', hb.append hb'⟩

theorem update_eq_combine (box : Box) (x y : Number) :
    box.update x y = box.combine (sides x y x y) := by
  cases box with
  | undefined => rfl
  | sides left top right bottom => rfl

/-- A box grown by a point is the hull of its points and that one. -/
theorem IsHull.update (h : box.IsHull points) (hx : x.IsAtMost x) (hy : y.IsAtMost y) :
    (box.update x y).IsHull (points ++ [(x, y)]) := by
  rw [update_eq_combine]
  exact h.combine (isHull_point hx hy)

end Box

end Motion
