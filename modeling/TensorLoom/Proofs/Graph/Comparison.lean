import Mathlib
import TensorLoom.Proofs.Graph.Composite
/-
# Comparisons

Two numbers are in one of three orders, or in none if one of them is no number (`order?`). A
comparison asks whether the larger of `y` and `x` differs from `y`; as the larger of two is the
second where they are in no order, the answer is 1 where `x > y` and where `x` or `y` is no
number, and 0 elsewhere (`threshold_eq`). So it is the strict comparison exactly between
numbers (`gt_element`).
-/

namespace TensorLoom

open Float.Model

/-! ## The order of two numbers -/

section
variable {x y : Float}

/-- How the first number stands to the second. -/
def order? (x y : Float) : Option Ordering := x.toModel.unpack.compare y.toModel.unpack

theorem lt_iff_order? : x < y ↔ order? x y = some .lt := by
  show decide (x.toModel < y.toModel) = true ↔ _
  rw [decide_eq_true_iff]
  show (order? x y == some .lt) = true ↔ _
  exact beq_iff_eq

theorem le_iff_order? : x ≤ y ↔ order? x y = some .lt ∨ order? x y = some .eq := by
  show decide (x.toModel ≤ y.toModel) = true ↔ _
  rw [decide_eq_true_iff]
  show (order? x y).any (·.isLE) = true ↔ _
  cases order? x y with
  | none => simp
  | some o => cases o <;> simp

theorem beq_iff_order? : (x == y) = true ↔ order? x y = some .eq := by
  show (order? x y == some .eq) = true ↔ _
  exact beq_iff_eq

theorem compare_eq_none_iff (a b : UnpackedFloat) : a.compare b = none ↔ a.isNaN = true ∨ b.isNaN = true := by
  fun_cases UnpackedFloat.compare a b <;> simp_all [UnpackedFloat.isNaN]

theorem compare_swap (a b : UnpackedFloat) : b.compare a = (a.compare b).map Ordering.swap := by
  cases a with
  | notANumber => cases b <;> rfl
  | infinity s =>
    cases s <;> cases b with
    | infinity t => cases t <;> rfl
    | _ => rfl
  | zero s =>
    cases b with
    | infinity t => cases t <;> rfl
    | finite t m e h => cases t <;> rfl
    | _ => rfl
  | finite s m e h =>
    cases b with
    | finite t m' e' h' =>
      have he : compare e' e = (compare e e').swap := Std.OrientedCmp.eq_swap
      have hm : compare m' m = (compare m m').swap := Std.OrientedCmp.eq_swap
      cases s <;> cases t <;> simp [UnpackedFloat.compare, he, hm, Ordering.swap_then]
    | infinity t => cases s <;> cases t <;> rfl
    | _ => cases s <;> rfl

/-- Numbers are in no order exactly if one of them is none. -/
theorem order?_eq_none_iff : order? x y = none ↔ x.isNaN = true ∨ y.isNaN = true := compare_eq_none_iff ..

theorem gt_iff_order? : x > y ↔ order? x y = some .gt := by
  rw [gt_iff_lt, lt_iff_order?, order?, compare_swap, ← order?]
  cases order? x y with
  | none => simp
  | some o => cases o <;> simp

/-! ## The larger of two numbers -/

theorem not_le_iff_gt_or_isNaN : ¬ x ≤ y ↔ x > y ∨ x.isNaN = true ∨ y.isNaN = true := by
  rw [le_iff_order?, gt_iff_order?, ← order?_eq_none_iff]
  cases order? x y with
  | none => simp
  | some o => cases o <;> simp

theorem larger_beq_iff : (larger y x == y) = true ↔ x ≤ y := by
  unfold larger
  by_cases h : x ≤ y
  · have hy : y.isNaN = false := eq_false_of_ne_true fun hy => not_le_iff_gt_or_isNaN.2 (.inr (.inr hy)) h
    rw [if_pos h]
    exact iff_of_true (Float.beq_self_iff.2 (by simpa using hy)) h
  · rw [if_neg h]
    exact iff_of_false (fun heq => h (le_iff_order?.2 (.inr (beq_iff_order?.1 heq)))) h

theorem threshold_eq (x y : Float) :
    (1.0 : Float) - (if larger y x == y then 1.0 else 0.0) = if x > y ∨ x.isNaN ∨ y.isNaN then 1.0 else 0.0 := by
  by_cases h : x ≤ y
  · rw [if_pos (larger_beq_iff.2 h), if_neg (fun hgt => not_le_iff_gt_or_isNaN.2 hgt h)]
    decide
  · rw [if_neg (fun heq => h (larger_beq_iff.1 heq)), if_pos (not_le_iff_gt_or_isNaN.1 h)]
    decide

/-- The threshold is the strict comparison exactly between numbers. -/
theorem threshold_eq_gt_iff (x y : Float) :
    (if x > y ∨ x.isNaN ∨ y.isNaN then (1.0 : Float) else 0.0) = (if x > y then 1.0 else 0.0) ↔
      x.isNaN = false ∧ y.isNaN = false := by
  by_cases hnan : x.isNaN = true ∨ y.isNaN = true
  · have hgt : ¬ x > y := by
      rw [gt_iff_order?, order?_eq_none_iff.2 hnan]
      simp
    rw [if_pos (.inr hnan), if_neg hgt]
    refine iff_of_false (by decide) fun h => ?_
    rcases hnan with hx | hy
    · rw [h.1] at hx
      cases hx
    · rw [h.2] at hy
      cases hy
  · have hgt : (x > y ∨ x.isNaN = true ∨ y.isNaN = true) ↔ x > y := or_iff_left hnan
    rw [if_congr hgt rfl rfl]
    refine iff_of_true rfl ⟨?_, ?_⟩
    · exact eq_false_of_ne_true fun hx => hnan (.inl hx)
    · exact eq_false_of_ne_true fun hy => hnan (.inr hy)

end

/-! ## Comparing nodes -/

/-- Nodes that broadcast can be compared, and the result has the shape they broadcast to. At
each position it is 1 where the element of `lhs` is greater than that of `rhs`, and also where
one of them is no number; elsewhere it is 0. -/
theorem gt_element {g : Graph} (hg : g.Built) {lhs rhs : Nat} (hl : lhs < g.length) (hr : rhs < g.length) {r : Shape}
    (hjoin : Shape.broadcast (g.shapeAt lhs) (g.shapeAt rhs) = .ok r) :
    ∃ c g', (Build.gt lhs rhs).runOn g = .ok (.ok c, g') ∧ g'.shapeAt c = r ∧
      ∀ (leaves : Leaves Float) (idx : List Nat), Shape.Mem idx r →
        let x := g.element Arith.double.toAlgebra leaves lhs (Shape.restrict (g.shapeAt lhs) idx)
        let y := g.element Arith.double.toAlgebra leaves rhs (Shape.restrict (g.shapeAt rhs) idx)
        g'.element Arith.double.toAlgebra leaves c idx = (if x > y ∨ x.isNaN ∨ y.isNaN then 1.0 else 0.0) ∧
        (g'.element Arith.double.toAlgebra leaves c idx = (if x > y then 1.0 else 0.0) ↔
          x.isNaN = false ∧ y.isNaN = false) := by
  have hyields (leaves : Leaves Float) : (Build.gt lhs rhs).Yields Arith.double.toAlgebra leaves g r _ :=
    Build.gt_yields hg.wellFormed (Graph.denotes_self hl) (Graph.denotes_self hr) hjoin
  obtain ⟨c, g', hrun, -, -, hc⟩ := hyields fun _ => #[]
  refine ⟨c, g', hrun, hc.shape, fun leaves idx hm => ?_⟩
  -- the nodes are the same whatever the leaves hold
  obtain ⟨c', g'', hrun', -, -, hc'⟩ := hyields leaves
  rw [hrun] at hrun'
  cases hrun'
  have helement := (hc'.element hm).trans (threshold_eq _ _)
  exact ⟨helement, helement ▸ threshold_eq_gt_iff _ _⟩

/-- Something that is no number is not greater than 1, and yet the comparison says so. -/
theorem gt_value_isNaN :
    ∃ (g g' : Graph) (leaves : Leaves Float), g.Built ∧ (Build.gt 0 1).runOn g = .ok (.ok 5, g') ∧
      g.value Arith.double.toAlgebra leaves 0 = [0.0 / 0.0] ∧ g.value Arith.double.toAlgebra leaves 1 = [1.0] ∧
      ¬ (0.0 / 0.0 : Float) > 1.0 ∧ g'.value Arith.double.toAlgebra leaves 5 = [1.0] := by
  have hg : Graph.Built ⟨[⟨.input, [1]⟩, ⟨.input, [1]⟩]⟩ :=
    .call (r := .ok 1) (.input [1]) (.call (r := .ok 0) (.input [1]) .empty rfl) rfl
  refine ⟨_, _, fun id => if id = 0 then #[0.0 / 0.0] else #[1.0], hg, rfl, ?_⟩
  decide +kernel

/-- A column of two numbers and a row of three. -/
def Graph.columnAndRow : Graph := ⟨[⟨.input, [2, 1]⟩, ⟨.input, [3]⟩]⟩

theorem gt_element_columnAndRow :
    Graph.columnAndRow.Built ∧ ∃ c g', (Build.gt 0 1).runOn Graph.columnAndRow = .ok (.ok c, g') ∧ g'.shapeAt c = [2, 3] ∧
      ∀ leaves : Leaves Float,
        let x := Graph.columnAndRow.element Arith.double.toAlgebra leaves 0 [1, 0]
        let y := Graph.columnAndRow.element Arith.double.toAlgebra leaves 1 [2]
        g'.element Arith.double.toAlgebra leaves c [1, 2] = if x > y ∨ x.isNaN ∨ y.isNaN then 1.0 else 0.0 := by
  have hg : Graph.columnAndRow.Built :=
    .call (r := .ok 1) (.input [3]) (.call (r := .ok 0) (.input [2, 1]) .empty rfl) rfl
  have hl : 0 < Graph.columnAndRow.length := by decide
  have hr : 1 < Graph.columnAndRow.length := by decide
  have hjoin : Shape.broadcast (Graph.columnAndRow.shapeAt 0) (Graph.columnAndRow.shapeAt 1) = .ok [2, 3] := rfl
  obtain ⟨c, g', hrun, hshape, helement⟩ := gt_element hg hl hr hjoin
  exact ⟨hg, c, g', hrun, hshape, fun leaves => (helement leaves [1, 2] (by simp [Shape.Mem])).1⟩

end TensorLoom
