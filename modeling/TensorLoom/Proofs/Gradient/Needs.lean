import TensorLoom.Proofs.Gradient.Differentiate
import TensorLoom.Proofs.Graph.Reach
/-
# Reachability upwards and downwards

The graph is walked in two ways: downwards from a root, which marks what the root depends
on, and upwards to a root, which marks what depends on a target. Both follow the same
chains of operands (`reachable_exact`).
-/

namespace TensorLoom

namespace Gradient

/-- A node is wanted if and only if it depends on a target. -/
theorem wants_iff_dependsOn {g : Graph} {targets : List Nat} (hg : g.WellFormed) {root x : Nat} (hx : x ≤ root) :
    Needs.wants (needsOf g root targets) x ↔ ∃ t ∈ targets, g.DependsOn x t := by
  induction x using Nat.strongRecOn with
  | _ x ih =>
    have hoperand : ∀ {y}, y ∈ g.operandsOf x →
        (Needs.wants (needsOf g root targets) y ↔ ∃ t ∈ targets, g.DependsOn y t) := by
      intro y hy
      have hlt := (hg.operandsOf_lt hy).1
      exact ih y hlt (by omega)
    rw [wants_needsOf hg hx]
    constructor
    · rintro (ht | ⟨y, hy, hwants⟩)
      · exact ⟨x, ht, .refl x⟩
      · obtain ⟨t, ht, hdepends⟩ := (hoperand hy).1 hwants
        exact ⟨t, ht, .operand hy hdepends⟩
    · rintro ⟨t, ht, hdepends⟩
      cases hdepends with
      | refl => exact .inl ht
      | operand hy hyt => exact .inr ⟨_, hy, (hoperand hy).2 ⟨t, ht, hyt⟩⟩

end Gradient

open TensorLoom.Gradient

/-- The walk down from a root marks what the root depends on, of which the weights are listed
in increasing order. The walk up to the root marks the nodes from which the walk down marks
a target. -/
theorem reachable_exact {g : Graph} (hg : g.Built) {root : Nat} (hroot : root < g.length) :
    ∃ marks weights, g.reachable root = .ok marks ∧ marks.length = root + 1 ∧
      (∀ i : Nat, marks[i]? = some true ↔ g.DependsOn root i) ∧
      g.weightsOf root = .ok weights ∧ weights.Pairwise (· < ·) ∧
      (∀ w : Nat, w ∈ weights ↔ marks[w]? = some true ∧ g.HasWeight w) ∧
      ∀ targets : List Nat, (needsOf g root targets).length = root + 1 ∧
        ∀ i ≤ root, ∃ below, g.reachable i = .ok below ∧
          ((needsOf g root targets)[i]? = some true ↔ ∃ t ∈ targets, below[t]? = some true) := by
  have hwf := hg.wellFormed
  obtain ⟨weights, hweights, hincreasing, hmem⟩ := Graph.weightsOf_eq_ok hwf hroot
  refine ⟨g.reachMarks root, weights, Graph.reachable_eq_ok hroot, Graph.length_reachMarks g root,
    fun i => Graph.reachMarks_iff hwf, hweights, hincreasing, fun w => ?_,
    fun targets => ⟨length_needsBelow (root + 1), fun i hi => ?_⟩⟩
  · rw [hmem, Graph.reachMarks_iff hwf, and_comm]
  · refine ⟨g.reachMarks i, Graph.reachable_eq_ok (Nat.lt_of_le_of_lt hi hroot), ?_⟩
    have hwants : Needs.wants (needsOf g root targets) i ↔ ∃ t ∈ targets, g.DependsOn i t := wants_iff_dependsOn hwf hi
    rw [Needs.wants, decide_eq_true_iff] at hwants
    simp only [hwants, Graph.reachMarks_iff hwf]

/-- The square of the weight does not need the input, the weighted square does. -/
theorem reachable_squares : squares.Built ∧ 2 < squares.length ∧ squares.DependsOn 2 0 ∧ ¬ squares.DependsOn 2 1 ∧
    squares.weightsOf 2 = .ok [0] ∧ needsOf squares 3 [1] = [false, true, false, true] ∧
    ∃ below, squares.reachable 3 = .ok below ∧ below[1]? = some true := by
  obtain ⟨marks, weights, hmarks, -, hiff, -⟩ := reachable_exact squares_built (by decide : 2 < squares.length)
  obtain ⟨-, -, -, -, -, -, -, -, hneeds⟩ := reachable_exact squares_built (by decide : 3 < squares.length)
  have hcomputed : squares.reachable 2 = .ok [true, false, true] := by decide
  cases hcomputed.symm.trans hmarks
  obtain ⟨below, hbelow, hneeded⟩ := (hneeds [1]).2 3 (Nat.le_refl 3)
  obtain ⟨t, ht, hmarked⟩ := hneeded.1 (by decide)
  obtain rfl := List.mem_singleton.1 ht
  exact ⟨squares_built, by decide, (hiff 0).1 rfl, fun h => absurd ((hiff 1).2 h) (by decide), by decide, by decide,
    below, hbelow, hmarked⟩

end TensorLoom
