import Mathlib.Algebra.Field.Rat
import Mathlib.Algebra.Order.Ring.Unbundled.Rat
import Mathlib.Tactic.IntervalCases
import TensorLoom.Proofs.Gradient.Adjoint
/-
# Differentiation

A request is refused exactly if the root is missing or a target is not a leaf, and then
nothing is built. Otherwise there is a new node for every target, of the shape of the
target (`differentiate_total`), and the gradients in the direction of the tangents of the
targets add up to the tangent of the root (`differentiate_adjoint`).
-/

namespace TensorLoom

open Extend TensorLoom.Gradient

/-- What reached the leaves is what the targets get. -/
theorem Gradient.Direction.carried_targets {α : Type} [Field α] [LinearOrder α] {δ : Direction α} {targets : List Nat}
    (htargets : ∀ t ∈ targets, δ.graph.HasLeaf t)
    (hstill : ∀ x, δ.graph.HasLeaf x → x ∉ targets → ∀ d ∈ δ.moving x, d.tangent = 0) :
    δ.carried 0 (δ.sweep (δ.root + 1) δ.start) =
      ∑ t ∈ targets.toFinset, ∑ j ∈ Shape.box (δ.shape t), δ.gradient t j * δ.tangent t j := by
  refine Finset.sum_congr_of_eq_on_inter (fun x hx hnot => ?_) (fun t ht hnot => ?_) fun t _ _ => ?_
  · -- a leaf that is no target does not move
    have hleaf : δ.graph.HasLeaf x := (Finset.mem_filter.1 hx).2.resolve_left (Nat.not_lt_zero x)
    refine Finset.sum_eq_zero fun j _ => ?_
    have hzero : δ.tangent x j = 0 := by
      refine δ.wellFormed.tangentAt_eq_zero j (fun _ _ _ => hstill x hleaf (by simpa using hnot)) fun y hy => ?_
      rw [hleaf.operandsOf] at hy
      cases hy
    rw [hzero, mul_zero]
  · -- nothing is found for a target above the root
    have habove : ¬ t ≤ δ.root := by
      intro hle
      have hleaf := htargets t (List.mem_toFinset.1 ht)
      exact hnot (Finset.mem_filter.2 ⟨Finset.mem_range.2 (Nat.lt_succ_of_le hle), .inr hleaf⟩)
    refine Finset.sum_eq_zero fun j _ => ?_
    rw [Setting.gradient, Setting.sweep_start_of_lt (Nat.lt_of_not_le habove), Option.getD_none, δ.lit_zero, zero_mul]
  · refine Finset.sum_congr rfl fun j _ => congrArg (· * _) ?_
    unfold Setting.gradient
    cases δ.sweep (δ.root + 1) δ.start t with
    | none => exact δ.lit_zero.symm
    | some f => rfl

/-- Reverse mode is forward mode: over any field with an order, and in any direction in which
only the targets move, the gradients of the targets in their directions add up to the
tangent of the root. -/
theorem differentiate_adjoint {α : Type} [Field α] [LinearOrder α] (S : Scalars α) {g : Graph} (hg : g.WellFormed)
    {root : Nat} (hroot : root < g.length) {targets : List Nat} (htargets : ∀ t ∈ targets, g.HasLeaf t)
    (leaves : Leaves (Dual α)) (hstill : ∀ x, g.HasLeaf x → x ∉ targets → ∀ d ∈ leaves x, d.tangent = 0) :
    (g.SizesBelow Word.limit → ∃ r, (differentiate root targets).runOn g = .ok r) ∧
    ∀ {r g'}, (differentiate root targets).runOn g = .ok (r, g') →
      ∃ grads, ∃ grad : Nat → Nat, r = .ok grads ∧ (∀ t ∈ targets, grads.lookup t = some (grad t)) ∧
        ∑ i ∈ Shape.box (g.shapeAt root), g.tangentAt S leaves root i =
          ∑ t ∈ targets.toFinset, ∑ j ∈ Shape.box (g.shapeAt t),
            g'.valueAt S leaves (grad t) j * g.tangentAt S leaves t j := by
  let δ : Direction α := ⟨⟨S.algebra, leaves.values, g, hg, root, hroot⟩, S, leaves, rfl, rfl⟩
  have hmakes := differentiate_makes δ.toSetting htargets
  refine ⟨hmakes.run, fun h => ?_⟩
  obtain ⟨grads, g₁, heq, -, -, -, hkeys, hentry⟩ := hmakes.of_run h
  cases heq
  have hlookup : ∀ t ∈ targets, ∃ d, grads.lookup t = some d ∧ (t, d) ∈ grads :=
    fun t ht => Gradients.exists_lookup ((hkeys t).2 ht)
  choose! grad hgrad using hlookup
  refine ⟨grads, grad, rfl, fun t ht => (hgrad t ht).1, ?_⟩
  calc ∑ i ∈ Shape.box (g.shapeAt root), g.tangentAt S leaves root i
      = δ.carried (δ.root + 1) δ.start := δ.carried_start.symm
    _ = δ.carried 0 (δ.sweep (δ.root + 1) δ.start) := (Direction.carried_sweep (Nat.le_refl _)).symm
    _ = ∑ t ∈ targets.toFinset, ∑ j ∈ Shape.box (δ.shape t), δ.gradient t j * δ.tangent t j :=
        Direction.carried_targets htargets hstill
    _ = _ := Finset.sum_congr rfl fun t ht => Finset.sum_congr rfl fun j hj => ?_
  have hd := (hentry (hgrad t (List.mem_toFinset.1 ht)).2).2
  exact congrArg (· * _) (hd.element (Shape.mem_box.1 hj)).symm

/-- Rational numbers for the constants, and the identity for what is not rational. -/
def Scalars.rational : Scalars ℚ where
  lit c := if c == 1.0 then 1 else if c == -1.0 then -1 else if c == 0.5 then 1 / 2 else 0
  lit_one := by decide +kernel
  lit_zero := by decide +kernel
  lit_neg_one := by decide +kernel
  lit_half := by decide +kernel
  exp x := x
  log x := x
  sin x := x
  sqrt x := x
  pow x _ := x

/-- A weighted sum of squares: weight 0, input 1, and the sum of `w * w * x` at node 4. -/
def squares : Graph := ⟨[⟨.weight, [2]⟩, ⟨.input, [2]⟩, ⟨.binary .mul 0 0, [2]⟩, ⟨.binary .mul 2 1, [2]⟩,
  ⟨.reduce .sum 3 [0] false, []⟩]⟩

theorem squares_built : squares.Built :=
  .call (.reduce .sum 3 [0] false) (.call (.binary .mul 2 1) (.call (.square 0) (.call (.input [2])
    (.call (.weight [2]) .empty rfl) rfl) rfl) rfl) rfl

theorem squares_small : squares.SizesBelow Word.limit := by
  intro x hx
  have hlt : x < 5 := hx
  interval_cases x <;> decide

theorem squares_leaf : squares.HasLeaf 0 := ⟨_, rfl, rfl⟩

/-- The weights 3 and 5, that move by 1 and 2, and the inputs 7 and 11. -/
def squaresLeaves : Leaves (Dual ℚ)
  | 0 => #[⟨3, 1⟩, ⟨5, 2⟩]
  | 1 => #[⟨7, 0⟩, ⟨11, 0⟩]
  | _ => #[]

theorem differentiate_adjoint_squares : ∃ grads g' grad, (differentiate 4 [0]).runOn squares = .ok (.ok grads, g') ∧
    grads.lookup 0 = some grad ∧
    ∑ j ∈ Shape.box [2], g'.valueAt .rational squaresLeaves grad j * squares.tangentAt .rational squaresLeaves 0 j =
      262 := by
  have hstill : ∀ x, squares.HasLeaf x → x ∉ [0] → ∀ d ∈ squaresLeaves x, d.tangent = 0 := by
    intro x hx hnot d hd
    have hlt : x < 5 := hx.lt
    interval_cases x <;> simp_all [squaresLeaves]
    rcases hd with rfl | rfl <;> rfl
  obtain ⟨hruns, hadjoint⟩ := differentiate_adjoint .rational squares_built.wellFormed (by decide : 4 < squares.length)
    (by simpa using squares_leaf) squaresLeaves hstill
  obtain ⟨⟨r, g'⟩, hrun⟩ := hruns squares_small
  obtain ⟨grads, grad, rfl, hgrad, hsum⟩ := hadjoint hrun
  refine ⟨grads, g', grad 0, hrun, hgrad 0 List.mem_cons_self, ?_⟩
  have htangent : ∑ i ∈ Shape.box (squares.shapeAt 4), squares.tangentAt .rational squaresLeaves 4 i = 262 := by
    decide +kernel
  rwa [hsum, List.toFinset_cons, List.toFinset_nil, insert_empty_eq, Finset.sum_singleton] at htangent

/-! ## What is built -/

/-- A request that passes its checks appends one inner node for each target, of its shape. -/
theorem differentiate_ok {g : Graph} (hg : g.WellFormed) (hsmall : g.SizesBelow Word.limit) {root : Nat}
    (hroot : root < g.length) {targets : List Nat} (htargets : ∀ t ∈ targets, g.HasLeaf t) :
    ∃ grads g', (differentiate root targets).runOn g = .ok (.ok grads, g') ∧ g'.WellFormed ∧ g.Appends g' ∧
      (grads.map Prod.fst).Pairwise (· < ·) ∧ (∀ t, t ∈ grads.map Prod.fst ↔ t ∈ targets) ∧
      ∀ t d : Nat, (t, d) ∈ grads → g'.shapeAt d = g.shapeAt t ∧ g.length ≤ d ∧ d < g'.length ∧ ¬ g'.HasLeaf d := by
  -- any scalars will do to follow the sweep
  have hmakes := differentiate_makes ⟨Arith.double.toAlgebra, fun _ => #[], g, hg, root, hroot⟩ htargets
  obtain ⟨r, hrun⟩ := hmakes.run hsmall
  obtain ⟨grads, g', rfl, hg', happ, hincreasing, hkeys, hentry⟩ := hmakes.of_run hrun
  refine ⟨grads, g', hrun, hg', happ, hincreasing, hkeys, fun t d hd => ?_⟩
  obtain ⟨hfresh, hdenotes⟩ := hentry hd
  refine ⟨hdenotes.shape, hfresh, hdenotes.lt, fun ⟨n, hn, hleaf⟩ => ?_⟩
  rw [happ.inner hn hfresh] at hleaf
  cases hleaf

/-- Differentiation is total: it is refused exactly if the root is missing or a target is not
a leaf, and leaves the graph as it is then. Otherwise the graph is continued by inner nodes,
among them one for each target, of its shape, and can be differentiated again. -/
theorem differentiate_total {g : Graph} (hg : g.WellFormed) (hsmall : g.SizesBelow Word.limit) (root : Nat)
    (targets : List Nat) :
    ∃ r g', (differentiate root targets).runOn g = .ok (r, g') ∧
      ((∃ e, r = .error e) ↔ g.length ≤ root ∨ ∃ t ∈ targets, ¬ g.HasLeaf t) ∧
      (∀ e, r = .error e → g' = g) ∧
      ∀ grads, r = .ok grads →
        (grads.map Prod.fst).Pairwise (· < ·) ∧ (∀ t, t ∈ grads.map Prod.fst ↔ t ∈ targets) ∧
        (∀ t d : Nat, (t, d) ∈ grads →
          g'.shapeAt d = g.shapeAt t ∧ g.length ≤ d ∧ d < g'.length ∧ ¬ g'.HasLeaf d) ∧
        (∀ x < g.length, g'.node? x = g.node? x) ∧ g.length ≤ g'.length ∧
        g'.WellFormed ∧ g'.SizesBelow Word.limit := by
  by_cases hok : root < g.length ∧ ∀ t ∈ targets, g.HasLeaf t
  · obtain ⟨grads, g', hrun, hg', happ, hincreasing, hkeys, hentry⟩ := differentiate_ok hg hsmall hok.1 hok.2
    refine ⟨.ok grads, g', hrun, ⟨fun ⟨e, h⟩ => (by cases h), ?_⟩, (fun e h => by cases h), fun _ h => ?_⟩
    · rintro (hmissing | ⟨t, ht, hnot⟩)
      · exact absurd hok.1 (Nat.not_lt_of_le hmissing)
      · exact absurd (hok.2 t ht) hnot
    · cases h
      exact ⟨hincreasing, hkeys, hentry, fun x hx => happ.grows.node? hx, happ.length_le, hg',
        happ.sizesBelow hsmall (by decide)⟩
  · obtain ⟨e, he⟩ : ∃ e, checkRequest g root targets = .error e := by
      cases hcheck : checkRequest g root targets with
      | error e => exact ⟨e, rfl⟩
      | ok => exact absurd (checkRequest_eq_ok.1 hcheck) hok
    refine ⟨.error e, g, ?_, ⟨fun _ => ?_, fun _ => ⟨e, rfl⟩⟩, fun _ _ => rfl, fun grads h => by cases h⟩
    · rw [runOn_differentiate, he]
    · simpa only [not_and_or, not_lt, not_forall, exists_prop] using hok

/-- The gradient by a weight is differentiated by the weight again. -/
theorem differentiate_total_squares : ∃ grads g' d grads' g'' d', (differentiate 4 [0]).runOn squares = .ok (.ok grads, g') ∧
    (0, d) ∈ grads ∧ (differentiate d [0]).runOn g' = .ok (.ok grads', g'') ∧ (0, d') ∈ grads' ∧
    g''.shapeAt d' = [2] := by
  obtain ⟨r, g', hrun, herror, -, hok⟩ := differentiate_total squares_built.wellFormed squares_small 4 [0]
  cases r with
  | error e =>
    have hrefused := herror.1 ⟨e, rfl⟩
    simp [squares_leaf, (by decide : ¬ squares.length ≤ 4)] at hrefused
  | ok grads =>
    obtain ⟨-, hkeys, hentry, hsame, -, hg', hsmall'⟩ := hok grads rfl
    obtain ⟨d, -, hd⟩ := Gradients.exists_lookup ((hkeys 0).2 List.mem_cons_self)
    have hleaf' : g'.HasLeaf 0 := ⟨_, hsame 0 (by decide), rfl⟩
    obtain ⟨r, g'', hrun', herror', -, hok'⟩ := differentiate_total hg' hsmall' d [0]
    cases r with
    | error e =>
      have hrefused := herror'.1 ⟨e, rfl⟩
      simp [hleaf', Nat.not_le.2 (hentry 0 d hd).2.2.1] at hrefused
    | ok grads' =>
      obtain ⟨-, hkeys', hentry', -⟩ := hok' grads' rfl
      obtain ⟨d', -, hd'⟩ := Gradients.exists_lookup ((hkeys' 0).2 List.mem_cons_self)
      have hshape : g'.shapeAt 0 = [2] := Graph.shapeAt_of_node? (hsame 0 (by decide))
      exact ⟨grads, g', d, grads', g'', d', hrun, hd, hrun', hd', (hentry' 0 d' hd').1.trans hshape⟩

end TensorLoom
