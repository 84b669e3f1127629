import TensorLoom.Proofs.Gradient.Needs
/-
# Gradients by themselves

What the sweep finds for a node is made from what it finds for the nodes that use it, and
those are wanted if the node is. So every request finds the same tensor for a leaf, by the
same scalar operations in the same order, and a gradient does not depend on the other
targets (`differentiate_independent`).
-/

namespace TensorLoom

open Extend TensorLoom.Gradient

/-- What a request gives a target does not mention the request. -/
theorem value_gradient {α : Type} (σ : Setting α) {targets : List Nat} (htargets : ∀ x ∈ targets, σ.graph.HasLeaf x)
    {grads : Gradients} {g' : Graph} (hrun : (differentiate σ.root targets).runOn σ.graph = .ok (.ok grads, g'))
    {t d : Nat} (hd : (t, d) ∈ grads) :
    g'.value σ.algebra σ.leaves d = (Shape.indices (σ.shape t)).map (σ.gradient t) := by
  obtain ⟨_, _, heq, -, -, -, -, hentry⟩ := (differentiate_makes σ htargets).of_run hrun
  cases heq
  exact (hentry hd).2.value

/-- A gradient does not depend on what else is differentiated by: whatever the scalars are,
two requests that share a target give it the same value. -/
theorem differentiate_independent {g : Graph} (hg : g.Built) {root : Nat} (hroot : root < g.length) {t : Nat}
    {targets targets' : List Nat} (htargets : ∀ x ∈ targets, g.HasLeaf x) (htargets' : ∀ x ∈ targets', g.HasLeaf x)
    (ht : t ∈ targets) (ht' : t ∈ targets') :
    (g.SizesBelow Word.limit → (∃ r, (differentiate root targets).runOn g = .ok r) ∧
      ∃ r, (differentiate root targets').runOn g = .ok r) ∧
    ∀ {r r' g₁ g₂}, (differentiate root targets).runOn g = .ok (r, g₁) →
      (differentiate root targets').runOn g = .ok (r', g₂) →
      ∃ grads grads' d d', r = .ok grads ∧ r' = .ok grads' ∧ grads.lookup t = some d ∧ grads'.lookup t = some d' ∧
        ∀ {α : Type} (A : Algebra α) (leaves : Leaves α), g₁.value A leaves d = g₂.value A leaves d' := by
  -- any scalars will do to follow the requests
  let σ : Setting Float := ⟨Arith.double.toAlgebra, fun _ => #[], g, hg.wellFormed, root, hroot⟩
  have hmakes := differentiate_makes σ htargets
  have hmakes' := differentiate_makes σ htargets'
  refine ⟨fun hsmall => ⟨hmakes.run hsmall, hmakes'.run hsmall⟩, fun hrun hrun' => ?_⟩
  obtain ⟨grads, g₁, heq, -, -, -, hkeys, -⟩ := hmakes.of_run hrun
  obtain ⟨grads', g₂, heq', -, -, -, hkeys', -⟩ := hmakes'.of_run hrun'
  cases heq
  cases heq'
  obtain ⟨d, hd, hmem⟩ := Gradients.exists_lookup ((hkeys t).2 ht)
  obtain ⟨d', hd', hmem'⟩ := Gradients.exists_lookup ((hkeys' t).2 ht')
  refine ⟨grads, grads', d, d', rfl, rfl, hd, hd', fun A leaves => ?_⟩
  rw [value_gradient ⟨A, leaves, g, hg.wellFormed, root, hroot⟩ htargets hrun hmem,
    value_gradient ⟨A, leaves, g, hg.wellFormed, root, hroot⟩ htargets' hrun' hmem']

/-- The gradient by the weight is another node if the input is a target too, with the same
value. -/
theorem differentiate_independent_squares : ∃ grads grads' g₁ g₂,
    (differentiate 4 [0]).runOn squares = .ok (.ok grads, g₁) ∧ grads.lookup 0 = some 12 ∧
    (differentiate 4 [1, 0, 1]).runOn squares = .ok (.ok grads', g₂) ∧ grads'.lookup 0 = some 13 ∧
    ∀ {α : Type} (A : Algebra α) (leaves : Leaves α), g₁.value A leaves 12 = g₂.value A leaves 13 := by
  have hleaf : squares.HasLeaf 1 := ⟨_, rfl, rfl⟩
  obtain ⟨hruns, hsame⟩ := differentiate_independent squares_built (by decide : 4 < squares.length)
    (by simpa using squares_leaf : ∀ x ∈ [0], squares.HasLeaf x)
    (by simpa using ⟨hleaf, squares_leaf, hleaf⟩ : ∀ x ∈ [1, 0, 1], squares.HasLeaf x) (by decide : 0 ∈ [0]) (by decide)
  obtain ⟨⟨⟨r, g₁⟩, hrun⟩, ⟨r', g₂⟩, hrun'⟩ := hruns squares_small
  obtain ⟨grads, grads', d, d', rfl, rfl, hd, hd', hvalue⟩ := hsame hrun hrun'
  have hnode : ∀ {ts : List Nat} {grads : Gradients} {g' : Graph}, (differentiate 4 ts).runOn squares = .ok (.ok grads, g') →
      grads.lookup 0 = ((differentiate 4 ts).runOn squares).toOption.bind fun r =>
        r.1.toOption.bind fun grads => grads.lookup 0 := by
    intro ts grads g' h
    rw [h]
    rfl
  have h12 := (hnode hrun).trans (by decide +kernel : _ = some 12)
  have h13 := (hnode hrun').trans (by decide +kernel : _ = some 13)
  cases hd.symm.trans h12
  cases hd'.symm.trans h13
  exact ⟨grads, grads', g₁, g₂, hrun, hd, hrun', hd', hvalue⟩

end TensorLoom
