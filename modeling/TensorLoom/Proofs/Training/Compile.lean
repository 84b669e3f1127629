import TensorLoom.Proofs.Lowering.Simultaneous
import TensorLoom.Proofs.Training.Descent
/-
# Compiled training steps

A training step compiles for every root of a graph that was built, unless a scratch buffer
is too large for memory; and it is gradient descent (`compile_descends`). An element count
that fits a word need not fit a storage: a loss of `2 ^ 61` elements cannot be allocated
(`compile_overlarge`).
-/

namespace TensorLoom

namespace Training

open Extend Build Lowering

/-! ## Handles -/

section
variable {g : Graph} {x : Nat}

theorem leafHandle_run (hg : g.WellFormed) (hx : g.HasLeaf x) (hsmall : Shape.size (g.shapeAt x) < Word.limit) :
    (leafHandle x).runOn g = .ok (.ok ⟨x, Shape.size (g.shapeAt x)⟩, g) := by
  obtain ⟨n, hn, hleaf⟩ := hx
  rw [Graph.shapeAt_of_node? hn] at hsmall ⊢
  have hhandle : g.leafHandle x = .ok (.ok ⟨x, Shape.size n.shape⟩) := by
    simp [Graph.leafHandle, Graph.node_eq_ok.2 hn, hleaf, Shape.elementCount_eq_ok (hg.positive hn) hsmall, bind, Except.bind,
      pure, Except.pure]
  rw [leafHandle, runOn_bind_ok (runOn_get g), hhandle]
  rfl

theorem leafHandles_run (hg : g.WellFormed) (hsmall : g.SizesBelow Word.limit) {xs : List Nat} (hxs : ∀ x ∈ xs, g.HasLeaf x) :
    (xs.mapM leafHandle).runOn g = .ok (.ok (xs.map fun x => ⟨x, Shape.size (g.shapeAt x)⟩), g) := by
  induction xs with
  | nil => rfl
  | cons x xs ih =>
    obtain ⟨hx, hxs⟩ := List.forall_mem_cons.1 hxs
    rw [List.mapM_cons, runOn_bind_ok (leafHandle_run hg hx (hsmall x hx.lt)), runOn_bind_ok (ih hxs)]
    rfl

end

/-! ## Compilation -/

section
variable {α : Type} {A : Arith α} {g g₂ g' : Graph} {root out : Nat} {rate : Float} {P : Plan} {p : Program}
  {grads : Gradients} {l : Lowering} {nodes : List Nat}

theorem runOn_compile (hrate : rate.isFinite = true) (hplan : (plan root rate).runOn g = .ok (.ok P, g'))
    (hlower : lowerPlan g' P = .ok (.ok (out, p))) :
    (compile A root rate (.machine A)).runOn g = (do
      let module ← (Extend.answer (TensorLoom.compile A p (.machine A))).adapt TrainError.compile
      let weights ← (P.weights.mapM leafHandle).adapt TrainError.graph
      let target ← (leafHandle P.target).adapt TrainError.graph
      return ⟨target, weights, P.loss, out, module⟩ : Extend TrainError (Training α)).runOn g' := by
  unfold compile
  simp only [hrate, Bool.not_true, Bool.false_eq_true, if_false]
  rw [runOn_bind_ok hplan, runOn_bind_ok (runOn_get _), runOn_bind_ok (runOn_adapt_ok (runOn_answer hlower _) _)]

theorem Planned.small {n : Nat} (hp : Planned g root rate P grads g₂ g') (hroot : root < g.length) (hsmall : g.SizesBelow n)
    (hn : 1 < n) : g'.SizesBelow n :=
  hp.appends.sizesBelow (hp.appends₂.sizesBelow (lossGraph_small hsmall hroot) hn) hn

theorem Planned.target_leaf (hp : Planned g root rate P grads g₂ g') : g'.HasLeaf P.target := by
  rw [hp.target]
  exact Graph.HasLeaf.grow ⟨_, node?_target g root, rfl⟩ (hp.appends₂.grows.trans hp.appends.grows)

theorem Planned.counts {n : Nat} (hp : Planned g root rate P grads g₂ g') (hroot : root < g.length) (hsmall : g.SizesBelow n)
    (hn : 1 < n) (id : Nat) : g'.CountsBelow n id :=
  (hp.small hroot hsmall hn).counts hn id

/-- Scratch of a step is too large only where some node of the graph is. -/
theorem Lowered.overlarge (hl : Lowered g' P.loss P.updates out l nodes) (hp : Planned g root rate P grads g₂ g')
    (hroot : root < g.length) {b f len : Nat} (hb : l.program.buffers[b]? = some ⟨.scratch f, len⟩)
    (hlen : largestStorage < len) : ∃ x < g.length, largestStorage < Shape.size (g.shapeAt x) :=
  hl.sound.overlarge (fun hn hsmall => hp.counts hroot hsmall hn) hb hlen

theorem compile_run (hg : g.WellFormed) (hsmall : g.SizesBelow 9223372036854775808) (hroot : root < g.length)
    (hrate : rate.isFinite = true) (A : Arith α) :
    ((compile A root rate (.machine A)).runOn g = .error .allocation ∧
      ∃ x < g.length, largestStorage < Shape.size (g.shapeAt x)) ∨
    ∃ t P grads g₂ g', (compile A root rate (.machine A)).runOn g = .ok (.ok t, g') ∧
      Compiled A g root rate P grads g₂ g' t ∧ t.target.id = P.target ∧ t.loss = P.loss ∧
      t.weights.map LeafHandle.id = P.weights := by
  have hword : g.SizesBelow Word.limit := fun x hx => Nat.lt_trans (hsmall x hx) (by decide)
  have hg₁ := (planLoss_grows root (planLoss_run hg hroot (hword root hroot))).wellFormed hg
  obtain ⟨P, grads, g₂, g', hplan, hp⟩ := plan_run hg hword hroot rate
  have hloss : P.loss < g'.length :=
    Nat.lt_of_lt_of_le hp.loss_lt (Nat.le_trans hp.appends₂.length_le hp.appends.length_le)
  obtain ⟨out, l, nodes, hlower, hl⟩ :=
    lowerPlan_run hp.wellFormed (hp.counts hroot hsmall (by decide)) hloss hp.updates hp.nodup
  rw [runOn_compile hrate hplan hlower, compile_machine A hl.valid]
  -- the program is accepted; all that can still fail is the allocation of its scratch
  rcases Module.create_ok_or_fault A l.program (.machine A l.program) with ⟨m, hm⟩ | ⟨hfault, b, f, len, hb, hlen⟩
  · right
    have hsmall' := hp.small hroot hword (by decide)
    have hhandles := leafHandles_run hp.wellFormed hsmall' fun w => hp.hasLeaf (n := w)
    have htarget := leafHandle_run hp.wellFormed hp.target_leaf (hsmall' _ hp.target_leaf.lt)
    obtain ⟨hprogram, hfits⟩ := Module.create_fits hm
    refine ⟨⟨⟨P.target, Shape.size (g'.shapeAt P.target)⟩, P.weights.map fun x => ⟨x, Shape.size (g'.shapeAt x)⟩, P.loss, out,
      m⟩, P, grads, g₂, g', ?_, ⟨hroot, hg₁, hp, ⟨l, nodes, hprogram, hl⟩,
      Module.create_interpreted hm, hfits⟩, rfl, rfl, ?_⟩
    · rw [hm, runOn_bind_ok (runOn_adapt_ok (runOn_answer (by rfl) g') _), runOn_bind_ok (runOn_adapt_ok hhandles _),
        runOn_bind_ok (runOn_adapt_ok htarget _), runOn_pure]
    · exact (List.map_map ..).trans (List.map_id _)
  · left
    rw [hfault]
    exact ⟨rfl, hl.overlarge hp hroot hb hlen⟩

end

/-- A training step of a root of a graph that was built compiles, unless a node of the graph is
larger than any storage and scratch cannot be allocated. It updates the weights that the root
depends on. Executions succeed while all leaves are bound as they should be; and where `n` of
them succeed with no two leaves in one storage, each yields the squared differences at the
contents before it, they go down the gradients `n` times, and no other leaf is changed. -/
theorem compile_descends {g : Graph} (hg : g.Built) (hsmall : g.SizesBelow 9223372036854775808) {root : Nat}
    (hroot : root < g.length) {rate : Float} (hrate : rate.isFinite = true) {α : Type} (A : Arith α) :
    ((compile A root rate (.machine A)).runOn g = .error .allocation ∧
      ∃ x < g.length, largestStorage < Shape.size (g.shapeAt x)) ∨
    ∃ (t : Training α) (g₁ g₂ g' : Graph) (grads : Gradients),
      (compile A root rate (.machine A)).runOn g = .ok (.ok t, g') ∧
      (planLoss root).runOn g = .ok (.ok (t.target.id, t.loss), g₁) ∧
      (differentiate t.loss (t.weights.map LeafHandle.id)).runOn g₁ = .ok (.ok grads, g₂) ∧
      (t.weights.map LeafHandle.id).Pairwise (· < ·) ∧
      (∀ w, w ∈ t.weights.map LeafHandle.id ↔ g.HasWeight w ∧ g.DependsOn root w) ∧
      ∀ (st : Store α) (held : List StorageId), st.Separate g' →
        (st.Binds g' held → ∀ n, ∃ r, run held n t st = .ok (.ok r)) ∧
        ∀ n losses st', run held n t st = .ok (.ok (losses, st')) →
          losses = (List.range n).map (fun k => squaredError A.toAlgebra g₁ root t.target.id
            ((descend A.toAlgebra g₂ grads rate)^[k] st.leaves)) ∧
          Descended A.toAlgebra g₂ grads rate g' (t.weights.map LeafHandle.id) n st st' ∧
          ∀ x, g'.HasLeaf x → x ∉ t.weights.map LeafHandle.id → st'.leaves x = st.leaves x := by
  have hwf := hg.wellFormed
  rcases compile_run hwf hsmall hroot hrate A with hfault | ⟨t, P, grads, g₂, g', hrun, h, htarget, hloss, hweights⟩
  · exact .inl hfault
  · have hp := h.planned
    have hsize : Shape.size (g.shapeAt root) < Word.limit := Nat.lt_trans (hsmall root hroot) (by decide)
    refine .inr ⟨t, lossGraph g root, g₂, g', grads, hrun, ?_, ?_, ?_, ?_, fun st held hsep => ⟨fun hbinds n => ?_, ?_⟩⟩
    · rw [planLoss_run hwf hroot hsize, htarget, hloss, hp.target, hp.loss]
    · rw [hloss, hweights]
      exact hp.gradients
    · rw [hweights]
      exact hp.increasing
    · rw [hweights]
      exact hp.weights
    · exact h.run_succeeds hbinds hsep n
    · intro n losses st' hruns
      rw [htarget, hweights]
      obtain ⟨hlosses, hdone⟩ := h.run_descends hsep hruns
      exact ⟨hlosses, hdone, fun x hx hnot => hdone.kept hsep (fun w => hp.hasLeaf) hx hnot⟩

/-- Integers; the only literals are -1, 0 and 1. -/
def integer : Arith ℤ where
  lit x := if x == 0.0 then 0 else if x == -1.0 then -1 else 1
  unary _ a := a
  binary
    | .add, a, b => a + b
    | .sub, a, b => a - b
    | .mul, a, b => a * b
    | _, a, _ => a
  fold _ a b := a + b

/-- A weight times an input. -/
def product : Graph := ⟨[⟨.weight, [2]⟩, ⟨.input, [2]⟩, ⟨.binary .mul 0 1, [2]⟩]⟩

theorem product_built : product.Built :=
  .call (.binary .mul 0 1) (.call (.input [2]) (.call (.weight [2]) .empty rfl) rfl) rfl

/-- The product with a target, the squared differences, and at node 12 the gradient of the
weight. -/
def productGradients : Graph :=
  ⟨(lossGraph product 2).nodes ++ [⟨.constant 1.0, [2]⟩, ⟨.binary .mul 6 4, [2]⟩, ⟨.binary .mul 6 4, [2]⟩,
    ⟨.binary .add 7 8, [2]⟩, ⟨.constant (-1.0), []⟩, ⟨.binary .mul 9 10, [2]⟩, ⟨.binary .mul 11 1, [2]⟩]⟩

/-- The weight, the input and the target, each in a storage of its own. -/
def productStore : Store ℤ where
  contents := #[#[3, 5], #[1, 2], #[4, 4]]
  names := [("w", 0), ("x", 1), ("y", 2)]
  bindings := [(0, 0), (1, 1), (3, 2)]

section
variable {t : Training ℤ} {g' : Graph} (hrun : (compile integer 2 1.0 (.machine integer)).runOn product = .ok (.ok t, g'))
include hrun

theorem product_weights : t.weights.map LeafHandle.id = [0] ∧ g'.HasLeaf 0 := by
  have hweights : ((compile integer 2 1.0 (.machine integer)).runOn product).toOption.any (fun r =>
      r.1.toOption.any (fun t => t.weights.map LeafHandle.id == [0]) && (r.2.node? 0).any (·.kind.isLeaf)) = true := by
    decide +kernel
  rw [hrun] at hweights
  obtain ⟨hids, hleaf⟩ := Bool.and_eq_true_iff.1 hweights
  exact ⟨beq_iff_eq.1 hids, (Option.any_eq_true ..).1 hleaf⟩

/-- The leaves of the step are the weight, the input and the target. -/
theorem product_leaves {n : Nat} (hn : g'.HasLeaf n) : n ∈ [0, 1, 3] ∧ g'.shapeAt n = [2] := by
  have hleaves : ((compile integer 2 1.0 (.machine integer)).runOn product).toOption.any
      (fun r => r.2.nodes.zipIdx.all fun (node, n) => !node.kind.isLeaf || ([0, 1, 3].contains n && node.shape == [2])) = true := by decide +kernel
  rw [hrun] at hleaves
  obtain ⟨node, hnode, hleaf⟩ := hn
  have hfound := List.all_eq_true.1 hleaves (node, n) (List.mk_mem_zipIdx_iff_getElem?.2 hnode)
  rw [Graph.shapeAt_of_node? hnode]
  simpa [hleaf] using hfound

end

theorem compile_descends_product :
    ∃ t g' losses st', (compile integer 2 1.0 (.machine integer)).runOn product = .ok (.ok t, g') ∧
      run [] 2 t productStore = .ok (.ok (losses, st')) ∧ losses = [#[1, 36], #[1, 1764]] ∧
      st'.leaves 0 = #[3, 149] := by
  have hsmall : product.SizesBelow largestStorage := by
    intro x hx
    have hlt : x < 3 := hx
    interval_cases x <;> decide
  rcases compile_descends product_built (fun x hx => Nat.lt_trans (hsmall x hx) (by decide)) (by decide : 2 < product.length)
    (by decide +kernel : (1.0 : Float).isFinite = true) integer with
    ⟨-, x, hx, hlarge⟩ | ⟨t, g₁, g₂, g', grads, hrun, hloss, hgrads, -, -, hsteps⟩
  · exact absurd (hsmall x hx) (Nat.not_lt.2 (Nat.le_of_lt hlarge))
  · have hsep : productStore.Separate g' := by
      intro n n' s hn hn' hs hs'
      have hinj : ∀ n ∈ [0, 1, 3], ∀ n' ∈ [0, 1, 3], productStore.bound? n = productStore.bound? n' → n = n' := by decide
      exact hinj n (product_leaves hrun hn).1 n' (product_leaves hrun hn').1 (hs.trans hs'.symm)
    have hbinds : productStore.Binds g' [] := by
      intro n node hn hleaf
      obtain ⟨hmem, hshape⟩ := product_leaves hrun ⟨node, hn, hleaf⟩
      rw [Graph.shapeAt_of_node? hn] at hshape
      have hbound : ∀ n ∈ [0, 1, 3], (productStore.bound? n).any (fun s => (productStore.values s).size == 2) = true := by
        decide
      obtain ⟨s, hs, hsize⟩ := (Option.any_eq_true ..).1 (hbound n hmem)
      exact ⟨s, hs, (beq_iff_eq.1 hsize).trans (hshape ▸ rfl), List.not_mem_nil⟩
    obtain ⟨hsucceeds, hdescends⟩ := hsteps productStore [] hsep
    obtain ⟨hweights, hleaf⟩ := product_weights hrun
    obtain ⟨⟨losses, st'⟩, hruns⟩ := hsucceeds hbinds 2
    obtain ⟨hlosses, hdone, -⟩ := hdescends 2 losses st' hruns
    have hplan : (planLoss 2).runOn product = .ok (.ok (3, 5), lossGraph product 2) := rfl
    obtain ⟨⟨htarget, hnode⟩, rfl⟩ : (t.target.id = 3 ∧ t.loss = 5) ∧ g₁ = lossGraph product 2 := by
      simpa [hplan, eq_comm] using hloss
    have hgradient : (differentiate 5 [0]).runOn (lossGraph product 2) = .ok (.ok [(0, 12)], productGradients) := rfl
    obtain ⟨rfl, rfl⟩ : grads = [(0, 12)] ∧ g₂ = productGradients := by
      simpa [hnode, hweights, hgradient, eq_comm] using hgrads
    refine ⟨t, g', losses, st', hrun, hruns, ?_, ?_⟩
    · rw [hlosses, htarget]
      decide +kernel
    · rw [hdone.leaves 0 hleaf]
      decide +kernel

/-- A single weight of `2 ^ 61` elements. -/
def overlarge : Graph := ⟨[⟨.weight, [2305843009213693952]⟩]⟩

/-- Its squared differences cannot be allocated, although every element count is below
`2 ^ 63`. -/
theorem compile_overlarge :
    overlarge.Built ∧ overlarge.SizesBelow 9223372036854775808 ∧ 0 < overlarge.length ∧ (0.1 : Float).isFinite = true ∧
      (compile integer 0 0.1 (.machine integer)).runOn overlarge = .error .allocation := by
  have hbuilt : overlarge.Built := .call (.weight [2305843009213693952]) .empty rfl
  have hsmall : overlarge.SizesBelow 9223372036854775808 := by
    intro x hx
    obtain rfl : x = 0 := Nat.lt_one_iff.1 hx
    decide
  have hfinite : (0.1 : Float).isFinite = true := by decide +kernel
  refine ⟨hbuilt, hsmall, by decide, hfinite, ?_⟩
  have hrefused : ((compile integer 0 0.1 (.machine integer)).runOn overlarge).isOk = false := by decide +kernel
  rcases compile_run hbuilt.wellFormed hsmall (by decide : 0 < overlarge.length) hfinite integer with
    ⟨hfault, -⟩ | ⟨t, P, grads, g₂, g', hok, -⟩
  · exact hfault
  · rw [hok] at hrefused
    cases hrefused

end Training

end TensorLoom
