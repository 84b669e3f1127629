import Mathlib.Data.List.Sort
import TensorLoom.Proofs.Gradient.Differentiate
import TensorLoom.Proofs.Graph.Calls
import TensorLoom.Proofs.Graph.Reach
/-
# The plan of a training step

What a training step appends to a graph: a target and the squared differences from the
root, the gradients of the weights that the root depends on, and for each of them its next
value (`plan_run`).
-/

namespace TensorLoom

theorem Graph.HasLeaf.grow {g g' : Graph} {x : Nat} (h : g.HasLeaf x) (hext : g.Extends g') : g'.HasLeaf x := by
  obtain ⟨n, hn, hleaf⟩ := h
  exact ⟨n, (hext.node? (Graph.node?_lt hn)).trans hn, hleaf⟩

theorem Graph.HasWeight.hasLeaf {g : Graph} {x : Nat} (h : g.HasWeight x) : g.HasLeaf x := by
  obtain ⟨⟨kind, s⟩, hn, hkind⟩ := h
  cases kind with
  | weight => exact ⟨_, hn, rfl⟩
  | _ => cases hkind

namespace Training

open Extend Build

/-! ## The loss -/

/-- The graph with a target for the root and their squared differences. -/
def lossGraph (g : Graph) (root : Nat) : Graph :=
  ((g.push .input (g.shapeAt root)).push (.binary .sub g.length root) (g.shapeAt root)).push
    (.binary .mul (g.length + 1) (g.length + 1)) (g.shapeAt root)

section
variable {g : Graph} {root : Nat}

theorem lossGraph_extends (g : Graph) (root : Nat) : g.Extends (lossGraph g root) :=
  ((Graph.extends_push _ _ _).trans (Graph.extends_push _ _ _)).trans (Graph.extends_push _ _ _)

theorem length_lossGraph (g : Graph) (root : Nat) : (lossGraph g root).length = g.length + 3 := by
  simp only [lossGraph, Graph.length_push]

theorem node?_target (g : Graph) (root : Nat) : (lossGraph g root).node? g.length = some ⟨.input, g.shapeAt root⟩ := by
  simp [lossGraph, Graph.node?, Graph.push, Graph.length]

theorem node?_difference (g : Graph) (root : Nat) :
    (lossGraph g root).node? (g.length + 1) = some ⟨.binary .sub g.length root, g.shapeAt root⟩ := by
  simp [lossGraph, Graph.node?, Graph.push, Graph.length]

theorem node?_loss (g : Graph) (root : Nat) :
    (lossGraph g root).node? (g.length + 2) = some ⟨.binary .mul (g.length + 1) (g.length + 1), g.shapeAt root⟩ := by
  simp [lossGraph, Graph.node?, Graph.push, Graph.length]

theorem planLoss_run (hg : g.WellFormed) (hroot : root < g.length) (hsmall : Shape.size (g.shapeAt root) < Word.limit) :
    (planLoss root).runOn g = .ok (.ok (g.length, g.length + 2), lossGraph g root) := by
  obtain ⟨node, hn⟩ := Graph.exists_node? hroot
  have hpos := hg.shapeAt_positive root
  have hinput : (input (g.shapeAt root)).runOn g = .ok (.ok g.length, g.push .input (g.shapeAt root)) := by
    unfold input leaf
    rw [Shape.validate_eq_ok_iff.2 hpos, runOn_bind_ok (runOn_rule_ok "input" () g), runOn_bind_ok (runOn_push ..),
      Shape.elementCount_eq_ok hpos hsmall]
    rfl
  have hdifference : (binary .sub g.length root).runOn (g.push .input (g.shapeAt root)) =
      .ok (.ok (g.length + 1), (g.push .input (g.shapeAt root)).push (.binary .sub g.length root) (g.shapeAt root)) := by
    have htarget : (g.push .input (g.shapeAt root)).shapeAt g.length = g.shapeAt root :=
      Graph.shapeAt_of_node? (Graph.node?_push_self ..)
    have hkept := (Graph.extends_push g .input (g.shapeAt root)).shapeAt hroot
    rw [← Graph.length_push g .input (g.shapeAt root)]
    refine runOn_binary .sub ?_ ?_ (by rw [htarget, hkept, Shape.broadcast_self])
    · rw [Graph.length_push]
      omega
    · rw [Graph.length_push]
      omega
  have hloss : (square (g.length + 1)).runOn
      ((g.push .input (g.shapeAt root)).push (.binary .sub g.length root) (g.shapeAt root)) =
      .ok (.ok (g.length + 2), lossGraph g root) := by
    have hshape : ((g.push .input (g.shapeAt root)).push (.binary .sub g.length root) (g.shapeAt root)).shapeAt
        (g.length + 1) = g.shapeAt root := by
      rw [← Graph.length_push g .input (g.shapeAt root)]
      exact Graph.shapeAt_of_node? (Graph.node?_push_self ..)
    have hlt : g.length + 1 < ((g.push .input (g.shapeAt root)).push (.binary .sub g.length root) (g.shapeAt root)).length := by
      rw [Graph.length_push, Graph.length_push]
      omega
    have hrun := runOn_binary .mul hlt hlt (by rw [hshape, Shape.broadcast_self])
    rw [Graph.length_push, Graph.length_push] at hrun
    exact hrun
  unfold planLoss
  rw [runOn_bind_ok (runOn_shapeOf hn), ← Graph.shapeAt_of_node? hn, runOn_bind_ok hinput, runOn_bind_ok hdifference,
    runOn_bind_ok hloss, runOn_pure]

/-- The weights that the loss depends on are those of the root. -/
theorem dependsOn_loss (hg : g.WellFormed) (hroot : root < g.length) {w : Nat} :
    (lossGraph g root).HasWeight w ∧ (lossGraph g root).DependsOn (g.length + 2) w ↔ g.HasWeight w ∧ g.DependsOn root w := by
  have hext := lossGraph_extends g root
  have hloss := Graph.operandsOf_eq (node?_loss g root)
  have hdifference := Graph.operandsOf_eq (node?_difference g root)
  have htarget := Graph.operandsOf_eq (node?_target g root)
  have hnot : ∀ {x : Nat} {node : Node}, (lossGraph g root).node? x = some node → node.kind.isWeight = false →
      ¬ (lossGraph g root).HasWeight x := by
    rintro x node hn hkind ⟨node', hn', hkind'⟩
    rw [Option.some.inj (hn.symm.trans hn'), hkind'] at hkind
    cases hkind
  constructor
  · rintro ⟨hweight, hdepends⟩
    obtain ⟨y, hy, hdepends⟩ : ∃ y ∈ [g.length, root], (lossGraph g root).DependsOn y w := by
      cases hdepends with
      | refl => exact absurd hweight (hnot (node?_loss g root) rfl)
      | operand hx hdepends =>
        obtain rfl : _ = g.length + 1 := by simpa [hloss, Kind.operands] using hx
        cases hdepends with
        | refl => exact absurd hweight (hnot (node?_difference g root) rfl)
        | operand hy hdepends =>
          rw [hdifference] at hy
          exact ⟨_, hy, hdepends⟩
    rcases List.mem_pair.1 hy with rfl | rfl
    · cases hdepends with
      | refl => exact absurd hweight (hnot (node?_target g root) rfl)
      | operand hx _ =>
        rw [htarget] at hx
        cases hx
    · have hold := (hext.dependsOn hg hroot).1 hdepends
      obtain ⟨n, hn, hkind⟩ := hweight
      rw [hext.node? (Nat.lt_of_le_of_lt (hg.dependsOn_le hold) hroot)] at hn
      exact ⟨⟨n, hn, hkind⟩, hold⟩
  · rintro ⟨⟨n, hn, hkind⟩, hdepends⟩
    refine ⟨⟨n, (hext.node? (Graph.node?_lt hn)).trans hn, hkind⟩, ?_⟩
    have hroot' := (hext.dependsOn hg hroot).2 hdepends
    refine .operand (x := g.length + 1) ?_ (.operand (x := root) ?_ hroot')
    · simp [hloss, Kind.operands]
    · simp [hdifference, Kind.operands]

theorem lossGraph_small {n : Nat} (hsmall : g.SizesBelow n) (hroot : root < g.length) : (lossGraph g root).SizesBelow n := by
  intro x hx
  rw [length_lossGraph] at hx
  have hnew : ∀ {kind}, (lossGraph g root).node? x = some ⟨kind, g.shapeAt root⟩ →
      Shape.size ((lossGraph g root).shapeAt x) < n := by
    intro kind hn
    rw [Graph.shapeAt_of_node? hn]
    exact hsmall root hroot
  by_cases hold : x < g.length
  · rw [(lossGraph_extends g root).shapeAt hold]
    exact hsmall x hold
  · obtain rfl | rfl | rfl : x = g.length ∨ x = g.length + 1 ∨ x = g.length + 2 := by omega
    · exact hnew (node?_target g root)
    · exact hnew (node?_difference g root)
    · exact hnew (node?_loss g root)

end

/-! ## The updates -/

/-- A weight and its gradient: a node of its own, of the shape of the weight. -/
structure Updatable (g : Graph) (w d : Nat) : Prop where
  weight : g.HasWeight w
  lt : d < g.length
  inner : ¬ g.HasLeaf d
  shape : g.shapeAt d = g.shapeAt w

/-- The next value of the weight is the weight less its gradient times the rate. -/
structure Update (g : Graph) (rate : Float) (w d next : Nat) : Prop extends Updatable g w d where
  next : ∃ step factor, g.node? factor = some ⟨.constant rate, []⟩ ∧
    g.node? step = some ⟨.binary .mul d factor, g.shapeAt w⟩ ∧
    g.node? next = some ⟨.binary .sub w step, g.shapeAt w⟩

section
variable {g g' : Graph} {rate : Float} {w d next : Nat}

theorem Updatable.grow (h : Updatable g w d) (happ : g.Appends g') : Updatable g' w d := by
  obtain ⟨n, hn, hkind⟩ := h.weight
  refine ⟨⟨n, (happ.grows.node? (Graph.node?_lt hn)).trans hn, hkind⟩, Nat.lt_of_lt_of_le h.lt happ.length_le, ?_, ?_⟩
  · rintro ⟨n', hn', hleaf⟩
    exact h.inner ⟨n', (happ.grows.node? h.lt).symm.trans hn', hleaf⟩
  · rw [happ.grows.shapeAt h.lt, happ.grows.shapeAt (Graph.node?_lt hn), h.shape]

theorem Update.grow (h : Update g rate w d next) (happ : g.Appends g') : Update g' rate w d next := by
  have hkeep : ∀ {x : Nat} {n : Node}, g.node? x = some n → g'.node? x = some n := fun hn =>
    (happ.grows.node? (Graph.node?_lt hn)).trans hn
  obtain ⟨step, factor, hfactor, hstep, hnext⟩ := h.next
  refine ⟨h.toUpdatable.grow happ, step, factor, hkeep hfactor, ?_, ?_⟩
  · rw [hkeep hstep, happ.grows.shapeAt h.weight.lt]
  · rw [hkeep hnext, happ.grows.shapeAt h.weight.lt]

theorem forall₂_right {β γ : Type} {f : γ → β} {R : γ → Prop} {xs : List β} {ys : List γ}
    (h : List.Forall₂ (fun x y => f y = x ∧ R y) xs ys) : ys.map f = xs ∧ ∀ y ∈ ys, R y := by
  induction h with
  | nil => exact ⟨rfl, fun _ hy => by cases hy⟩
  | cons h _ ih => exact ⟨by rw [List.map_cons, h.1, ih.1], List.forall_mem_cons.2 ⟨h.2, ih.2⟩⟩

theorem planUpdates_makes (hg : g.WellFormed) (rate : Float) {grads : Gradients}
    (hgrads : ∀ entry ∈ grads, Updatable g entry.1 entry.2) :
    (planUpdates rate grads).Makes g fun updates g' =>
      updates.map (fun u => (u.1, u.2.1)) = grads ∧ ∀ u ∈ updates, Update g' rate u.1 u.2.1 u.2.2 := by
  unfold planUpdates
  have hconstant : (constant rate).Makes g fun c g' => g'.node? c = some ⟨.constant rate, []⟩ :=
    push_makes hg (by simp [Kind.operands]) Shape.positive_nil trivial rfl (.inl (by decide))
  refine Makes.bind hconstant fun {factor g₁} hg₁ happ₁ hfactor => ?_
  refine Makes.mono (Makes.mapM (R := fun (entry : Nat × Nat) (u : Nat × Nat × Nat) g' =>
    (u.1, u.2.1) = entry ∧ Update g' rate u.1 u.2.1 u.2.2) (fun happ hR => ⟨hR.1, hR.2.grow happ⟩) hg₁ ?_)
    fun _ h => forall₂_right h
  rintro ⟨w, d⟩ hmem g₂ hg₂ happ₂
  have hwd := ((hgrads _ hmem).grow happ₁).grow happ₂
  have hfactor₂ : g₂.node? factor = some ⟨.constant rate, []⟩ :=
    (happ₂.grows.node? (Graph.node?_lt hfactor)).trans hfactor
  have hjoin : Shape.broadcast (g₂.shapeAt d) (g₂.shapeAt factor) = .ok (g₂.shapeAt w) := by
    rw [Graph.shapeAt_of_node? hfactor₂, hwd.shape]
    exact (Shape.broadcast_of_stretches (.nil _)).2
  have hcovers := Graph.covers_node hwd.weight.lt
  refine Makes.bind (binary_makes hg₂ .mul hwd.lt (Graph.node?_lt hfactor₂) hjoin hcovers)
    fun {step g₃} hg₃ happ₃ hstep => ?_
  have hwd₃ := hwd.grow happ₃
  have hweight₃ := happ₃.grows.shapeAt hwd.weight.lt
  rw [← hweight₃] at hstep
  have hjoin₃ : Shape.broadcast (g₃.shapeAt w) (g₃.shapeAt step) = .ok (g₃.shapeAt w) := by
    rw [Graph.shapeAt_of_node? hstep, Shape.broadcast_self]
  refine Makes.bind (binary_makes hg₃ .sub hwd₃.weight.lt (Graph.node?_lt hstep) hjoin₃ (Graph.covers_node hwd₃.weight.lt))
    fun {next g₄} hg₄ happ₄ hnext => ?_
  have hkeep : ∀ {x : Nat} {n : Node}, g₃.node? x = some n → g₄.node? x = some n := fun hn =>
    (happ₄.grows.node? (Graph.node?_lt hn)).trans hn
  have hweight₄ := happ₄.grows.shapeAt hwd₃.weight.lt
  refine Makes.pure hg₄ ⟨rfl, hwd₃.grow happ₄, step, factor, ?_, ?_, ?_⟩
  · exact hkeep ((happ₃.grows.node? (Graph.node?_lt hfactor₂)).trans hfactor₂)
  · rw [hkeep hstep, hweight₄]
  · rw [hnext, hweight₄]

end

/-! ## The plan -/

/-- What is planned for a root: `g₂` is the graph with the gradients, `g'` that with all of the
plan. -/
structure Planned (g : Graph) (root : Nat) (rate : Float) (plan : Plan) (grads : Gradients) (g₂ g' : Graph) : Prop where
  target : plan.target = g.length
  loss : plan.loss = g.length + 2
  increasing : plan.weights.Pairwise (· < ·)
  weights : ∀ w, w ∈ plan.weights ↔ g.HasWeight w ∧ g.DependsOn root w
  gradients : (differentiate plan.loss plan.weights).runOn (lossGraph g root) = .ok (.ok grads, g₂)
  keys : grads.map Prod.fst = plan.weights
  lt : ∀ {w d : Nat}, (w, d) ∈ grads → d < g₂.length
  wellFormed₂ : g₂.WellFormed
  appends₂ : (lossGraph g root).Appends g₂
  wellFormed : g'.WellFormed
  appends : g₂.Appends g'
  entries : plan.updates.map (fun u => (u.1, u.2.1)) = grads
  updates : ∀ u ∈ plan.updates, Update g' rate u.1 u.2.1 u.2.2

section
variable {g g₂ g' : Graph} {root : Nat} {rate : Float} {P : Plan} {grads : Gradients}

theorem Planned.loss_lt (hp : Planned g root rate P grads g₂ g') : P.loss < (lossGraph g root).length :=
  hp.loss ▸ Graph.node?_lt (node?_loss g root)

theorem Planned.nodup (hp : Planned g root rate P grads g₂ g') : (P.updates.map Prod.fst).Nodup := by
  have hkeys : P.updates.map Prod.fst = P.weights := by
    rw [← hp.keys, ← hp.entries, List.map_map]
    rfl
  rw [hkeys]
  exact hp.increasing.imp Nat.ne_of_lt

end

theorem plan_run {g : Graph} (hg : g.WellFormed) (hsmall : g.SizesBelow Word.limit) {root : Nat} (hroot : root < g.length)
    (rate : Float) :
    ∃ P grads g₂ g', (plan root rate).runOn g = .ok (.ok P, g') ∧ Planned g root rate P grads g₂ g' := by
  have hrun₁ := planLoss_run hg hroot (hsmall root hroot)
  have hg₁ := (planLoss_grows root hrun₁).wellFormed hg
  have hsmall₁ := lossGraph_small hsmall hroot
  have hloss : g.length + 2 < (lossGraph g root).length := Graph.node?_lt (node?_loss g root)
  obtain ⟨weights, hweights, hincreasing, hmem⟩ := Graph.weightsOf_eq_ok hg₁ hloss
  have hmem' : ∀ w, w ∈ weights ↔ g.HasWeight w ∧ g.DependsOn root w := fun w =>
    (hmem w).trans (dependsOn_loss hg hroot)
  have hweight : ∀ w ∈ weights, (lossGraph g root).HasWeight w := fun w hw => ((hmem w).1 hw).1
  have hleaves : ∀ w ∈ weights, (lossGraph g root).HasLeaf w := fun w hw => (hweight w hw).hasLeaf
  obtain ⟨grads, g₂, hrun₂, hg₂, happ₂, hincreasing₂, hkeys₂, hentries⟩ := differentiate_ok hg₁ hsmall₁ hloss hleaves
  have hgrads : ∀ entry ∈ grads, Updatable g₂ entry.1 entry.2 := by
    rintro ⟨w, d⟩ hmem
    obtain ⟨hshape, -, hlt, hinner⟩ := hentries w d hmem
    obtain ⟨n, hn, hkind⟩ := hweight w ((hkeys₂ w).1 (List.mem_map_of_mem hmem))
    have hw := Graph.node?_lt hn
    exact ⟨⟨n, (happ₂.grows.node? hw).trans hn, hkind⟩, hlt, hinner, hshape.trans (happ₂.grows.shapeAt hw).symm⟩
  have hmakes := planUpdates_makes hg₂ rate hgrads
  obtain ⟨r, hrun₃⟩ := hmakes.run (happ₂.sizesBelow hsmall₁ (by decide))
  obtain ⟨updates, g', rfl, hg', happ', hentries', hupdates⟩ := hmakes.of_run hrun₃
  refine ⟨⟨g.length, g.length + 2, weights, updates⟩, grads, g₂, g', ?_, rfl, rfl, hincreasing, hmem', hrun₂, ?_,
    fun hentry => (hentries _ _ hentry).2.2.1, hg₂, happ₂, hg', happ', ?_, ?_⟩
  · unfold plan
    have hrequest : (Extend.request ((lossGraph g root).weightsOf (g.length + 2))).runOn (lossGraph g root) =
        .ok (.ok weights, lossGraph g root) := by
      rw [runOn_request, hweights]
    rw [runOn_bind_ok (runOn_adapt_ok hrun₁ _), runOn_bind_ok (runOn_get _), runOn_bind_ok (runOn_adapt_ok hrequest _),
      runOn_bind_ok (runOn_adapt_ok hrun₂ _), runOn_bind_ok (runOn_adapt_ok hrun₃ _), runOn_pure]
  · exact hincreasing₂.eq_of_mem_iff hincreasing fun {t} => hkeys₂ t
  · exact hentries'
  · exact hupdates

end Training

end TensorLoom
