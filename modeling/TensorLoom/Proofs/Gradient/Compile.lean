import TensorLoom.Proofs.Gradient.Differentiate
import TensorLoom.Proofs.Lowering.Simultaneous
import TensorLoom.Proofs.Module.Compile
/-
# Compiled gradients

A root and its gradients are lowered into one program, which overwrites no leaf
(`lowerWithGradients_run`). Compilation is refused exactly if the root is missing or a
target is not a leaf. Otherwise an execution yields the value of the root and the values of
the gradients that were asked for, and of no others (`compileGraph_delivers`).
-/

namespace TensorLoom

namespace Lowering

open StepM

/-- The buffer is scratch, and holds the node. -/
def ScratchOf (p : Program) (nodes : List Nat) (id b : Nat) : Prop :=
  ∃ f len, p.buffers[b]? = some ⟨.scratch f, len⟩ ∧ nodes[f]? = some id

/-- A root is the result, every gradient has its buffer, and no leaf is overwritten. -/
structure Delivers (g : Graph) (root : Nat) (grads : Gradients) (buffers : List (NodeId × BufferId)) (l : Lowering)
    (nodes : List Nat) : Prop where
  sound : Sound g l nodes
  kept : ∀ n, ¬ l.program.Overwrites n
  output : ∃ out, l.program.output = some out ∧ ScratchOf l.program nodes root out
  gradients : List.Forall₂ (fun grad entry => entry.1 = grad.1 ∧ ScratchOf l.program nodes grad.2 entry.2) grads buffers

section
variable {g : Graph} {root : Nat} {grads : Gradients} {buffers : List (NodeId × BufferId)} {l l' : Lowering}
  {nodes nodes' : List Nat}

theorem Advances.scratchOf {new : Nat → Nat → Prop} (h : Advances l l' nodes nodes' new) {id b : Nat}
    (hb : ScratchOf l.program nodes id b) : ScratchOf l'.program nodes' id b := by
  obtain ⟨f, len, hb, hf⟩ := hb
  exact ⟨f, len, getElem?_mono h.buffers hb, getElem?_mono h.listed hf⟩

/-- Gradients, which are no leaves, are computed into scratch one after the other. -/
theorem gradients_run (hg : g.WellFormed) (hcounts : ∀ id, g.CountsBelow 9223372036854775808 id) (hs : Sound g l nodes)
    (hgrads : ∀ grad ∈ grads, grad.2 < g.length ∧ ¬ g.HasLeaf grad.2) :
    ∃ buffers l' nodes',
      (grads.mapM fun (leaf, grad) => return (leaf, ← materialize g grad) : StepM (List (NodeId × BufferId))).runOn l =
        .ok (.ok buffers, l') ∧ Sound g l' nodes' ∧ Advances l l' nodes nodes' (fun _ _ => False) ∧
      l'.program.output = l.program.output ∧
      List.Forall₂ (fun grad entry => entry.1 = grad.1 ∧ ScratchOf l'.program nodes' grad.2 entry.2) grads buffers := by
  induction grads generalizing l nodes with
  | nil => exact ⟨[], l, nodes, rfl, hs, (Grows.refl g l nodes).advances hs, rfl, .nil⟩
  | cons grad grads ih =>
    obtain ⟨t, d⟩ := grad
    obtain ⟨⟨hlt, hinner⟩, hgrads⟩ := List.forall_mem_cons.1 hgrads
    obtain ⟨node, hn⟩ := Graph.exists_node? hlt
    have hleaf : node.kind.isLeaf = false := Bool.eq_false_iff.2 fun h => hinner ⟨node, hn, h⟩
    obtain ⟨b, l₁, nodes₁, hrun₁, hs₁, hadvances₁, hout₁, -, howner⟩ := materialize_run hg hn (hcounts d) hs
    have hb : ScratchOf l₁.program nodes₁ d b := hs₁.owner?_scratch hn hleaf howner
    obtain ⟨buffers, l₂, nodes₂, hrun₂, hs₂, hadvances₂, hout₂, hall⟩ := ih hs₁ hgrads
    have hrun : (return (t, ← materialize g d) : StepM (NodeId × BufferId)).runOn l = .ok (.ok (t, b), l₁) :=
      runOn_bind_ok hrun₁
    refine ⟨(t, b) :: buffers, l₂, nodes₂, ?_, hs₂, (hadvances₁.trans hadvances₂).congr fun _ _ => or_self_iff,
      hout₂.trans hout₁, .cons ⟨rfl, hadvances₂.scratchOf hb⟩ hall⟩
    rw [List.mapM_cons, runOn_bind_ok hrun, runOn_bind_ok hrun₂]
    rfl

theorem lowerWithGradients_run (hg : g.WellFormed) (hcounts : ∀ id, g.CountsBelow 9223372036854775808 id)
    (hroot : root < g.length) (hgrads : ∀ grad ∈ grads, grad.2 < g.length ∧ ¬ g.HasLeaf grad.2) :
    ∃ buffers l nodes, lowerWithGradients g root grads = .ok (.ok (buffers, l.program)) ∧ l.program.Valid ∧
      Delivers g root grads buffers l nodes := by
  obtain ⟨node, hn⟩ := Graph.exists_node? hroot
  obtain ⟨out, l₁, nodes₁, f, len, hrun₁, hs₁, hadvances₁, hout₁, hb, hf⟩ := output_run hg hn (hcounts root) (sound_empty g)
  obtain ⟨buffers, l₂, nodes₂, hrun₂, hs₂, hadvances₂, hout₂, hall⟩ := gradients_run hg hcounts hs₁ hgrads
  have hout := hout₂.trans hout₁
  have hscratch : ScratchOf l₂.program nodes₂ root out := hadvances₂.scratchOf ⟨f, len, hb, hf⟩
  have hkept : ∀ n, ¬ l₂.program.Overwrites n := by
    intro n hn
    obtain ⟨v, hv⟩ := hs₂.assigns hn
    rcases (hadvances₁.trans hadvances₂).assigns.1 hv with ⟨f, fn, linked, len, hfn, -⟩ | hfalse | hfalse
    · simp at hfn
    · exact hfalse
    · exact hfalse
  have hvalid : l₂.program.Valid := by
    obtain ⟨f, len, hb, -⟩ := hscratch
    exact hs₂.valid hout (List.getElem?_eq_some_iff.1 hb).1 fun _ =>
      ⟨fun b _ => Program.untouched_of_kept hkept _ b, Program.untouched_of_kept hkept _ _⟩
  refine ⟨buffers, l₂, nodes₂, ?_, hvalid, hs₂, hkept, ⟨out, hout, hscratch⟩, hall⟩
  have hsteps : (do
      let _ ← Lowering.output g root
      grads.mapM fun (leaf, grad) => return (leaf, ← materialize g grad) :
        StepM (List (NodeId × BufferId))).runOn {} = .ok (.ok buffers, l₂) := by
    rw [runOn_bind_ok hrun₁, hrun₂]
  exact complete_eq_ok hsteps hvalid

/-- Tables of the same keys are looked up alike. -/
theorem lookup_rel {R : Nat → Nat → Prop} {xs ys : List (Nat × Nat)}
    (h : List.Forall₂ (fun x y => y.1 = x.1 ∧ R x.2 y.2) xs ys) (t : Nat) : Option.Rel R (xs.lookup t) (ys.lookup t) := by
  induction h with
  | nil => exact .none
  | @cons x y _ _ hxy _ ih =>
    obtain ⟨t', d⟩ := x
    obtain ⟨t'', b⟩ := y
    obtain ⟨rfl, hb⟩ := hxy
    by_cases ht : t = t''
    · rw [ht, lookup_cons_self, lookup_cons_self]
      exact .some hb
    · rw [lookup_cons_ne _ ht, lookup_cons_ne _ ht]
      exact ih

section
variable {α : Type} {A : Arith α} {m m' : Module α} {st st' : Store α}

theorem ScratchOf.buffer? (hexecuted : Module.Executed g A nodes m st m' st') (hm : m.program = l.program) {id b : Nat}
    (h : ScratchOf l.program nodes id b) : m'.buffer? b = some (g.value A.toAlgebra st.leaves id).toArray := by
  obtain ⟨f, len, hb, hf⟩ := h
  rw [← hm] at hb
  rw [Module.buffer?, hexecuted.program, hb]
  exact hexecuted.scratch hb hf

/-- An execution leaves the value of the root in the result and those of the gradients in their
buffers, and the store as it was. -/
theorem Delivers.execute (hg : g.WellFormed) (h : Delivers g root grads buffers l nodes) (hvalid : l.program.Valid)
    (hm : m.program = l.program) (hkernel : m.Interpreted A) (hfits : m.Fits) {held : List StorageId}
    (hcan : m.CanRun st held) :
    ∃ m', m.execute st held = .ok (.ok (), m', st) ∧ m'.output = (g.value A.toAlgebra st.leaves root).toArray ∧
      ∀ t, (buffers.lookup t).bind m'.buffer? =
        (grads.lookup t).map fun d => (g.value A.toAlgebra st.leaves d).toArray := by
  obtain ⟨m', st', hexecute, hexecuted⟩ := Module.execute_ok hg h.sound hvalid hm hfits hcan
    (fun hover => absurd (hm ▸ hover) (h.kept _)) hkernel
  obtain rfl := hexecuted.store_eq (hm ▸ h.kept)
  refine ⟨m', hexecute, ?_, fun t => ?_⟩
  · obtain ⟨out, hout, hscratch⟩ := h.output
    rw [Module.output, hexecuted.program, hm, hout, Option.bind_some, hscratch.buffer? hexecuted hm]
    rfl
  · have hlookup := lookup_rel (R := ScratchOf l.program nodes) h.gradients t
    generalize grads.lookup t = x, buffers.lookup t = y at hlookup
    cases hlookup with
    | none => rfl
    | some hscratch => exact hscratch.buffer? hexecuted hm

end

end

end Lowering

open Extend Build Lowering

/-- The gradients by `targets`; nothing is appended where none are asked for. -/
def gradientsFor (root : Nat) (targets : List Nat) : Extend CompileGraphError Gradients :=
  if targets = [] then pure [] else (differentiate root targets).adapt CompileGraphError.gradient

/-- Compilation in its four stages. -/
theorem compileGraph_eq {α : Type} (A : Arith α) (root : Nat) (targets : List Nat) (backend : Backend α) :
    compileGraph A root targets backend = (do
      let _ ← (node root).adapt CompileGraphError.graph
      let grads ← gradientsFor root targets
      let g ← get
      let (gradients, p) ← (answer (lowerWithGradients g root grads)).adapt CompileGraphError.lower
      let module ← (answer (compile A p backend)).adapt CompileGraphError.compile
      return ⟨module, root, gradients⟩) := by
  unfold compileGraph gradientsFor
  by_cases h : targets = []
  · simp only [if_pos h]
  · simp only [if_neg h]

section
variable {g : Graph} {root : Nat} {targets : List Nat} {α : Type}

theorem runOn_gradientsFor (hg : g.WellFormed) (hsmall : g.SizesBelow Word.limit) (hroot : root < g.length)
    (htargets : ∀ t ∈ targets, g.HasLeaf t) :
    ∃ grads g' g₁, (gradientsFor root targets).runOn g = .ok (.ok grads, g') ∧ g'.WellFormed ∧ g.Appends g' ∧
      (differentiate root targets).runOn g = .ok (.ok grads, g₁) ∧ g'.Extends g₁ ∧ g₁.WellFormed ∧
      (∀ t, t ∈ grads.map Prod.fst ↔ t ∈ targets) ∧
      ∀ t d : Nat, (t, d) ∈ grads → g'.shapeAt d = g.shapeAt t ∧ d < g'.length ∧ ¬ g'.HasLeaf d := by
  obtain ⟨grads, g₁, hrun, hg₁, happ, -, hkeys, hentry⟩ := differentiate_ok hg hsmall hroot htargets
  by_cases hnil : targets = []
  · obtain rfl : grads = [] := by
      refine List.eq_nil_iff_forall_not_mem.2 fun grad hgrad => ?_
      have hmem := (hkeys grad.1).1 (List.mem_map_of_mem hgrad)
      rw [hnil] at hmem
      cases hmem
    refine ⟨[], g, g₁, ?_, hg, .refl g, hrun, happ.grows, hg₁, hkeys, nofun⟩
    rw [gradientsFor, if_pos hnil]
    rfl
  · refine ⟨grads, g₁, g₁, ?_, hg₁, happ, hrun, .refl g₁, hg₁, hkeys, fun t d hd => ?_⟩
    · rw [gradientsFor, if_neg hnil]
      exact runOn_adapt_ok hrun _
    · obtain ⟨hshape, -, hlt, hinner⟩ := hentry t d hd
      exact ⟨hshape, hlt, hinner⟩

theorem runOn_node {x : Nat} {n : Node} (h : g.node? x = some n) : (node x).runOn g = .ok (.ok n, g) := by
  rw [node, runOn_bind_ok (runOn_get g), runOn_request, Graph.node_eq_ok.2 h]

theorem runOn_node_missing {x : Nat} (h : g.node? x = none) : (node x).runOn g = .ok (.error (.unknownNode x), g) := by
  rw [node, runOn_bind_ok (runOn_get g), runOn_request, Graph.node_eq_error h]

/-- A root that is missing or a target that is no leaf is refused, and nothing is appended. -/
theorem compileGraph_refused (A : Arith α) (h : ¬ (root < g.length ∧ ∀ t ∈ targets, g.HasLeaf t)) :
    ∃ e, (compileGraph A root targets (.machine A)).runOn g = .ok (.error e, g) := by
  rw [compileGraph_eq]
  cases hn : g.node? root with
  | none =>
    refine ⟨.graph (.unknownNode root), ?_⟩
    rw [runOn_bind, runOn_adapt, runOn_node_missing hn]
    rfl
  | some n =>
    have htargets : targets ≠ [] := by
      rintro rfl
      exact h ⟨Graph.node?_lt hn, nofun⟩
    obtain ⟨e, he⟩ : ∃ e, Gradient.checkRequest g root targets = .error e := by
      cases hcheck : Gradient.checkRequest g root targets with
      | error e => exact ⟨e, rfl⟩
      | ok => exact absurd (Gradient.checkRequest_eq_ok.1 hcheck) h
    refine ⟨.gradient e, ?_⟩
    rw [runOn_bind_ok (runOn_adapt_ok (runOn_node hn) _), gradientsFor, if_neg htargets, runOn_bind, runOn_adapt,
      runOn_differentiate, he]
    rfl

/-- A compiled graph: the root and the gradients are in its program, over a graph that was
extended by the gradients. -/
structure Compiles (A : Arith α) (g : Graph) (root : Nat) (grads : Gradients) (g' : Graph) (c : CompiledGraph α) : Prop where
  wellFormed : g'.WellFormed
  appends : g.Appends g'
  interpreted : c.module.Interpreted A
  fits : c.module.Fits
  delivers : ∃ l nodes, c.module.program = l.program ∧ l.program.Valid ∧ Delivers g' root grads c.gradients l nodes

theorem compileGraph_run (hg : g.WellFormed) (hsmall : g.SizesBelow 9223372036854775808) (hroot : root < g.length)
    (htargets : ∀ t ∈ targets, g.HasLeaf t) (A : Arith α) :
    ((compileGraph A root targets (.machine A)).runOn g = .error .allocation ∧
      ∃ x < g.length, largestStorage < Shape.size (g.shapeAt x)) ∨
    ∃ c grads g' g₁, (compileGraph A root targets (.machine A)).runOn g = .ok (.ok c, g') ∧ Compiles A g root grads g' c ∧
      (differentiate root targets).runOn g = .ok (.ok grads, g₁) ∧ g'.Extends g₁ ∧ g₁.WellFormed ∧
      (∀ t, t ∈ grads.map Prod.fst ↔ t ∈ targets) ∧
      ∀ t d : Nat, (t, d) ∈ grads → g'.shapeAt d = g.shapeAt t ∧ d < g'.length := by
  obtain ⟨n, hn⟩ := Graph.exists_node? hroot
  have hword : g.SizesBelow Word.limit := fun x hx => Nat.lt_trans (hsmall x hx) (by decide)
  obtain ⟨grads, g', g₁, hgrads, hg', happ, hdiff, hext, hg₁, hkeys, hentry⟩ :=
    runOn_gradientsFor hg hword hroot htargets
  have hcounts : ∀ {n : Nat}, 1 < n → g.SizesBelow n → ∀ id, g'.CountsBelow n id := fun hn hsizes =>
    (happ.sizesBelow hsizes hn).counts hn
  obtain ⟨buffers, l, nodes, hlower, hvalid, hdelivers⟩ := lowerWithGradients_run hg' (hcounts (by decide) hsmall)
    (Nat.lt_of_lt_of_le hroot happ.length_le) fun grad hgrad => (hentry grad.1 grad.2 hgrad).2
  have hcompile : (compileGraph A root targets (.machine A)).runOn g = (do
      let module ← (answer (compile A l.program (.machine A))).adapt CompileGraphError.compile
      return ⟨module, root, buffers⟩ : Extend CompileGraphError (CompiledGraph α)).runOn g' := by
    rw [compileGraph_eq, runOn_bind_ok (runOn_adapt_ok (runOn_node hn) _), runOn_bind_ok hgrads,
      runOn_bind_ok (runOn_get g'), runOn_bind_ok (runOn_adapt_ok (runOn_answer hlower g') _)]
  rw [hcompile, compile_machine A hvalid]
  -- all that can still fail is the allocation of scratch
  rcases Module.create_ok_or_fault A l.program (.machine A l.program) with ⟨m, hm⟩ | ⟨hfault, b, f, len, hb, hlen⟩
  · obtain ⟨hprogram, hfits⟩ := Module.create_fits hm
    refine .inr ⟨⟨m, root, buffers⟩, grads, g', g₁, ?_,
      ⟨hg', happ, Module.create_interpreted hm, hfits, l, nodes, hprogram, hvalid, hdelivers⟩, hdiff, hext, hg₁, hkeys, fun t d hd => ⟨(hentry t d hd).1, (hentry t d hd).2.1⟩⟩
    rw [hm, runOn_bind_ok (runOn_adapt_ok (runOn_answer (by rfl) g') _)]
    rfl
  · rw [hfault]
    exact .inl ⟨rfl, hdelivers.sound.overlarge hcounts hb hlen⟩

/-- Only inner nodes are appended, so the leaves of both graphs are bound alike. -/
theorem Store.Binds.appends {st : Store α} {held : List StorageId} {g' : Graph} (h : st.Binds g held) (happ : g.Appends g') :
    st.Binds g' held := by
  intro n node hn hleaf
  by_cases hlt : n < g.length
  · rw [happ.grows.node? hlt] at hn
    exact h hn hleaf
  · rw [happ.inner hn (Nat.not_lt.1 hlt)] at hleaf
    cases hleaf

end

/-- A root and its gradients by `targets` are refused exactly if the root is missing or a target
is not a leaf. Otherwise they compile, unless a node of the graph is larger than any storage
and scratch cannot be allocated. However the leaves are bound, an execution that succeeds
leaves the store as it was, the value of the root in the result, and for every target the
value of the node that differentiation gives it, of as many elements as the target has;
there is no gradient for any other node. Executions do succeed where all leaves are bound as
they should be. -/
theorem compileGraph_delivers {g : Graph} (hg : g.Built) (hsmall : g.SizesBelow 9223372036854775808) (root : Nat)
    (targets : List Nat) {α : Type} (A : Arith α) :
    ((∃ e g', (compileGraph A root targets (.machine A)).runOn g = .ok (.error e, g')) ↔
      g.length ≤ root ∨ ∃ t ∈ targets, ¬ g.HasLeaf t) ∧
    (root < g.length → (∀ t ∈ targets, g.HasLeaf t) →
      ((compileGraph A root targets (.machine A)).runOn g = .error .allocation ∧
        ∃ x < g.length, largestStorage < Shape.size (g.shapeAt x)) ∨
      ∃ (c : CompiledGraph α) (grads : Gradients) (g' g₁ : Graph),
        (compileGraph A root targets (.machine A)).runOn g = .ok (.ok c, g') ∧
        (differentiate root targets).runOn g = .ok (.ok grads, g₁) ∧
        ∀ (st : Store α) (held : List StorageId),
          (st.Binds g held → ∃ r, c.module.execute st held = .ok (.ok (), r)) ∧
          ∀ m st', c.module.execute st held = .ok (.ok (), m, st') →
            st' = st ∧ m.output = (g.value A.toAlgebra st.leaves root).toArray ∧
            (∀ t ∈ targets, ∃ d values, grads.lookup t = some d ∧
              CompiledGraph.gradient? { c with module := m } t = some values ∧
              values = (g₁.value A.toAlgebra st.leaves d).toArray ∧ values.size = Shape.size (g.shapeAt t)) ∧
            ∀ t ∉ targets, CompiledGraph.gradient? { c with module := m } t = none) := by
  have hwf := hg.wellFormed
  constructor
  · by_cases hok : root < g.length ∧ ∀ t ∈ targets, g.HasLeaf t
    · have hgood : ¬ (g.length ≤ root ∨ ∃ t ∈ targets, ¬ g.HasLeaf t) := by
        simpa only [not_or, not_le, not_exists, not_and, not_not] using hok
      refine iff_of_false ?_ hgood
      rintro ⟨e, g', he⟩
      rcases compileGraph_run hwf hsmall hok.1 hok.2 A with ⟨hfault, -⟩ | ⟨c, grads, g'', g₁, hrun, -⟩
      · cases hfault.symm.trans he
      · cases hrun.symm.trans he
    · obtain ⟨e, he⟩ := compileGraph_refused A hok
      refine iff_of_true ⟨e, g, he⟩ ?_
      simpa only [not_and_or, not_lt, not_forall, exists_prop] using hok
  · intro hroot htargets
    rcases compileGraph_run hwf hsmall hroot htargets A with
      hfault | ⟨c, grads, g', g₁, hrun, hc, hdiff, hext, hg₁, hkeys, hentry⟩
    · exact .inl hfault
    · obtain ⟨l, nodes, hm, hvalid, hdelivers⟩ := hc.delivers
      have hrun' : ∀ {st : Store α} {held : List StorageId}, c.module.CanRun st held → _ := fun hcan =>
        hdelivers.execute hc.wellFormed hvalid hm hc.interpreted hc.fits hcan
      refine .inr ⟨c, grads, g', g₁, hrun, hdiff, fun st held => ⟨fun hbinds => ?_, fun m st' hexecute => ?_⟩⟩
      · obtain ⟨m, hexecute, -⟩ := hrun' (hdelivers.sound.canRun hm (hbinds.appends hc.appends))
        exact ⟨_, hexecute⟩
      · obtain ⟨m', hexecute', hroot', hgrads⟩ := hrun' (Module.canRun_of_execute hexecute)
        cases hexecute.symm.trans hexecute'
        refine ⟨rfl, ?_, fun t ht => ?_, fun t ht => ?_⟩
        · rw [hroot', hc.appends.grows.value _ _ hwf hc.wellFormed hroot]
        · obtain ⟨d, hd, hmem⟩ := Gradients.exists_lookup ((hkeys t).2 ht)
          obtain ⟨hshape, hlt⟩ := hentry t d hmem
          refine ⟨d, _, hd, (hgrads t).trans (by rw [hd]; rfl), ?_, ?_⟩
          · rw [hext.value _ _ hc.wellFormed hg₁ hlt]
          · simp [Graph.length_value, hshape]
        · have hnone : grads.lookup t = none := by
            by_contra hsome
            obtain ⟨d, hd⟩ := Option.ne_none_iff_exists'.1 hsome
            obtain ⟨before, behind, rfl, -⟩ := List.lookup_eq_some_iff.1 hd
            exact ht ((hkeys t).1 (by simp))
          exact (hgrads t).trans (by rw [hnone]; rfl)

/-- Natural numbers; every literal but zero is one. -/
def Arith.counting : Arith Nat := { Arith.natural with lit := fun x => if x == 0.0 then 0 else 1 }

/-- One storage, to which the weight and the input of `squares` are both bound. -/
def sharedStorage : Store Nat := { contents := #[#[3, 5]], names := [("x", 0)], bindings := [(0, 0), (1, 0)] }

theorem compileGraph_delivers_squares :
    (∃ e g', (compileGraph Arith.counting 4 [0, 3] (.machine Arith.counting)).runOn squares = .ok (.error e, g')) ∧
    ∃ c g' m, (compileGraph Arith.counting 4 [1, 0, 1] (.machine Arith.counting)).runOn squares = .ok (.ok c, g') ∧
      c.module.execute sharedStorage [] = .ok (.ok (), m, sharedStorage) ∧ m.output = #[152] ∧
      CompiledGraph.gradient? { c with module := m } 0 = some #[18, 50] ∧
      CompiledGraph.gradient? { c with module := m } 1 = some #[9, 25] ∧
      CompiledGraph.gradient? { c with module := m } 4 = none := by
  have hsmall : squares.SizesBelow largestStorage := by
    intro x hx
    have hlt : x < 5 := hx
    interval_cases x <;> decide
  have hsmall' : squares.SizesBelow 9223372036854775808 := fun x hx => Nat.lt_trans (hsmall x hx) (by decide)
  refine ⟨(compileGraph_delivers squares_built hsmall' 4 [0, 3] Arith.counting).1.2 (.inr ⟨3, by simp, ?_⟩), ?_⟩
  · rintro ⟨n, hn, hleaf⟩
    cases hn
    cases hleaf
  have htargets : ∀ t ∈ [1, 0, 1], squares.HasLeaf t := by
    intro t ht
    simp only [List.mem_cons, List.not_mem_nil, or_false] at ht
    rcases ht with rfl | rfl | rfl <;> exact ⟨_, rfl, rfl⟩
  have hbinds : sharedStorage.Binds squares [] := by
    intro n node hn hleaf
    have hlt : n < 5 := Graph.node?_lt hn
    interval_cases n <;> cases hn <;> cases hleaf <;> exact ⟨0, rfl, rfl, by simp⟩
  have hvalues : ((differentiate 4 [1, 0, 1]).runOn squares).toOption.any (fun r => r.1.toOption.any fun grads =>
      (grads.lookup 0).any (fun d => (r.2.value Arith.counting.toAlgebra sharedStorage.leaves d).toArray == #[18, 50]) &&
      (grads.lookup 1).any fun d => (r.2.value Arith.counting.toAlgebra sharedStorage.leaves d).toArray == #[9, 25]) =
        true := by decide +kernel
  rcases (compileGraph_delivers squares_built hsmall' 4 [1, 0, 1] Arith.counting).2 (by decide) htargets with
    ⟨-, x, hx, hlarge⟩ | ⟨c, grads, g', g₁, hrun, hdiff, hexecutes⟩
  · exact absurd (hsmall x hx) (Nat.not_lt.2 (Nat.le_of_lt hlarge))
  · obtain ⟨hsucceeds, hdelivers⟩ := hexecutes sharedStorage []
    obtain ⟨⟨m, st'⟩, hexecute⟩ := hsucceeds hbinds
    obtain ⟨rfl, houtput, hgradients, hnone⟩ := hdelivers m st' hexecute
    obtain ⟨d₀, values₀, hd₀, hgradient₀, hvalues₀, -⟩ := hgradients 0 (by simp)
    obtain ⟨d₁, values₁, hd₁, hgradient₁, hvalues₁, -⟩ := hgradients 1 (by simp)
    rw [hdiff] at hvalues
    simp only [Except.toOption, Option.any_some, hd₀, hd₁, ← hvalues₀, ← hvalues₁, Bool.and_eq_true, beq_iff_eq] at hvalues
    obtain ⟨rfl, rfl⟩ := hvalues
    exact ⟨c, g', m, hrun, hexecute, houtput.trans (by decide +kernel), hgradient₀, hgradient₁, hnone 4 (by simp)⟩

end TensorLoom
