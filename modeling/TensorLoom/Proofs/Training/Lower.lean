import TensorLoom.Proofs.Lowering.Update
import TensorLoom.Proofs.Module.Compile
import TensorLoom.Proofs.Training.Plan
/-
# The program of a training step

Every gradient is in scratch before the first weight is overwritten. The next value of a
weight then reads the weight itself, at the element being written, and scratch; so no
function reads a weight that was overwritten before it, and the program is valid
(`lowerPlan_run`).
-/

namespace TensorLoom

namespace Training

open Lowering Lowering.StepM

/-! ## What an update reads -/

section
variable {g : Graph} {rate : Float} {w d next : Nat} {placed : List (NodeId × BufferId)}

/-- With the gradient in a buffer, the next value of a weight needs the weight and inner nodes
only, and nothing that would take a function of its own. -/
theorem Update.reached (h : Update g rate w d next) (hd : (placed.lookup d).isSome) {start js : List Nat} {x : Nat}
    (hx : Reached g placed next start x js) :
    (g.HasLeaf x → x = w) ∧
      ∀ {n : Node}, g.node? x = some n → placed.lookup x = none → n.kind.accumulates = false := by
  obtain ⟨step, factor, hfactor, hstep, hnext⟩ := h.next
  have hnodes : x = next ∨ x = step ∨ x = factor ∨ x = w ∨ x = d := by
    induction hx with
    | start => exact .inl rfl
    | @inline id x is js _ hnone hin ih =>
      have hoperand := hin.operand
      rcases ih with rfl | rfl | rfl | rfl | rfl
      · rw [Graph.operandsOf_eq hnext] at hoperand
        rcases List.mem_pair.1 hoperand with rfl | rfl <;> simp
      · rw [Graph.operandsOf_eq hstep] at hoperand
        rcases List.mem_pair.1 hoperand with rfl | rfl <;> simp
      · rw [Graph.operandsOf_eq hfactor] at hoperand
        cases hoperand
      · rw [h.weight.hasLeaf.operandsOf] at hoperand
        cases hoperand
      · rw [hnone] at hd
        cases hd
  have hinner : ∀ {y : Nat} {node : Node}, g.node? y = some node → node.kind.isLeaf = false → ¬ g.HasLeaf y := by
    rintro y node hn hkind ⟨node', hn', hkind'⟩
    rw [Option.some.inj (hn.symm.trans hn'), hkind'] at hkind
    cases hkind
  rcases hnodes with rfl | rfl | rfl | rfl | rfl
  · exact ⟨fun hleaf => absurd hleaf (hinner hnext rfl), fun hn _ => Option.some.inj (hnext.symm.trans hn) ▸ rfl⟩
  · exact ⟨fun hleaf => absurd hleaf (hinner hstep rfl), fun hn _ => Option.some.inj (hstep.symm.trans hn) ▸ rfl⟩
  · exact ⟨fun hleaf => absurd hleaf (hinner hfactor rfl), fun hn _ => Option.some.inj (hfactor.symm.trans hn) ▸ rfl⟩
  · refine ⟨fun _ => rfl, fun {n} hn _ => ?_⟩
    obtain ⟨⟨kind, s⟩, hn', hkind⟩ := h.weight
    obtain rfl := Option.some.inj (hn'.symm.trans hn)
    cases kind <;> first | rfl | cases hkind
  · refine ⟨fun hleaf => absurd hleaf h.inner, fun _ hnone => ?_⟩
    rw [hnone] at hd
    cases hd

/-- The weight is read at the element being written. -/
theorem Update.readsElsewhere (hg : g.WellFormed) (h : Update g rate w d next) (hd : (placed.lookup d).isSome) :
    readsElsewhere g placed next w = false := by
  obtain ⟨step, factor, hfactor, hstep, hnext⟩ := h.next
  have hsame : ∀ {x : Nat}, x < g.length → g.shapeAt x = g.shapeAt w →
      (g.node? x).any (·.shape == g.shapeAt w) = true := by
    intro x hlt hx
    obtain ⟨n, hn⟩ := Graph.exists_node? hlt
    rw [hn, Option.any_some, ← Graph.shapeAt_of_node? hn, hx]
    exact beq_self_eq_true _
  -- everything but the rate is read at the element being written
  have hwalked : ∀ {x : Nat × Bool}, Walked g placed w next x →
      x.1 = factor ∨ (x.2 = true ∧ (x.1 = next ∨ x.1 = step ∨ x.1 = w ∨ x.1 = d)) := by
    intro x hx
    induction hx with
    | start => exact .inr ⟨rfl, .inl rfl⟩
    | @inline x y _ hy ih =>
      obtain ⟨i, a⟩ := x
      obtain ⟨y, b⟩ := y
      obtain ⟨hne, hnone, node, hn, hmem⟩ := mem_opened.1 hy
      simp only at hne hnone hn hmem ih ⊢
      rcases ih with rfl | ⟨rfl, rfl | rfl | rfl | rfl⟩
      · obtain rfl := Option.some.inj (hfactor.symm.trans hn)
        cases hmem
      · obtain rfl := Option.some.inj (hnext.symm.trans hn)
        simp only [inlined, hsame h.weight.lt rfl, hsame (Graph.node?_lt hstep) (Graph.shapeAt_of_node? hstep),
          Bool.and_self, List.mem_cons, Prod.mk.injEq, List.not_mem_nil, or_false] at hmem
        rcases hmem with ⟨rfl, rfl⟩ | ⟨rfl, rfl⟩ <;> simp
      · obtain rfl := Option.some.inj (hstep.symm.trans hn)
        simp only [inlined, hsame h.lt h.shape, Bool.and_self, List.mem_cons, Prod.mk.injEq, List.not_mem_nil,
          or_false] at hmem
        rcases hmem with ⟨rfl, rfl⟩ | ⟨rfl, -⟩ <;> simp
      · exact absurd rfl hne
      · rw [hnone] at hd
        cases hd
  refine Bool.eq_false_iff.2 fun helse => ?_
  rcases hwalked ((readsElsewhere_iff hg).1 helse) with rfl | ⟨hfalse, -⟩
  · obtain ⟨n, hn, hkind⟩ := h.weight
    rw [← Option.some.inj (hfactor.symm.trans hn)] at hkind
    cases hkind
  · cases hfalse

end

/-! ## One update after the other -/

/-- The program after some updates: it computes the loss, overwrites the weights that were
updated, and no function uses a weight that was overwritten before it. -/
structure Lowered (g : Graph) (loss : Nat) (updates : List (Nat × Nat × Nat)) (out : Nat) (l : Lowering)
    (nodes : List Nat) : Prop where
  sound : Sound g l nodes
  output : l.program.output = some out
  result : ∃ f len, l.program.buffers[out]? = some ⟨.scratch f, len⟩ ∧ nodes[f]? = some loss
  assigns : ∀ {n v : Nat}, Assigns l.program nodes n v ↔ ∃ d, (n, d, v) ∈ updates
  ordered : ∀ {k : Nat} {fn : Function}, l.program.functions[k]? = some fn →
    (∀ b ∈ fn.inputs, l.program.Untouched k b) ∧ l.program.Untouched k fn.output

section
variable {g : Graph} {rate : Float} {loss out : Nat} {updates : List (Nat × Nat × Nat)} {l l' : Lowering}
  {nodes nodes' : List Nat}

theorem Lowered.valid (h : Lowered g loss updates out l nodes) : l.program.Valid := by
  obtain ⟨f, len, hb, -⟩ := h.result
  exact h.sound.valid h.output (List.getElem?_eq_some_iff.1 hb).1 h.ordered

/-- A buffer that was not touched is not touched by what comes later. -/
theorem untouched_mono {p p' : Program} (hbuffers : p.buffers <+: p'.buffers) (hfunctions : p.functions <+: p'.functions)
    {k b n : Nat} {nodes : List Nat} (hk : k ≤ p.functions.length) (hb : p.owner? nodes b = some n)
    (h : p.Untouched k b) : p'.Untouched k b := by
  intro hleaf j hj fn hfn
  obtain ⟨fn', hfn'⟩ : ∃ fn', p.functions[j]? = some fn' := ⟨_, List.getElem?_eq_getElem (Nat.lt_of_lt_of_le hj hk)⟩
  obtain rfl : fn' = fn := Option.some.inj ((getElem?_mono hfunctions hfn').symm.trans hfn)
  exact h (.of_mono hbuffers hb hleaf) j hj fn' hfn'

/-- The output of a function holds a node. -/
theorem owner?_output (hs : Sound g l nodes) {k : Nat} {fn : Function} (hfn : l.program.functions[k]? = some fn) :
    ∃ n, l.program.owner? nodes fn.output = some n := by
  obtain ⟨id, hid⟩ := hs.exists_node hfn
  rcases (hs.functions hfn hid).2 with ⟨len, hb⟩ | ⟨n, linked, len, hb, -⟩
  · exact ⟨id, (Program.owner?_scratch nodes hb).trans hid⟩
  · exact ⟨n, Program.owner?_leaf nodes hb⟩

/-- One more weight gets its next value, by one function. -/
theorem Lowered.update (hg : g.WellFormed) (hcounts : ∀ id, g.CountsBelow 9223372036854775808 id)
    (h : Lowered g loss updates out l nodes) {w d next : Nat} (hu : Update g rate w d next) (hd : InScratch l d)
    (hnew : w ∉ updates.map Prod.fst) :
    ∃ b l' nodes', (update g w next).runOn l = .ok (.ok b, l') ∧ Lowered g loss (updates ++ [(w, d, next)]) out l' nodes' ∧
      ∀ {x : Nat}, InScratch l x → InScratch l' x := by
  obtain ⟨node, hn, hkind⟩ := hu.weight.hasLeaf
  obtain ⟨step, factor, -, -, hnext⟩ := hu.next
  have hplaced : (l.placed.lookup d).isSome := by
    obtain ⟨b, -, -, hb, -⟩ := hd
    rw [hb]
    rfl
  obtain ⟨b, l', nodes', hrun, hs', hadvances, hout, hone⟩ :=
    update_run hg hn hkind hnext (Graph.shapeAt_of_node? hn) (hcounts next) h.sound
  have hm : Shape.Mem (Shape.indexOf (g.shapeAt next) 0) (g.shapeAt next) :=
    Shape.mem_indexOf (Shape.size_pos (hg.shapeAt_positive next))
  obtain ⟨fn, len, hfunctions, houtput, hinputs⟩ := hone (hu.readsElsewhere hg hplaced) _ hm
    fun hx hn hnone => (hu.reached hplaced hx).2 hn hnone
  -- no function so far writes the weight
  have hfresh : ∀ {b : Nat}, (∀ {m : Nat} {linked len}, l'.program.buffers[b]? = some ⟨.leaf m linked, len⟩ → m = w) →
      l'.program.Untouched l.program.functions.length b := by
    rintro b hb ⟨m, linked, len, hbuffer⟩ j hj fn' hfn' rfl
    obtain rfl := hb hbuffer
    rw [hfunctions, List.getElem?_append_left hj] at hfn'
    obtain ⟨v, hv⟩ := h.sound.exists_node hfn'
    obtain ⟨d', hmem⟩ := h.assigns.1
      ⟨j, fn', linked, len, hfn', hv, (h.sound.writes_leaf hadvances.buffers hfn').1 hbuffer⟩
    exact hnew (List.mem_map_of_mem hmem)
  refine ⟨b, l', nodes', hrun, ⟨hs', hout.trans h.output, ?_, ?_, ?_⟩, hadvances.scratch⟩
  · obtain ⟨f, len, hb, hf⟩ := h.result
    exact ⟨f, len, getElem?_mono hadvances.buffers hb, getElem?_mono hadvances.listed hf⟩
  · intro n v
    rw [hadvances.assigns, h.assigns]
    simp only [List.mem_append, List.mem_singleton, Prod.mk.injEq]
    constructor
    · rintro (⟨d', hmem⟩ | ⟨rfl, rfl⟩)
      · exact ⟨d', .inl hmem⟩
      · exact ⟨d, .inr ⟨rfl, rfl, rfl⟩⟩
    · rintro ⟨d', hmem | ⟨rfl, rfl, rfl⟩⟩
      · exact .inl ⟨d', hmem⟩
      · exact .inr ⟨rfl, rfl⟩
  · intro k fn' hfn'
    rw [hfunctions] at hfn'
    rcases getElem?_append_one hfn' with hfn' | ⟨rfl, rfl⟩
    · have hk := Nat.le_of_lt (List.getElem?_eq_some_iff.1 hfn').1
      obtain ⟨id, hid⟩ := h.sound.exists_node hfn'
      have hok := (h.sound.functions hfn' hid).1
      refine ⟨fun b hb => ?_, ?_⟩
      · obtain ⟨n, hn⟩ := hok.inputs b hb
        exact untouched_mono hadvances.buffers hadvances.functions hk (Program.owner?_of_take hn) ((h.ordered hfn').1 b hb)
      · obtain ⟨n, hn⟩ := owner?_output h.sound hfn'
        exact untouched_mono hadvances.buffers hadvances.functions hk hn (h.ordered hfn').2
    · refine ⟨fun b hb => hfresh fun {m linked len} hbuffer => ?_, hfresh fun hbuffer => ?_⟩
      · obtain ⟨n, js, howner, hreached⟩ := hinputs b hb
        obtain rfl : m = n := Option.some.inj ((Program.owner?_leaf nodes' hbuffer).symm.trans howner)
        obtain ⟨-, -, hleaf⟩ := hs'.leaf hbuffer
        exact (hu.reached hplaced hreached).1 hleaf
      · cases houtput.symm.trans hbuffer
        rfl

theorem updates_run (hg : g.WellFormed) (hcounts : ∀ id, g.CountsBelow 9223372036854775808 id)
    (h : Lowered g loss updates out l nodes) {todo : List (Nat × Nat × Nat)}
    (htodo : ∀ u ∈ todo, Update g rate u.1 u.2.1 u.2.2) (hscratch : ∀ u ∈ todo, InScratch l u.2.1)
    (hnodup : ((updates ++ todo).map Prod.fst).Nodup) :
    ∃ l' nodes', (todo.forM fun u => do let _ ← Lowering.update g u.1 u.2.2 : StepM Unit).runOn l =
      .ok (.ok (), l') ∧ Lowered g loss (updates ++ todo) out l' nodes' := by
  induction todo generalizing updates l nodes with
  | nil =>
    rw [List.append_nil]
    exact ⟨l, nodes, rfl, h⟩
  | cons u todo ih =>
    obtain ⟨w, d, next⟩ := u
    obtain ⟨hu, htodo⟩ := List.forall_mem_cons.1 htodo
    obtain ⟨hd, hscratch⟩ := List.forall_mem_cons.1 hscratch
    have hnew : w ∉ updates.map Prod.fst := by
      rw [List.map_append, List.nodup_append] at hnodup
      exact fun hw => hnodup.2.2 w hw w List.mem_cons_self rfl
    obtain ⟨b, l₁, nodes₁, hrun₁, h₁, hkept⟩ := h.update hg hcounts hu hd hnew
    rw [List.append_cons] at hnodup ⊢
    obtain ⟨l₂, nodes₂, hrun₂, h₂⟩ := ih h₁ htodo (fun u hu => hkept (hscratch u hu)) hnodup
    exact ⟨l₂, nodes₂, (runOn_forM_cons (runOn_bind_ok hrun₁) todo).trans hrun₂, h₂⟩

/-- All gradients are computed into scratch. -/
theorem materialize_run_all (hg : g.WellFormed) (hcounts : ∀ id, g.CountsBelow 9223372036854775808 id)
    (hs : Sound g l nodes) {todo : List (Nat × Nat × Nat)} (htodo : ∀ u ∈ todo, u.2.1 < g.length ∧ ¬ g.HasLeaf u.2.1) :
    ∃ l' nodes', (todo.forM fun u => do let _ ← Lowering.materialize g u.2.1 : StepM Unit).runOn l =
      .ok (.ok (), l') ∧ Sound g l' nodes' ∧ Advances l l' nodes nodes' (fun _ _ => False) ∧
      l'.program.output = l.program.output ∧ ∀ u ∈ todo, InScratch l' u.2.1 := by
  induction todo generalizing l nodes with
  | nil => exact ⟨l, nodes, rfl, hs, (Grows.refl g l nodes).advances hs, rfl, fun u hu => by cases hu⟩
  | cons u todo ih =>
    obtain ⟨w, d, next⟩ := u
    obtain ⟨⟨hlt, hinner⟩, htodo⟩ := List.forall_mem_cons.1 htodo
    obtain ⟨node, hn⟩ := Graph.exists_node? hlt
    have hleaf : node.kind.isLeaf = false := Bool.eq_false_iff.2 fun h => hinner ⟨node, hn, h⟩
    obtain ⟨b, l₁, nodes₁, hrun₁, hs₁, hadvances₁, hout₁, hplaced, howner⟩ := materialize_run hg hn (hcounts d) hs
    obtain ⟨f, len, hb, -⟩ := hs₁.owner?_scratch hn hleaf howner
    obtain ⟨l₂, nodes₂, hrun₂, hs₂, hadvances₂, hout₂, hscratch⟩ := ih hs₁ htodo
    exact ⟨l₂, nodes₂, (runOn_forM_cons (runOn_bind_ok hrun₁) todo).trans hrun₂, hs₂,
      (hadvances₁.trans hadvances₂).congr fun _ _ => or_self_iff, hout₂.trans hout₁,
      List.forall_mem_cons.2 ⟨hadvances₂.scratch ⟨b, f, len, hplaced, hb⟩, hscratch⟩⟩

/-- The program of a plan is accepted. -/
theorem lowerPlan_run (hg : g.WellFormed) (hcounts : ∀ id, g.CountsBelow 9223372036854775808 id) {plan : Plan}
    (hloss : plan.loss < g.length) (hupdates : ∀ u ∈ plan.updates, Update g rate u.1 u.2.1 u.2.2)
    (hnodup : (plan.updates.map Prod.fst).Nodup) :
    ∃ out l nodes, lowerPlan g plan = .ok (.ok (out, l.program)) ∧ Lowered g plan.loss plan.updates out l nodes := by
  obtain ⟨node, hn⟩ := Graph.exists_node? hloss
  obtain ⟨out, l₁, nodes₁, f, len, hrun₁, hs₁, hadvances₁, hout₁, hb, hf⟩ :=
    output_run hg hn (hcounts plan.loss) (sound_empty g)
  obtain ⟨l₂, nodes₂, hrun₂, hs₂, hadvances₂, hout₂, hscratch⟩ := materialize_run_all hg hcounts hs₁
    fun u hu => ⟨(hupdates u hu).lt, (hupdates u hu).inner⟩
  have hnone : ∀ {n v : Nat}, ¬ Assigns l₂.program nodes₂ n v := by
    intro n v hassigns
    rcases (hadvances₁.trans hadvances₂).assigns.1 hassigns with ⟨f, fn, linked, len, hfn, -⟩ | hfalse | hfalse
    · simp at hfn
    · exact hfalse
    · exact hfalse
  have huntouched : ∀ k b, l₂.program.Untouched k b :=
    Program.untouched_of_kept fun n hn => (hs₂.assigns hn).elim fun _ => hnone
  have hstart : Lowered g plan.loss [] out l₂ nodes₂ :=
    ⟨hs₂, hout₂.trans hout₁, ⟨f, len, getElem?_mono hadvances₂.buffers hb, getElem?_mono hadvances₂.listed hf⟩,
      fun {n v} => by simp [hnone], fun _ => ⟨fun b _ => huntouched _ b, huntouched _ _⟩⟩
  obtain ⟨l₃, nodes₃, hrun₃, h⟩ := updates_run hg hcounts hstart hupdates hscratch hnodup
  refine ⟨out, l₃, nodes₃, ?_, h⟩
  have hsteps : (do
      let lossBuffer ← Lowering.output g plan.loss
      plan.updates.forM fun u => do let _ ← Lowering.materialize g u.2.1
      plan.updates.forM fun u => do let _ ← Lowering.update g u.1 u.2.2
      return lossBuffer : StepM BufferId).runOn {} = .ok (.ok out, l₃) := by
    rw [runOn_bind_ok hrun₁, runOn_bind_ok hrun₂, runOn_bind_ok hrun₃]
    rfl
  unfold lowerPlan
  exact complete_eq_ok hsteps h.valid

end

end Training

end TensorLoom
