import TensorLoom.Proofs.Lowering.Update
/-
# Single steps

A step is refused for a reason that the graph alone decides, and then changes nothing
(`Step.runOn_refused`); or it is performed (`Step.refused_or_performed`).
-/

namespace TensorLoom

namespace Lowering

open StepM

/-- The nodes whose values a step asks for. -/
def Step.requested : Step → List NodeId
  | materialize node => [node]
  | output node => [node]
  | update _ value => [value]

/-- Why a step is refused: it names a node that is not there, it updates something other than
a leaf, or it updates a leaf with a node of another shape. -/
inductive Step.Refused (g : Graph) : Step → LowerError → Prop where
  | materialize {id : Nat} : g.node? id = none → Refused g (.materialize id) (.graph (.unknownNode id))
  | output {id : Nat} : g.node? id = none → Refused g (.output id) (.graph (.unknownNode id))
  | leaf {leaf value : Nat} : g.node? leaf = none → Refused g (.update leaf value) (.graph (.unknownNode leaf))
  | notALeaf {leaf value : Nat} {target : Node} : g.node? leaf = some target → target.kind.isLeaf = false →
      Refused g (.update leaf value) (.graph (.notALeaf leaf))
  | value {leaf value : Nat} {target : Node} : g.node? leaf = some target → target.kind.isLeaf = true →
      g.node? value = none → Refused g (.update leaf value) (.graph (.unknownNode value))
  | shape {leaf value : Nat} {target source : Node} : g.node? leaf = some target → target.kind.isLeaf = true →
      g.node? value = some source → source.shape ≠ target.shape →
      Refused g (.update leaf value) (.updateShape leaf value target.shape source.shape)

/-- What a step that is not refused has done to the program. -/
structure Step.Performed (g : Graph) (step : Step) (l : Lowering) (nodes : List Nat) (b : BufferId) (l' : Lowering)
    (nodes' : List Nat) : Prop where
  sound : Sound g l' nodes'
  advances : Advances l l' nodes nodes' fun n v => step = .update n v
  result : ∀ {id : Nat}, step = .output id → l'.program.output = some b ∧ b < l'.program.buffers.length
  other : (∀ {id : Nat}, step ≠ .output id) → l'.program.output = l.program.output

section
variable {g : Graph} {l : Lowering} {nodes : List Nat}

theorem Step.runOn_refused {step : Step} {e : LowerError} (h : step.Refused g e) (l : Lowering) :
    step.runOn g l = .ok (.error e, l) := by
  cases h with
  | materialize hn => exact runOn_bind_error (runOn_requestNode_none hn l)
  | output hn => exact runOn_bind_error (runOn_requestNode_none hn l)
  | leaf hn => exact runOn_bind_error (runOn_requestNode_none hn l)
  | @notALeaf leaf value target hn hleaf =>
    show (Lowering.update g leaf value).runOn l = _
    rw [Lowering.update, runOn_bind_ok (runOn_requestNode hn l), hleaf]
    rfl
  | @value leaf value target hn hleaf hv =>
    show (Lowering.update g leaf value).runOn l = _
    rw [Lowering.update, runOn_bind_ok (runOn_requestNode hn l), hleaf]
    exact runOn_bind_error (runOn_requestNode_none hv l)
  | @shape leaf value target source hn hleaf hv hshape =>
    show (Lowering.update g leaf value).runOn l = _
    rw [Lowering.update, runOn_bind_ok (runOn_requestNode hn l), hleaf]
    simp only [Bool.not_true, Bool.false_eq_true, if_false]
    rw [runOn_bind_ok (runOn_requestNode hv l)]
    simp only [ne_eq, hshape, not_false_eq_true, if_true]
    rfl

theorem Step.refused_or_performed (step : Step) (hg : g.WellFormed)
    (hcounts : ∀ id ∈ step.requested, g.CountsBelow 9223372036854775808 id) (hs : Sound g l nodes) :
    (∃ e, step.Refused g e) ∨
      ∃ b l' nodes', step.runOn g l = .ok (.ok b, l') ∧ step.Performed g l nodes b l' nodes' := by
  cases step with
  | materialize id =>
    cases hn : g.node? id with
    | none => exact .inl ⟨_, .materialize hn⟩
    | some node =>
      obtain ⟨b, l', nodes', hrun, hs', hadvances, hout, -⟩ := materialize_run hg hn (hcounts id List.mem_cons_self) hs
      exact .inr ⟨b, l', nodes', hrun, hs', hadvances.congr (by simp), nofun, fun _ => hout⟩
  | output id =>
    cases hn : g.node? id with
    | none => exact .inl ⟨_, .output hn⟩
    | some node =>
      obtain ⟨b, l', nodes', f, len, hrun, hs', hadvances, hout, hb, -⟩ := output_run hg hn (hcounts id List.mem_cons_self) hs
      exact .inr ⟨b, l', nodes', hrun, hs', hadvances.congr (by simp),
        fun _ => ⟨hout, (List.getElem?_eq_some_iff.1 hb).1⟩, fun h => absurd rfl h⟩
  | update leaf value =>
    cases hn : g.node? leaf with
    | none => exact .inl ⟨_, .leaf hn⟩
    | some target =>
      cases hleaf : target.kind.isLeaf with
      | false => exact .inl ⟨_, .notALeaf hn hleaf⟩
      | true =>
        cases hv : g.node? value with
        | none => exact .inl ⟨_, .value hn hleaf hv⟩
        | some source =>
          by_cases hshape : source.shape = target.shape
          · obtain ⟨b, l', nodes', hrun, hs', hadvances, hout, -⟩ := update_run hg hn hleaf hv hshape
              (hcounts value List.mem_cons_self) hs
            exact .inr ⟨b, l', nodes', hrun, hs', hadvances.congr (by simp [eq_comm]), nofun, fun _ => hout⟩
          · exact .inl ⟨_, .shape hn hleaf hv hshape⟩

end

end Lowering

end TensorLoom
