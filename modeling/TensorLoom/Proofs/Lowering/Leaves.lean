import TensorLoom.Lowering.Basic
import TensorLoom.Proofs.Lowering.Emission
import TensorLoom.Proofs.Lowering.Perform
import TensorLoom.Session.Programs
/-
# The leaves of lowered programs

However large the nodes of a graph are, and whatever steps a program is built by: its leaf
buffers stand for leaves of the graph, and are as long as these have elements
(`performSteps_leavesOf`). Nothing but `leafBuffer` ever adds one.
-/

namespace TensorLoom

/-- The leaf that a buffer stands for. -/
def Buffer.leaf? (b : Buffer) : Option NodeId :=
  match b.source with
  | .leaf n _ => some n
  | .scratch _ => none

/-- The leaves of a program, in the order of the buffer table. -/
def Program.leaves (p : Program) : List NodeId := p.buffers.filterMap Buffer.leaf?

/-- If the buffer is that of a leaf, then of one of the graph, with as many elements. -/
def Buffer.LeafOf (g : Graph) (buffer : Buffer) : Prop :=
  ∀ n linked, buffer.source = .leaf n linked →
    linked = true ∧ ∃ node, g.node? n = some node ∧ node.kind.isLeaf = true ∧ Shape.elementCount node.shape = .ok buffer.len

/-- The leaf buffers of the program are those of leaves of the graph. -/
def Program.LeavesOf (g : Graph) (p : Program) : Prop := ∀ buffer ∈ p.buffers, buffer.LeafOf g

namespace Lowering

/-- Wherever it ends without a fault, the emission keeps the leaf buffers right. -/
def KeepsLeaves (g : Graph) {β : Type} (m : LowerM β) : Prop :=
  ∀ ⦃l b l'⦄, m.run l = .ok (b, l') → l.program.LeavesOf g → l'.program.LeavesOf g

def StepKeepsLeaves (g : Graph) {β : Type} (m : StepM β) : Prop := KeepsLeaves g m.run

/-- Leaf buffers that are right stay so. -/
def leafLaw (g : Graph) : Law where
  rel _ _ l _ l' := l.program.LeavesOf g → l'.program.LeavesOf g
  refl _ _ hl := hl
  trans h h' hl := h' (h hl)
  subset h _ := h
  code _ hl := hl
  load _ _ _ hl := hl
  forget _ _ hl := hl

section
variable {g : Graph} {β γ : Type}

/-! ## Emission in general -/

namespace KeepsLeaves

theorem pure (b : β) : KeepsLeaves g (Pure.pure b : LowerM β) := by
  intro l b l' h hl
  cases h
  exact hl

theorem bind {m : LowerM β} {f : β → LowerM γ} (hm : KeepsLeaves g m) (hf : ∀ b, KeepsLeaves g (f b)) :
    KeepsLeaves g (m >>= f) := by
  intro l c l' h hl
  obtain ⟨x, hx, hfx⟩ := bind_eq_ok.1 h
  exact hf _ hfx (hm hx hl)

/-- What does not depend on the program, with its answer. -/
theorem lift_bind {x : Except Fault β} {f : β → LowerM γ} (hf : ∀ b, x = .ok b → KeepsLeaves g (f b)) :
    KeepsLeaves g ((liftM x : LowerM β) >>= f) := by
  intro l c l' h hl
  cases x with
  | error e => cases h
  | ok b => exact hf b rfl h hl

theorem modify {f : Lowering → β × Lowering} (hf : ∀ l, l.program.LeavesOf g → (f l).2.program.LeavesOf g) :
    KeepsLeaves g (modifyGet f : LowerM β) := by
  intro l b l' h hl
  have heq : f l = (b, l') := Except.ok.inj h
  have hkept := hf l hl
  rwa [heq] at hkept

theorem get : KeepsLeaves g (get : LowerM Lowering) := by
  intro l b l' h hl
  cases h
  exact hl

end KeepsLeaves

namespace Obeys

/-- It does not matter which elements are emitted. -/
theorem relabel {m : BodyM β} {xs : List NodeId} (h : Obeys (leafLaw g) xs m) (ys : List NodeId) : Obeys (leafLaw g) ys m := h

theorem keepsLeaves {m : BodyM β} {xs : List NodeId} (h : Obeys (leafLaw g) xs m) (d : Draft) : KeepsLeaves g (m.run d) :=
  fun _ _ _ hrun => h hrun

theorem lower {m : LowerM β} (h : KeepsLeaves g m) : Obeys (leafLaw g) [] (liftM m : BodyM β) :=
  fun _ _ _ _ _ hrun => h (runOn_lower_eq_ok hrun).1

end Obeys

/-! ## Functions -/

theorem addBuffer_leavesOf {p : Program} (h : p.LeavesOf g) {source : Source} {len : Nat}
    (hnew : (⟨source, len⟩ : Buffer).LeafOf g) : (p.addBuffer source len).2.LeavesOf g := by
  unfold Program.addBuffer
  split
  · exact h
  · intro buffer hbuffer
    rcases List.mem_append.1 hbuffer with hold | hlast
    · exact h buffer hold
    · exact List.mem_singleton.1 hlast ▸ hnew

theorem leafBuffer_keeps {id : NodeId} {node : Node} (hn : g.node? id = some node) (hleaf : node.kind.isLeaf = true) :
    KeepsLeaves g (leafBuffer id node) := by
  refine .lift_bind fun len hlen => .modify fun l hl => addBuffer_leavesOf hl ?_
  rintro n linked ⟨⟩
  exact ⟨rfl, node, hn, hleaf, hlen⟩

theorem function_keeps (shape : Shape) {body : BodyM Unit} {xs : List NodeId} (hbody : Obeys (leafLaw g) xs body) :
    KeepsLeaves g (function shape body) := by
  refine .lift_bind fun len _ => (hbody.keepsLeaves {}).bind fun draft => .modify fun l hl => ?_
  exact addBuffer_leavesOf (p := l.program) hl fun n linked h => by cases h

theorem place_keeps (id : NodeId) (buffer : BufferId) : KeepsLeaves g (place id buffer) := .modify fun _ hl => hl

/-- A function of its own, placed and loaded from. -/
theorem placed_keeps {id : NodeId} {shape : Shape} {idx : List Coord} {m : LowerM BufferId} (hm : KeepsLeaves g m) :
    Obeys (leafLaw g) [] (do
      let buffer ← (m : BodyM BufferId)
      place id buffer
      load buffer shape idx) :=
  (Obeys.lower hm).second fun _ => (Obeys.lower (place_keeps ..)).second fun _ => .load ..

theorem emitNode_keeps {element : ElementEmitter} (h : ∀ x idx, Obeys (leafLaw g) [x] (element x idx)) {id : NodeId} {node : Node}
    (hn : g.node? id = some node) (idx : List Coord) : Obeys (leafLaw g) [id] (emitNode g element id node idx) := by
  have hinline (hleaf : node.kind.isLeaf = false) (hacc : node.kind.accumulates = false) :
      Obeys (leafLaw g) [id] (emitNode g element id node idx) :=
    (Obeys.emitNode hleaf hacc (fun x _ => h x) id idx).relabel [id]
  obtain ⟨kind, shape⟩ := node
  cases kind with
  | input => exact ((Obeys.lower (leafBuffer_keeps hn rfl)).second fun _ => .load ..).relabel [id]
  | weight => exact ((Obeys.lower (leafBuffer_keeps hn rfl)).second fun _ => .load ..).relabel [id]
  | constant c => exact hinline rfl rfl
  | unary op x => exact hinline rfl rfl
  | binary op lhs rhs => exact hinline rfl rfl
  | reshape x => exact hinline rfl rfl
  | permute x perm => exact hinline rfl rfl
  | reduce op x axes keepDims =>
    exact .lift_bind fun _ _ => (placed_keeps (function_keeps _ (.reduceBody (h x) ..))).relabel [id]
  | matmul lhs rhs =>
    exact .lift_bind fun _ _ => .lift_bind fun _ _ =>
      (placed_keeps (function_keeps _ (.matmulBody (h lhs) (h rhs) ..))).relabel [id]

theorem node?_of_fetch {id : NodeId} {node : Node} (h : g.fetch id = .ok node) : g.node? id = some node := by
  unfold Graph.fetch at h
  split at h
  · rename_i hn
    cases h
    exact hn
  · cases h

theorem elementBelow_keeps (bound : Nat) (top : Bool) (id : NodeId) (idx : List Coord) :
    Obeys (leafLaw g) [id] (elementBelow g bound top id idx) := by
  induction bound generalizing top id idx with
  | zero => exact .throw _
  | succ bound ih =>
    have hknown : Obeys (leafLaw g) [] (known? id idx) := by
      intro d l b d' l' h hl
      cases h
      exact hl
    refine hknown.second fun found => ?_
    cases found with
    | some v => exact (Obeys.pure v).relabel [id]
    | none =>
      refine .lift_bind fun node hnode => (Obeys.lower (KeepsLeaves.get.bind fun _ => .pure _)).second fun source => ?_
      have hremember (v : ValueId) : Obeys (leafLaw g) [] (do remember id idx v; return v) := by
        intro d l b d' l' h hl
        cases h
        exact hl
      cases source with
      | some buffer => exact ((Obeys.load ..).second hremember).relabel [id]
      | none => exact (emitNode_keeps (ih false) (node?_of_fetch hnode) idx).first hremember

theorem nodeFunction_keeps (id : NodeId) : KeepsLeaves g (nodeFunction g id) := by
  have helement : ∀ x idx, Obeys (leafLaw g) [x] (element g false x idx) := fun x idx => elementBelow_keeps ..
  refine .lift_bind fun node _ => ?_
  split
  · exact .lift_bind fun _ _ => function_keeps _ (.reduceBody (helement _) ..)
  · exact .lift_bind fun _ _ => .lift_bind fun _ _ => function_keeps _ (.matmulBody (helement _) (helement _) ..)
  · exact function_keeps _ (.elementwiseBody (fun idx => elementBelow_keeps ..) _)

/-! ## Steps -/

namespace StepKeepsLeaves

theorem bind {m : StepM β} {f : β → StepM γ} (hm : StepKeepsLeaves g m) (hf : ∀ b, StepKeepsLeaves g (f b)) :
    StepKeepsLeaves g (m >>= f) := by
  refine KeepsLeaves.bind hm fun x => ?_
  cases x with
  | error e => exact .pure _
  | ok b => exact hf b

theorem pure (b : β) : StepKeepsLeaves g (Pure.pure b : StepM β) := KeepsLeaves.pure _

theorem lower {m : LowerM β} (hm : KeepsLeaves g m) : StepKeepsLeaves g (liftM m : StepM β) := hm.bind fun _ => .pure _

/-- A node that is not there is refused. -/
theorem requestNode_bind {id : NodeId} {f : Node → StepM β} (hf : ∀ node, g.node? id = some node → StepKeepsLeaves g (f node)) :
    StepKeepsLeaves g (requestNode g id >>= f) := by
  intro l b l' h hl
  cases hn : g.node? id with
  | none =>
    obtain ⟨-, rfl⟩ := Prod.mk.inj (Except.ok.inj (h.symm.trans (StepM.runOn_bind_error (StepM.runOn_requestNode_none hn l))))
    exact hl
  | some node => exact hf node hn ((StepM.runOn_bind_ok (StepM.runOn_requestNode hn l)).symm.trans h) hl

/-- What is refused has changed nothing. -/
theorem throw_bind (e : LowerError) (f : β → StepM γ) : StepKeepsLeaves g ((throw e : StepM β) >>= f) := KeepsLeaves.pure _

theorem ite {c : Prop} [Decidable c] {m m' : StepM β} (hm : StepKeepsLeaves g m) (hm' : StepKeepsLeaves g m') :
    StepKeepsLeaves g (if c then m else m') := by
  split
  · exact hm
  · exact hm'

theorem modify (f : Lowering → Lowering) (hf : ∀ l, (f l).program.buffers = l.program.buffers) :
    StepKeepsLeaves g (modifyThe Lowering f : StepM Unit) := by
  intro l b l' h hl
  cases h
  intro buffer hbuffer
  exact hl buffer (hf l ▸ hbuffer)

end StepKeepsLeaves

theorem materialize_keeps (id : NodeId) : StepKeepsLeaves g (materialize g id) := by
  refine .requestNode_bind fun node hn => (StepKeepsLeaves.lower KeepsLeaves.get).bind fun l => ?_
  have hplace : ∀ b, StepKeepsLeaves g (do
      (place id b : LowerM Unit)
      return b) := fun b => (StepKeepsLeaves.lower (place_keeps ..)).bind fun _ => .pure _
  cases l.placed.lookup id with
  | some buffer => exact .pure buffer
  | none =>
    cases hleaf : node.kind.isLeaf with
    | true => exact (StepKeepsLeaves.lower (leafBuffer_keeps hn hleaf)).bind hplace
    | false => exact (StepKeepsLeaves.lower (nodeFunction_keeps id)).bind hplace

theorem output_keeps (id : NodeId) : StepKeepsLeaves g (output g id) := by
  refine .requestNode_bind fun node hn => ?_
  have hresult : ∀ b, StepKeepsLeaves g (do
      modifyThe Lowering fun l => { l with program := { l.program with output := some b } }
      return b) := by
    intro b
    refine StepKeepsLeaves.bind ?_ fun _ => .pure _
    exact .modify _ fun _ => rfl
  cases node.kind.isLeaf with
  | true => exact (StepKeepsLeaves.lower (nodeFunction_keeps id)).bind hresult
  | false => exact (materialize_keeps id).bind hresult

theorem updateBody_keeps (shape : Shape) (value : NodeId) : KeepsLeaves g (updateBody g shape value) := by
  have hbody : Obeys (leafLaw g) [value] (elementwiseBody shape (element g false value)) :=
    .elementwiseBody (fun idx => elementBelow_keeps ..) shape
  exact .lift_bind fun _ _ => (hbody.keepsLeaves {}).bind fun _ => .pure _

theorem withCopy_keeps (leaf : NodeId) (copy : BufferId) {m : LowerM β} (hm : KeepsLeaves g m) :
    KeepsLeaves g (withCopy leaf copy m) :=
  KeepsLeaves.get.bind fun _ => (place_keeps ..).bind fun _ => hm.bind fun _ =>
    (KeepsLeaves.modify fun _ hl => hl).bind fun _ => .pure _

theorem update_keeps (leaf value : NodeId) : StepKeepsLeaves g (update g leaf value) := by
  refine .requestNode_bind fun target hn => ?_
  cases hleaf : target.kind.isLeaf with
  | false => exact .throw_bind ..
  | true =>
    refine .requestNode_bind fun source _ => .ite (.throw_bind ..) ?_
    refine (StepKeepsLeaves.lower (leafBuffer_keeps hn hleaf)).bind fun buffer => ?_
    refine (StepKeepsLeaves.lower KeepsLeaves.get).bind fun l => ?_
    have hbody := updateBody_keeps (g := g) target.shape value
    have hpush : ∀ draft : Draft, StepKeepsLeaves g (do
        modifyThe Lowering fun l => { l with program := l.program.pushInto draft.code draft.inputs buffer }
        return buffer) := by
      intro draft
      refine StepKeepsLeaves.bind ?_ fun _ => .pure _
      exact .modify _ fun _ => rfl
    refine .ite (StepKeepsLeaves.bind ?_ hpush) ((StepKeepsLeaves.lower hbody).bind hpush)
    exact .lower ((nodeFunction_keeps leaf).bind fun copy => withCopy_keeps leaf copy hbody)

theorem Step.perform_keeps (step : Step) : StepKeepsLeaves g (step.perform g) := by
  cases step with
  | materialize id => exact materialize_keeps id
  | output id => exact output_keeps id
  | update leaf value => exact update_keeps leaf value

/-- The leaf buffers of a program built by steps. -/
theorem performSteps_leavesOf {steps : List Step} {reports : List Session.StepReport} {l l' : Lowering}
    (h : Session.performSteps g l steps = .ok (reports, l')) (hl : l.program.LeavesOf g) : l'.program.LeavesOf g := by
  induction steps generalizing l reports with
  | nil =>
    cases h
    exact hl
  | cons step steps ih =>
    obtain ⟨x, hstep, h⟩ := bind_eq_ok.1 h
    obtain ⟨y, hsteps, h⟩ := bind_eq_ok.1 h
    cases h
    exact ih hsteps (step.perform_keeps hstep hl)

end

end Lowering

end TensorLoom
