import TensorLoom.CompiledGraph
/-
# Training steps

One step of gradient descent on the squared distance between a root and a target, as one
module: the loss, all gradients at the current weights, and then every weight
overwritten.
-/

namespace TensorLoom

/-- Why a training step is refused. -/
inductive TrainError where
  | graph (error : GraphError)
  | gradient (error : GradientError)
  | lower (error : LowerError)
  | compile (error : CompileError)
  | execute (error : ExecuteError)
  | learningRate (rate : Float)
deriving Repr

/-- A number that is not finite. -/
def nonFiniteText (x : Float) : String :=
  if x.isNaN then "NaN" else if x > 0.0 then "inf" else "-inf"

/-- The wording of the refusal; none where the text would be that of a tool. -/
def TrainError.message? : TrainError → Option String
  | graph error => some error.message
  | gradient error => some ("autodiff failed: " ++ error.message)
  | lower error => some ("lowering failed: " ++ error.message)
  | compile error => error.message?.map ("compilation failed: " ++ ·)
  | execute error => some error.message
  | learningRate rate => some ("learning rate must be finite, got " ++ nonFiniteText rate)

/-- A compiled training step. -/
structure Training (α : Type) where
  /-- The input that the root is compared with. -/
  target : LeafHandle
  /-- The weights that every step updates, in increasing order. -/
  weights : List LeafHandle
  /-- The node of the squared differences. -/
  loss : NodeId
  lossBuffer : BufferId
  module : Module α

namespace Training

/-- The learning rate when none is given. -/
def standardRate : Float := 0.1

variable {α : Type} (A : Arith α)

/-- The squared differences of the last step, before its update. -/
def lossValues (t : Training α) : Array α := (t.module.buffer? t.lossBuffer).getD #[]

/-- Their sum. -/
def lossSum (t : Training α) : α := t.lossValues.toList.foldl (A.fold .sum) (A.lit 0.0)

/-- A training step as it is shown. -/
def describe (t : Training α) (st : Store α) : String :=
  let weights := ", ".intercalate (t.weights.map (LeafHandle.describe st))
  "TrainingContext \x7b target: " ++ t.target.describe st ++ ", weights: [" ++ weights ++
    s!"], loss: NodeId({t.loss}), loss_buffer: BufferId({t.lossBuffer}), .. \x7d"

/-- The part of a graph that a step computes. -/
structure Plan where
  target : NodeId
  loss : NodeId
  weights : List NodeId
  /-- For each weight its gradient and the node of its next value. -/
  updates : List (NodeId × NodeId × NodeId)
deriving DecidableEq, Repr

/-- Appends the target and the squared differences. -/
def planLoss (root : NodeId) : Build (NodeId × NodeId) := do
  let shape ← Build.shapeOf root
  let target ← Build.input shape
  let difference ← Build.binary .sub target root
  let loss ← Build.square difference
  return (target, loss)

/-- Appends the next value of every weight: itself less its gradient times the rate. -/
def planUpdates (rate : Float) (grads : Gradients) : Build (List (NodeId × NodeId × NodeId)) := do
  let factor ← Build.constant rate
  grads.mapM fun (weight, grad) => do
    let step ← Build.binary .mul grad factor
    let next ← Build.binary .sub weight step
    return (weight, grad, next)

/-- Appends all that a step computes. -/
def plan (root : NodeId) (rate : Float) : Extend TrainError Plan := do
  let (target, loss) ← (planLoss root).adapt TrainError.graph
  let weights ← (Extend.request ((← get).weightsOf loss)).adapt TrainError.graph
  let grads ← (differentiate loss weights).adapt TrainError.gradient
  let updates ← (planUpdates rate grads).adapt TrainError.graph
  return ⟨target, loss, weights, updates⟩

/-- The program of a step. Every gradient is computed before the first update. -/
def lowerPlan (g : Graph) (plan : Plan) : Except Fault (Except LowerError (BufferId × Program)) :=
  Lowering.complete do
    let lossBuffer ← Lowering.output g plan.loss
    plan.updates.forM fun (_, grad, _) => do let _ ← Lowering.materialize g grad
    plan.updates.forM fun (weight, _, next) => do let _ ← Lowering.update g weight next
    return lossBuffer

/-- The handle of a leaf. -/
def leafHandle (id : NodeId) : Build LeafHandle := do Extend.answer ((← get).leafHandle id)

/-- Compiles a training step for a root. -/
def compile (root : NodeId) (rate : Float) (backend : Backend α) : Extend TrainError (Training α) := do
  if !rate.isFinite then throw (.learningRate rate)
  let plan ← plan root rate
  let g ← get
  let (lossBuffer, p) ← (Extend.answer (lowerPlan g plan)).adapt TrainError.lower
  let module ← (Extend.answer (TensorLoom.compile A p backend)).adapt TrainError.compile
  let weights ← (plan.weights.mapM leafHandle).adapt TrainError.graph
  let target ← (leafHandle plan.target).adapt TrainError.graph
  return ⟨target, weights, plan.loss, lossBuffer, module⟩

end Training

end TensorLoom
