import TensorLoom.Compile
import TensorLoom.Gradient.Basic
import TensorLoom.Lowering.Basic
/-
# Compiled graphs

A root and its gradients in one module.
-/

namespace TensorLoom

/-- Why a graph does not become a module. -/
inductive CompileGraphError where
  | graph (error : GraphError)
  | gradient (error : GradientError)
  | lower (error : LowerError)
  | compile (error : CompileError)
deriving DecidableEq, Repr

/-- The wording of the refusal; none where the text would be that of a tool. -/
def CompileGraphError.message? : CompileGraphError → Option String
  | graph error => some error.message
  | gradient error => some ("autodiff failed: " ++ error.message)
  | lower error => some ("lowering failed: " ++ error.message)
  | compile error => error.message?.map ("compilation failed: " ++ ·)

/-- A module that computes a root and the gradients that were asked for. -/
structure CompiledGraph (α : Type) where
  module : Module α
  root : NodeId
  /-- For each leaf the buffer of its gradient, in increasing order of the leaves. -/
  gradients : List (NodeId × BufferId)

/-- The gradient of a leaf after the last execution, if it was asked for. -/
def CompiledGraph.gradient? {α : Type} (c : CompiledGraph α) (leaf : NodeId) : Option (Array α) :=
  (c.gradients.lookup leaf).bind c.module.buffer?

/-- The verified program of a run of lowering steps, with their result. -/
def Lowering.complete {β : Type} (steps : Lowering.StepM β) : Except Fault (Except LowerError (β × Program)) := do
  let (result, l) ← steps.run.run {}
  return result.bind fun b => l.finish.map fun p => (b, p)

/-- The program of a root and its gradients, with the buffer of each gradient. -/
def lowerWithGradients (g : Graph) (root : NodeId) (grads : Gradients) :
    Except Fault (Except LowerError (List (NodeId × BufferId) × Program)) :=
  Lowering.complete do
    let _ ← Lowering.output g root
    grads.mapM fun (leaf, grad) => return (leaf, ← Lowering.materialize g grad)

/-- Compiles a root with its gradients by `targets`, which are appended to the graph. -/
def compileGraph {α : Type} (A : Arith α) (root : NodeId) (targets : List NodeId) (backend : Backend α) :
    Extend CompileGraphError (CompiledGraph α) := do
  let _ ← (Build.node root).adapt CompileGraphError.graph
  let grads ← if targets = [] then pure [] else
    (differentiate root targets).adapt CompileGraphError.gradient
  let g ← get
  let (gradients, p) ← (Extend.answer (lowerWithGradients g root grads)).adapt CompileGraphError.lower
  let module ← (Extend.answer (compile A p backend)).adapt CompileGraphError.compile
  return ⟨module, root, gradients⟩

end TensorLoom
