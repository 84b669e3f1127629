import TensorLoom.Gradient.Rules
/-
# Gradients

`differentiate` appends the nodes that compute, for every target leaf, the derivative of
the sum of the root's elements. A target that the root does not depend on gets zeros.
-/

namespace TensorLoom

/-- Why a gradient is refused. -/
inductive GradientError where
  | invalidTarget (id : NodeId)
  | graph (error : GraphError)
deriving DecidableEq, Repr

/-- The wording of a refused gradient. -/
def GradientError.message : GradientError → String
  | invalidTarget id => "gradient target " ++ nodeName id ++ " is not an input or weight leaf"
  | graph error => error.message

/-- For each leaf its gradient, in increasing order of the leaves. -/
abbrev Gradients := List (NodeId × NodeId)

/-- Adds or replaces the gradient of a leaf. -/
def Gradients.insert (leaf grad : NodeId) : Gradients → Gradients
  | [] => [(leaf, grad)]
  | (l, g) :: rest =>
    if leaf < l then (leaf, grad) :: (l, g) :: rest
    else if leaf = l then (leaf, grad) :: rest
    else (l, g) :: insert leaf grad rest

namespace Gradient

/-- Whether each node up to `root` is a target or has one below it, found upwards. -/
def needsOf (g : Graph) (root : NodeId) (targets : List NodeId) : Needs :=
  (List.range (root + 1)).foldl (fun needs i =>
    needs ++ [targets.contains i || (g.operandsOf i).any (Needs.wants needs)]) []

/-- Carries the derivative from node `i`, if it has one that is wanted. -/
def propagateAt (needs : Needs) (i : NodeId) : Backward Unit := do
  if needs.wants i then
    match (← get).lookup i with
    | none => pure ()
    | some up =>
      let node ← fetch i
      rule needs i node.kind up

/-- From the root downwards, starting with the derivative 1 of the root by itself. -/
def propagate (needs : Needs) (root : NodeId) : Backward Unit := do
  let node ← fetch root
  let ones ← Build.full node.shape 1.0
  modify ((root, ones) :: ·)
  (List.range (root + 1)).reverse.forM (propagateAt needs)

/-- The derivative of a target; one that was never reached is zero. -/
def gradientOf (table : Table) (target : NodeId) : Build NodeId := do
  match table.lookup target with
  | some grad => return grad
  | none => Build.full (← fetch target).shape 0.0

/-- The gradients of all targets. -/
def collect (table : Table) (targets : List NodeId) : Build Gradients :=
  targets.foldlM (fun grads t => return grads.insert t (← gradientOf table t)) []

/-- The root exists, and every target is a leaf. -/
def checkRequest (g : Graph) (root : NodeId) (targets : List NodeId) : Except GradientError Unit := do
  let _ ← (g.node root).mapError GradientError.graph
  targets.forM fun t => do
    let node ← (g.node t).mapError GradientError.graph
    if node.kind.isLeaf then pure () else throw (.invalidTarget t)

/-- All gradients of a root whose request was checked. -/
def gradients (root : NodeId) (targets : List NodeId) : Build Gradients := do
  let needs := needsOf (← get) root targets
  let ((), table) ← (propagate needs root).run []
  collect table targets

end Gradient

/-- Appends the gradients of `root` by the targets. -/
def differentiate (root : NodeId) (targets : List NodeId) : Extend GradientError Gradients := do
  Extend.request (Gradient.checkRequest (← get) root targets)
  (Gradient.gradients root targets).adapt GradientError.graph

end TensorLoom
