import TensorLoom.Lowering.Body
import TensorLoom.Program.Verify
/-
# Lowering graphs to programs

A program is built in steps: make the elements of a node available in a buffer, name the
result, or overwrite a leaf with the value of a node.
-/

namespace TensorLoom

/-- Why lowering is refused. -/
inductive LowerError where
  | graph (error : GraphError)
  | updateShape (leaf value : NodeId) (expected found : Shape)
  | verify (error : VerifyError)
deriving DecidableEq, Repr

/-- The wording of a refused lowering. -/
def LowerError.message : LowerError → String
  | graph error => error.message
  | updateShape leaf value expected found =>
    "cannot update " ++ nodeName leaf ++ " of shape " ++ Shape.text expected ++ " with " ++
      nodeName value ++ " of shape " ++ Shape.text found
  | verify error => "lowered program is invalid: " ++ error.message

namespace Lowering

/-- A step of building a program. A refused step changes nothing. -/
abbrev StepM := ExceptT LowerError LowerM

variable (g : Graph)

/-- The node named by the caller. -/
def requestNode (id : NodeId) : StepM Node :=
  ExceptT.mk (pure ((g.node id).mapError LowerError.graph))

/-- The buffer with the elements of a node; a leaf's is its own storage. A function is
emitted at the first request. -/
def materialize (id : NodeId) : StepM BufferId := do
  let node ← requestNode g id
  match (← getThe Lowering).placed.lookup id with
  | some buffer => return buffer
  | none =>
    let buffer ← if node.kind.isLeaf then leafBuffer id node else nodeFunction g id
    place id buffer
    return buffer

/-- Makes a node the result of the program. The result is always in scratch, so a leaf is
copied. -/
def output (id : NodeId) : StepM BufferId := do
  let node ← requestNode g id
  let buffer ← if node.kind.isLeaf then (nodeFunction g id : LowerM _) else materialize g id
  modifyThe Lowering fun l => { l with program := { l.program with output := some buffer } }
  return buffer

/-! ## Updates in place -/

/-- The operands that are inlined into a node, and whether each is read at the element being
written where the node is. -/
def inlined (aligned : Bool) (node : Node) : List (NodeId × Bool) :=
  let sameShape (x : NodeId) : Bool := (g.node? x).any (·.shape == node.shape)
  match node.kind with
  | .unary _ x => [(x, aligned)]
  | .binary _ lhs rhs => [(lhs, aligned && sameShape lhs), (rhs, aligned && sameShape rhs)]
  | .reshape x | .permute x _ => [(x, false)]
  | .input | .weight | .constant _ | .reduce .. | .matmul .. => []

/-- Takes nodes from the stack, each with whether it is read at the element being written, and
puts what is inlined into them back on it, until the leaf is found to be read elsewhere or the
stack is empty. A pair that was seen before is left out; nodes in a buffer and the leaf itself
are not looked into. -/
def searchReads (placed : List (NodeId × BufferId)) (leaf : NodeId) :
    (fuel : Nat) → (stack seen : List (NodeId × Bool)) → Bool
  | 0, _, _ => false
  | _ + 1, [], _ => false
  | fuel + 1, (id, aligned) :: stack, seen =>
    if (id, aligned) ∈ seen then searchReads placed leaf fuel stack seen
    else if id = leaf then !aligned || searchReads placed leaf fuel stack ((id, aligned) :: seen)
    else if (placed.lookup id).isSome then searchReads placed leaf fuel stack ((id, aligned) :: seen)
    else
      match g.node? id with
      | none => searchReads placed leaf fuel stack ((id, aligned) :: seen)
      | some node =>
        searchReads placed leaf fuel ((inlined g aligned node).reverse ++ stack) ((id, aligned) :: seen)

/-- Whether the inlined value reads the leaf at an element other than the one written:
then the update has to read a copy. Each pair of a node up to `value` is looked into once at
most, and puts two others on the stack at most. -/
def readsElsewhere (placed : List (NodeId × BufferId)) (value leaf : NodeId) : Bool :=
  searchReads g placed leaf (4 * (value + 1) + 1) [(value, true)] []

/-- Runs with the leaf read from `copy`, and forgets the copy afterwards. -/
def withCopy {α : Type} (leaf : NodeId) (copy : BufferId) (m : LowerM α) : LowerM α := do
  let before := (← get).placed.lookup leaf
  place leaf copy
  let a ← m
  modify fun l => { l with
    placed := match before with
      | some buffer => (leaf, buffer) :: l.placed
      | none => l.placed.filter (·.1 != leaf) }
  return a

/-- The body that writes the value of a node over a leaf of the same shape. -/
def updateBody (shape : Shape) (value : NodeId) : LowerM Draft := do
  let _ ← (Shape.elementCount shape : Except Fault _)
  let ((), draft) ← (elementwiseBody shape (element g false value)).run {}
  return draft

/-- Appends a function that overwrites the leaf's storage with the value of a node. -/
def update (leaf value : NodeId) : StepM BufferId := do
  let target ← requestNode g leaf
  if !target.kind.isLeaf then throw (.graph (.notALeaf leaf))
  let source ← requestNode g value
  if source.shape ≠ target.shape then throw (.updateShape leaf value target.shape source.shape)
  let buffer ← leafBuffer leaf target
  let placed := (← getThe Lowering).placed
  let body := updateBody g target.shape value
  let draft ← if readsElsewhere g placed value leaf then (do
      let copy ← nodeFunction g leaf
      withCopy leaf copy body : LowerM Draft)
    else body
  modifyThe Lowering fun l => { l with program := l.program.pushInto draft.code draft.inputs buffer }
  return buffer

/-- A step that a caller can ask for. -/
inductive Step where
  | materialize (node : NodeId)
  | output (node : NodeId)
  | update (leaf value : NodeId)
deriving DecidableEq, Repr

def Step.perform : Step → StepM BufferId
  | materialize node => Lowering.materialize g node
  | output node => Lowering.output g node
  | update leaf value => Lowering.update g leaf value

/-- Runs a step: its buffer or the refusal, and the program afterwards. -/
def Step.runOn (step : Step) (l : Lowering) : Except Fault (Except LowerError BufferId × Lowering) :=
  (step.perform g).run.run l

/-- The verified program. -/
def finish (l : Lowering) : Except LowerError Program := do
  l.program.verify.mapError LowerError.verify
  return l.program

end Lowering

/-- The program that computes one node. -/
def lower (g : Graph) (root : NodeId) : Except Fault (Except LowerError Program) := do
  let (result, l) ← (Lowering.Step.output root).runOn g {}
  return result.bind fun _ => l.finish

end TensorLoom
