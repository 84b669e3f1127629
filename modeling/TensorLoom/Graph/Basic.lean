import TensorLoom.Op
import TensorLoom.Shape.Rules
/-
# Graphs

A graph is an append-only list of tensor operations. A node is named by its position,
and its operands come before it.
-/

namespace TensorLoom

/-- Position of a node in its graph. -/
abbrev NodeId := Nat

/-- What a node computes. -/
inductive Kind where
  /-- Data of the caller that is never updated. -/
  | input
  /-- Data of the caller that training updates. -/
  | weight
  /-- Every element is the value. -/
  | constant (value : Float)
  | unary (op : UnaryOp) (x : NodeId)
  | binary (op : BinaryOp) (lhs rhs : NodeId)
  | reduce (op : ReduceOp) (x : NodeId) (axes : List Nat) (keepDims : Bool)
  | reshape (x : NodeId)
  | permute (x : NodeId) (perm : List Nat)
  | matmul (lhs rhs : NodeId)
deriving Repr

/-- The nodes a node reads. -/
def Kind.operands : Kind → List NodeId
  | input | weight | constant _ => []
  | unary _ x | reduce _ x _ _ | reshape x | permute x _ => [x]
  | binary _ lhs rhs | matmul lhs rhs => [lhs, rhs]

/-- The caller supplies the node's data. -/
def Kind.isLeaf : Kind → Bool
  | input | weight => true
  | _ => false

def Kind.isWeight : Kind → Bool
  | weight => true
  | _ => false

structure Node where
  kind : Kind
  shape : Shape
deriving Repr

structure Graph where
  nodes : List Node := []
deriving Repr

/-- Why a request to a graph is refused. -/
inductive GraphError where
  | shape (op : String) (error : ShapeError)
  | unknownNode (id : NodeId)
  | notALeaf (id : NodeId)
  | sizeMismatch (id : NodeId) (expected found : Nat)
deriving DecidableEq, Repr

/-- How a node is written. -/
def nodeName (id : NodeId) : String := s!"n{id}"

/-- The wording of a refused request. -/
def GraphError.message : GraphError → String
  | shape op error => "invalid shape for " ++ op ++ ": " ++ error.message
  | unknownNode id => "node " ++ nodeName id ++ " does not exist in this graph"
  | notALeaf id => "node " ++ nodeName id ++ " is not an input or weight leaf"
  | sizeMismatch id expected found =>
    "storage for " ++ nodeName id ++ s!" holds {found} elements, expected {expected}"

/-- A leaf and its number of elements. -/
structure LeafHandle where
  id : NodeId
  len : Nat
deriving DecidableEq, Repr

namespace Graph

def length (g : Graph) : Nat := g.nodes.length

def node? (g : Graph) (id : NodeId) : Option Node := g.nodes[id]?

/-- The node named by the caller. -/
def node (g : Graph) (id : NodeId) : Except GraphError Node :=
  match g.node? id with
  | some n => .ok n
  | none => .error (.unknownNode id)

/-- A node that is known to exist. -/
def fetch (g : Graph) (id : NodeId) : Except Fault Node :=
  match g.node? id with
  | some n => .ok n
  | none => .error .node

def shapeOf (g : Graph) (id : NodeId) : Except GraphError Shape := return (← g.node id).shape

/-- The operands of a node; a missing node has none. -/
def operandsOf (g : Graph) (id : NodeId) : List NodeId :=
  match g.node? id with
  | some n => n.kind.operands
  | none => []

/-- The handle of a leaf. -/
def leafHandle (g : Graph) (id : NodeId) : Except Fault (Except GraphError LeafHandle) :=
  match g.node id with
  | .error e => .ok (.error e)
  | .ok n =>
    if n.kind.isLeaf then do
      let len ← Shape.elementCount n.shape
      return .ok ⟨id, len⟩
    else .ok (.error (.notALeaf id))

/-! ## Dependencies -/

/-- Marks the operands of node `i` if it is marked itself. -/
def markOperands (g : Graph) (marks : List Bool) (i : NodeId) : List Bool :=
  if marks[i]? = some true then
    (g.operandsOf i).foldl (fun marks x => marks.set x true) marks
  else marks

/-- For every node up to `root`, whether the value of `root` depends on it: one sweep
downwards from `root`. -/
def reachMarks (g : Graph) (root : NodeId) : List Bool :=
  (List.range (root + 1)).reverse.foldl g.markOperands ((List.replicate (root + 1) false).set root true)

def reachable (g : Graph) (root : NodeId) : Except GraphError (List Bool) := do
  let _ ← g.node root
  return g.reachMarks root

/-- The weights that `root` depends on, in increasing order. -/
def weightsOf (g : Graph) (root : NodeId) : Except GraphError (List NodeId) := do
  let marks ← g.reachable root
  return (List.range (root + 1)).filter fun i =>
    marks[i]? = some true && ((g.node? i).any (·.kind.isWeight))

end Graph

end TensorLoom
