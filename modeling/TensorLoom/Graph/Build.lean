import TensorLoom.Graph.Basic
/-
# Graph construction

Construction appends nodes. A refused operation reports why; nodes that earlier steps of
the same operation appended stay. `Construction` lists every operation that a caller can
ask for, and `Construction.build` performs it.
-/

namespace TensorLoom

/-- A computation that extends a graph or is refused with an `ε`. The graph is kept when a
request is refused. -/
abbrev Extend (ε : Type) := ExceptT ε (StateT Graph (Except Fault))

namespace Extend

variable {ε α : Type}

/-- Runs on a graph: the result or the refusal, and the graph afterwards. -/
def runOn (b : Extend ε α) (g : Graph) : Except Fault (Except ε α × Graph) := b.run.run g

/-- A request that is answered or refused, if it does not fault. -/
def answer (r : Except Fault (Except ε α)) : Extend ε α := ExceptT.mk (StateT.lift r)

/-- A request that is answered or refused. -/
def request (r : Except ε α) : Extend ε α := answer (.ok r)

/-- A computation in words that may fault. -/
def words (r : Except Fault α) : Extend ε α := ExceptT.lift (StateT.lift r)

end Extend

/-- Construction of nodes. -/
abbrev Build := Extend GraphError

namespace Build

/-- A shape rule of the operation `op`. -/
def rule {α : Type} (op : String) (r : Except ShapeError α) : Build α :=
  Extend.request (r.mapError (GraphError.shape op))

def node (id : NodeId) : Build Node := do Extend.request ((← get).node id)

def shapeOf (id : NodeId) : Build Shape := return (← node id).shape

/-- Appends a node and returns its position. -/
def push (kind : Kind) (shape : Shape) : Build NodeId := do
  let g ← get
  modify fun g => ⟨g.nodes ++ [⟨kind, shape⟩]⟩
  return g.length

/-- A leaf. Its number of elements has to fit a word. -/
def leaf (kind : Kind) (op : String) (shape : Shape) : Build NodeId := do
  rule op (Shape.validate shape)
  let id ← push kind shape
  let _ ← Extend.words (Shape.elementCount shape)
  return id

def input (shape : Shape) : Build NodeId := leaf .input "input" shape
def weight (shape : Shape) : Build NodeId := leaf .weight "weight" shape

/-- A scalar, which stretches to any shape. -/
def constant (value : Float) : Build NodeId := push (.constant value) []

def full (shape : Shape) (value : Float) : Build NodeId := do
  rule "full" (Shape.validate shape)
  push (.constant value) shape

def unary (op : UnaryOp) (x : NodeId) : Build NodeId := do
  push (.unary op x) (← shapeOf x)

def binary (op : BinaryOp) (lhs rhs : NodeId) : Build NodeId := do
  let a ← shapeOf lhs
  let b ← shapeOf rhs
  push (.binary op lhs rhs) (← rule op.name (Shape.broadcast a b))

def reduce (op : ReduceOp) (x : NodeId) (axes : List Nat) (keepDims : Bool) : Build NodeId := do
  let input ← shapeOf x
  let shape ← rule op.name (Shape.reduce input axes keepDims)
  let axes ← rule op.name (Shape.normalizeAxes axes input.length)
  push (.reduce op x axes keepDims) shape

def matmul (lhs rhs : NodeId) : Build NodeId := do
  let a ← shapeOf lhs
  let b ← shapeOf rhs
  push (.matmul lhs rhs) (← rule "matmul" (Shape.matmul a b))

def reshape (x : NodeId) (dims : Shape) : Build NodeId := do
  let input ← shapeOf x
  let shape ← rule "reshape" (← Extend.words (Shape.reshape input dims))
  push (.reshape x) shape

def permute (x : NodeId) (perm : List Nat) : Build NodeId := do
  let input ← shapeOf x
  push (.permute x perm) (← rule "permute" (Shape.permute input perm))

/-- Swaps the two axes of a matrix. -/
def transpose (x : NodeId) : Build NodeId := do
  let input ← shapeOf x
  if input.length = 2 then permute x [1, 0]
  else rule "transpose" (.error (.rankMismatch "a rank-2 tensor" input))

/-- The sum of all elements as a scalar. -/
def sumAll (x : NodeId) : Build NodeId := do
  let input ← shapeOf x
  if input = [] then return x
  reduce .sum x (List.range input.length) false

def neg (x : NodeId) : Build NodeId := do
  let minusOne ← constant (-1.0)
  binary .mul x minusOne

def square (x : NodeId) : Build NodeId := binary .mul x x

/-- 1 where `lhs > rhs` and 0 elsewhere: the larger of `rhs` and `lhs` differs from `rhs`. -/
def gt (lhs rhs : NodeId) : Build NodeId := do
  let larger ← binary .max rhs lhs
  let notGreater ← binary .cmp larger rhs
  let one ← constant 1.0
  binary .sub one notGreater

def relu (x : NodeId) : Build NodeId := do
  let floor ← constant 0.0
  binary .max x floor

def sigmoid (x : NodeId) : Build NodeId := do
  let one ← constant 1.0
  let minus ← neg x
  let power ← unary .exp minus
  let denominator ← binary .add one power
  binary .div one denominator

end Build

/-- An operation that a caller can ask of a graph. -/
inductive Construction where
  | input (shape : Shape)
  | weight (shape : Shape)
  | constant (value : Float)
  | full (shape : Shape) (value : Float)
  | unary (op : UnaryOp) (x : NodeId)
  | binary (op : BinaryOp) (lhs rhs : NodeId)
  | reduce (op : ReduceOp) (x : NodeId) (axes : List Nat) (keepDims : Bool)
  | matmul (lhs rhs : NodeId)
  | reshape (x : NodeId) (dims : Shape)
  | permute (x : NodeId) (perm : List Nat)
  | transpose (x : NodeId)
  | sumAll (x : NodeId)
  | neg (x : NodeId)
  | square (x : NodeId)
  | gt (lhs rhs : NodeId)
  | relu (x : NodeId)
  | sigmoid (x : NodeId)
deriving Repr

def Construction.build : Construction → Build NodeId
  | input shape => Build.input shape
  | weight shape => Build.weight shape
  | constant value => Build.constant value
  | full shape value => Build.full shape value
  | unary op x => Build.unary op x
  | binary op lhs rhs => Build.binary op lhs rhs
  | reduce op x axes keepDims => Build.reduce op x axes keepDims
  | matmul lhs rhs => Build.matmul lhs rhs
  | reshape x dims => Build.reshape x dims
  | permute x perm => Build.permute x perm
  | transpose x => Build.transpose x
  | sumAll x => Build.sumAll x
  | neg x => Build.neg x
  | square x => Build.square x
  | gt lhs rhs => Build.gt lhs rhs
  | relu x => Build.relu x
  | sigmoid x => Build.sigmoid x

end TensorLoom
