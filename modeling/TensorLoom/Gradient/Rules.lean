import TensorLoom.Graph.Build
/-
# Derivative rules

For every kind of node, the nodes that carry the derivative of a root from the node to
its operands. Contributions to one operand add up in the order in which they arise.
-/

namespace TensorLoom.Gradient

/-- The derivative found so far for each node, the latest first. -/
abbrev Table := List (NodeId × NodeId)

/-- Backward propagation: extends the graph and the table of derivatives. -/
abbrev Backward := StateT Table Build

/-- Which nodes up to the root have a target below them. -/
abbrev Needs := List Bool

def Needs.wants (needs : Needs) (x : NodeId) : Bool := needs[x]? = some true

/-- A node that is known to exist. -/
def fetch (x : NodeId) : Build Node := do Extend.words ((← get).fetch x)

/-- Sums a contribution over the axes along which the operand was stretched. -/
def unbroadcast (operand contribution : NodeId) : Build NodeId := do
  let target := (← fetch operand).shape
  let produced := (← fetch contribution).shape
  if target = produced then return contribution
  let axes ← Extend.words (Shape.broadcastAxes target produced)
  let summed ← if axes = [] then pure contribution else Build.reduce .sum contribution axes true
  if (← fetch summed).shape = target then return summed
  Build.reshape summed target

variable (needs : Needs)

/-- Adds a contribution to the derivative of `x`, if that is wanted. -/
def contribute (x contribution : NodeId) : Backward Unit := do
  if needs.wants x then
    let part ← unbroadcast x contribution
    match (← get).lookup x with
    | none => modify ((x, part) :: ·)
    | some before =>
      let total ← Build.binary .add before part
      modify ((x, total) :: ·)

/-- Adds the contribution that `part` builds, if the derivative of `x` is wanted. -/
def contributeBy (x : NodeId) (part : Build NodeId) : Backward Unit := do
  if needs.wants x then contribute needs x (← part)

/-! In each rule `id` is the node, `up` the derivative of the root by the node. -/

def unaryRule (id : NodeId) (op : UnaryOp) (x up : NodeId) : Backward Unit :=
  contributeBy needs x <| match op with
    | .exp => Build.binary .mul up id
    | .log => Build.binary .div up x
    | .sin => do
      -- the cosine of `x` is the sine of `x` and a quarter turn
      let quarter ← Build.constant 1.5707963267948966
      let shifted ← Build.binary .add x quarter
      let cosine ← Build.unary .sin shifted
      Build.binary .mul up cosine
    | .sqrt => do
      let half ← Build.constant 0.5
      let scale ← Build.binary .div half id
      Build.binary .mul up scale
    | .cast | .nop => pure up

def binaryRule (id : NodeId) (op : BinaryOp) (lhs rhs up : NodeId) : Backward Unit := do
  match op with
  | .add =>
    contribute needs lhs up
    contribute needs rhs up
  | .sub =>
    contribute needs lhs up
    contributeBy needs rhs (Build.neg up)
  | .mul =>
    contributeBy needs lhs (Build.binary .mul up rhs)
    contributeBy needs rhs (Build.binary .mul up lhs)
  | .div =>
    contributeBy needs lhs (Build.binary .div up rhs)
    contributeBy needs rhs do
      let numerator ← Build.binary .mul up lhs
      let denominator ← Build.binary .mul rhs rhs
      let quotient ← Build.binary .div numerator denominator
      Build.neg quotient
  | .pow =>
    contributeBy needs lhs do
      let one ← Build.constant 1.0
      let exponent ← Build.binary .sub rhs one
      let lowered ← Build.binary .pow lhs exponent
      let scale ← Build.binary .mul rhs lowered
      Build.binary .mul up scale
    contributeBy needs rhs do
      let logarithm ← Build.unary .log lhs
      let scale ← Build.binary .mul logarithm id
      Build.binary .mul up scale
  | .cmp => pure ()
  | .max =>
    -- on a tie the first operand takes all
    let mask ← (Build.binary .cmp id lhs : Build NodeId)
    contributeBy needs lhs (Build.binary .mul up mask)
    contributeBy needs rhs do
      let one ← Build.constant 1.0
      let rest ← Build.binary .sub one mask
      Build.binary .mul up rest

def reduceRule (id : NodeId) (op : ReduceOp) (x : NodeId) (axes : List Nat) (keepDims : Bool)
    (up : NodeId) : Backward Unit :=
  contributeBy needs x do
    let input := (← fetch x).shape
    let kept ← Build.rule op.name (Shape.reduce input axes true)
    let up ← if keepDims then pure up else Build.reshape up kept
    match op with
    | .sum =>
      let ones ← Build.full input 1.0
      Build.binary .mul up ones
    | .max =>
      let reduced ← if keepDims then pure id else Build.reshape id kept
      -- elements that share the maximum share its derivative equally
      let mask ← Build.binary .cmp x reduced
      let ties ← Build.reduce .sum mask axes true
      let share ← Build.binary .div mask ties
      Build.binary .mul up share

/-- A node as the matrix that a product takes it for. -/
def asMatrix (x : NodeId) (shape : Shape) (matrix : Shape.Matrix) : Build NodeId :=
  if shape.length = 2 then pure x else Build.reshape x matrix.shape

/-- A matrix back in the shape of the operand it stands for. -/
def ofMatrix (x : NodeId) (shape : Shape) : Build NodeId :=
  if shape.length = 2 then pure x else Build.reshape x shape

def matmulRule (lhs rhs up : NodeId) : Backward Unit := do
  if needs.wants lhs || needs.wants rhs then
    let lhsShape := (← fetch lhs).shape
    let rhsShape := (← fetch rhs).shape
    let (a, b) ← (Build.rule "matmul" (Shape.matrices lhsShape rhsShape) : Build _)
    let left ← asMatrix lhs lhsShape a
    let right ← asMatrix rhs rhsShape b
    contributeBy needs lhs do
      let flipped ← Build.transpose right
      let product ← Build.matmul up flipped
      ofMatrix product lhsShape
    contributeBy needs rhs do
      let flipped ← Build.transpose left
      let product ← Build.matmul flipped up
      ofMatrix product rhsShape

/-- Carries the derivative `up` of node `id` to its operands. -/
def rule (id : NodeId) (kind : Kind) (up : NodeId) : Backward Unit := do
  match kind with
  | .input | .weight | .constant _ => pure ()
  | .unary op x => unaryRule needs id op x up
  | .binary op lhs rhs => binaryRule needs id op lhs rhs up
  | .reduce op x axes keepDims => reduceRule needs id op x axes keepDims up
  | .reshape x =>
    let shape := (← fetch x).shape
    contribute needs x (← Build.reshape up shape)
  | .permute x perm =>
    let inverse ← (Extend.words (Shape.inversePermutation perm) : Build _)
    contribute needs x (← Build.permute up inverse)
  | .matmul lhs rhs => matmulRule needs lhs rhs up

end TensorLoom.Gradient
