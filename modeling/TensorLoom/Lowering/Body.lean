import TensorLoom.Graph.Basic
import TensorLoom.Lowering.Index
import TensorLoom.Program.Basic
/-
# Function bodies

Emission of one function. Nodes that work element by element are inlined into the loops
that need them; a reduction or a matrix product is a function of its own whose buffer
the others load. A function that turns out to be needed is emitted before the function
under construction is complete, so it comes earlier in the program.
-/

namespace TensorLoom

/-- A program under construction. -/
structure Lowering where
  program : Program := {}
  /-- The nodes whose elements are in a buffer, the latest entry first. -/
  placed : List (NodeId × BufferId) := []
deriving Repr

namespace Lowering

/-- A function under construction. -/
structure Draft where
  code : List Instr := []
  inputs : List BufferId := []
  /-- Values computed in the scopes that are open, by node and index. -/
  known : List ((NodeId × List Coord) × ValueId) := []
deriving Repr

/-- Emission of whole functions. -/
abbrev LowerM := StateT Lowering (Except Fault)

/-- Emission of the body of one function. -/
abbrev BodyM := StateT Draft LowerM

/-! ## Steps of a body -/

/-- Emits code into the body. -/
def code {α : Type} (c : Code α) : BodyM α := do
  let draft ← get
  let (a, code) ← (c.run draft.code : Except Fault _)
  modify fun d => { d with code := code }
  return a

/-- Appends one instruction. -/
def instr (i : Instr) : BodyM ValueId := code (emit i)

def openLoop (range stride : Nat) : BodyM Coord := return .var (← instr (.loop range stride))

/-- Closes a loop. What was computed inside is no longer in scope. -/
def closeLoop : BodyM Unit := do
  let _ ← instr .close
  modify fun d => { d with known := [] }

def closeLoops (n : Nat) : BodyM Unit := (List.range n).forM fun _ => closeLoop

/-- Reads the element of a buffer at `idx`. -/
def load (buffer : BufferId) (shape : Shape) (idx : List Coord) : BodyM ValueId := do
  let (input, inputs) := addInput (← get).inputs buffer
  modify fun d => { d with inputs := inputs }
  let offset ← code (linearOffset idx shape)
  instr (.load input offset)

/-- The element at `idx` of a node that was computed in an open scope. -/
def known? (id : NodeId) (idx : List Coord) : BodyM (Option ValueId) :=
  return (← get).known.lookup (id, idx)

def remember (id : NodeId) (idx : List Coord) (v : ValueId) : BodyM Unit :=
  modify fun d => { d with known := ((id, idx), v) :: d.known }

/-! ## Whole functions -/

/-- The buffer of a leaf. -/
def leafBuffer (id : NodeId) (node : Node) : LowerM BufferId := do
  let len ← (Shape.elementCount node.shape : Except Fault _)
  modifyGet fun l =>
    let (b, program) := l.program.addLeaf id true len
    (b, { l with program := program })

/-- Appends the function with this body, which writes scratch of `len` elements. -/
def function (shape : Shape) (body : BodyM Unit) : LowerM BufferId := do
  let len ← (Shape.elementCount shape : Except Fault _)
  let ((), draft) ← body.run {}
  modifyGet fun l =>
    let (b, program) := l.program.push draft.code draft.inputs len
    (b, { l with program := program })

def place (id : NodeId) (buffer : BufferId) : LowerM Unit :=
  modify fun l => { l with placed := (id, buffer) :: l.placed }

/-- The element of a node at an index, emitted into the body. -/
abbrev ElementEmitter := NodeId → List Coord → BodyM ValueId

/-- One loop per axis around a store of the element that `element` emits. -/
def elementwiseBody (shape : Shape) (element : List Coord → BodyM ValueId) : BodyM Unit := do
  let strides ← (Shape.rowMajorStrides shape : Except Fault _)
  let idx ← (shape.zip strides).mapM fun (extent, stride) => openLoop extent stride
  let v ← element idx
  let offset ← code (linearOffset idx shape)
  let _ ← instr (.store offset v)
  closeLoops shape.length

/-- Fills the positions that `axes` lists from `inner` and the others from `outer`, both
in order. -/
def weave {β : Type} (axes : List Nat) : (pos rank : Nat) → (inner outer : List β) → List β
  | _, 0, _, _ => []
  | pos, rank + 1, inner, outer =>
    if pos ∈ axes then
      match inner with
      | [] => []
      | i :: inner => i :: weave axes (pos + 1) rank inner outer
    else
      match outer with
      | [] => []
      | o :: outer => o :: weave axes (pos + 1) rank inner outer

/-- Loops over the axes that stay, and inside them an accumulation over those that go. -/
def reduceBody (element : ElementEmitter) (input output : Shape) (op : ReduceOp) (x : NodeId)
    (axes : List Nat) (keepDims : Bool) : BodyM Unit := do
  let strides ← (Shape.rowMajorStrides output : Except Fault _)
  let strides := if keepDims then Shape.dropAxes axes strides else strides
  let outer ← ((Shape.dropAxes axes input).zip strides).mapM fun (extent, stride) => openLoop extent stride
  let acc ← instr (.imm op.start)
  let inner ← (axes.filterMap (input[·]?)).mapM fun extent => openLoop extent 0
  let v ← element x (weave axes 0 input.length inner outer)
  let _ ← instr (.accumulate op acc v)
  closeLoops inner.length
  let idx := if keepDims then
    weave axes 0 input.length (axes.map fun _ => Coord.origin) outer else outer
  let offset ← code (linearOffset idx output)
  let _ ← instr (.store offset acc)
  closeLoops outer.length

/-- Loops over rows and columns, and inside them a sum of products. -/
def matmulBody (element : ElementEmitter) (lhsShape rhsShape output : Shape) (lhs rhs : NodeId) :
    BodyM Unit := do
  match Shape.matrices lhsShape rhsShape with
  | .error _ => throw .rank
  | .ok (a, b) =>
    let i ← openLoop a.rows b.cols
    let j ← openLoop b.cols 1
    let acc ← instr (.imm 0.0)
    let p ← openLoop a.cols 0
    let left ← element lhs (if lhsShape.length = 2 then [i, p] else [p])
    let right ← element rhs (if rhsShape.length = 2 then [p, j] else [p])
    let product ← instr (.binary .mul left right)
    let _ ← instr (.accumulate .sum acc product)
    closeLoop
    let offset ← code (linearOffset [i, j] output)
    let _ ← instr (.store offset acc)
    closeLoops 2

/-! ## Elements -/

section
variable (g : Graph)

/-- Emits the element at `idx` of a node that is in no buffer; `element` emits those of its
operands. -/
def emitNode (element : ElementEmitter) (id : NodeId) (node : Node) (idx : List Coord) : BodyM ValueId :=
  match node.kind with
  | .input | .weight => do
    let buffer ← leafBuffer id node
    load buffer node.shape idx
  | .constant c => instr (.imm c)
  | .unary op x => do
    let v ← element x idx
    instr (.unary op v)
  | .binary op lhs rhs => do
    let lhsShape := (← (g.fetch lhs : Except Fault _)).shape
    let rhsShape := (← (g.fetch rhs : Except Fault _)).shape
    let lhsIdx ← (broadcastIndex .origin idx lhsShape : Except Fault _)
    let rhsIdx ← (broadcastIndex .origin idx rhsShape : Except Fault _)
    let a ← element lhs lhsIdx
    let b ← element rhs rhsIdx
    instr (.binary op a b)
  | .reshape x => do
    let input := (← (g.fetch x : Except Fault _)).shape
    let inner ← code (reshapeIndex idx node.shape input)
    element x inner
  | .permute x perm => do
    let inner ← (permuteIndex .origin idx perm : Except Fault _)
    element x inner
  | .reduce op x axes keepDims => do
    let input := (← (g.fetch x : Except Fault _)).shape
    let buffer ← function node.shape (reduceBody element input node.shape op x axes keepDims)
    place id buffer
    load buffer node.shape idx
  | .matmul lhs rhs => do
    let lhsShape := (← (g.fetch lhs : Except Fault _)).shape
    let rhsShape := (← (g.fetch rhs : Except Fault _)).shape
    let buffer ← function node.shape (matmulBody element lhsShape rhsShape node.shape lhs rhs)
    place id buffer
    load buffer node.shape idx

/-- The buffer that the element of a node is loaded from. At the top of a function the node
is the one the function computes, and is not loaded from its buffer. -/
def source? (top : Bool) (id : NodeId) : LowerM (Option BufferId) := do
  let l ← get
  return if top then none else l.placed.lookup id

/-- Emits the element of node `id` at `idx`, for nodes below `bound`. Operands come before
the nodes that read them, so the bound may decrease at every step. -/
def elementBelow : (bound : Nat) → (top : Bool) → ElementEmitter
  | 0, _, _, _ => throw .node
  | bound + 1, top, id, idx => do
    match ← known? id idx with
    | some v => return v
    | none =>
      let node ← (g.fetch id : Except Fault _)
      let source ← source? top id
      let v ← match source with
        | some buffer => load buffer node.shape idx
        | none => emitNode g (elementBelow bound false) id node idx
      remember id idx v
      return v

/-- Emits the element of a node. -/
def element (top : Bool) (id : NodeId) (idx : List Coord) : BodyM ValueId :=
  elementBelow g (id + 1) top id idx

/-- Appends the function that computes a node. -/
def nodeFunction (id : NodeId) : LowerM BufferId := do
  let node ← (g.fetch id : Except Fault _)
  match node.kind with
  | .reduce op x axes keepDims =>
    let input := (← (g.fetch x : Except Fault _)).shape
    function node.shape (reduceBody (element g false) input node.shape op x axes keepDims)
  | .matmul lhs rhs =>
    let lhsShape := (← (g.fetch lhs : Except Fault _)).shape
    let rhsShape := (← (g.fetch rhs : Except Fault _)).shape
    function node.shape (matmulBody (element g false) lhsShape rhsShape node.shape lhs rhs)
  | _ => function node.shape (elementwiseBody node.shape (element g true id))

end

end Lowering

end TensorLoom
