import TensorLoom.Graph.Basic
/-
# The value of a node

What a graph computes, element by element, with no program in between. A tensor is read
as a function from index vectors to elements; index vectors outside the shape are never
looked at.
-/

namespace TensorLoom

namespace Shape

/-- The element of an operand that is read at an index of the stretched result: leading
axes are dropped and an axis of extent 1 is read at 0. -/
def restrict (operand : Shape) (idx : List Nat) : List Nat :=
  (operand.zip (idx.drop (idx.length - operand.length))).map fun (d, i) => if d = 1 then 0 else i

/-- The index into the tensor that was permuted: its axis `a` is the result's axis at
which `perm` lists `a`. -/
def unpermute (perm : List Nat) (idx : List Nat) : List Nat :=
  (List.range perm.length).map fun a => (idx[perm.idxOf a]?).getD 0

/-- Where an index of the input lands after the reduction over `axes`. -/
def collapse (axes : List Nat) (keepDims : Bool) (idx : List Nat) : List Nat :=
  if keepDims then idx.zipIdx.map fun (i, a) => if a ∈ axes then 0 else i else dropAxes axes idx

end Shape

/-- The contents of every leaf, in row-major order. -/
abbrev Leaves (α : Type) := NodeId → Array α

namespace Graph

variable {α : Type} (A : Algebra α) (leaves : Leaves α) (g : Graph)

/-- Element `idx` of node `id`, for nodes below `bound`. Operands come before the nodes
that read them, so the bound may decrease at every step. -/
def elementBelow : (bound : Nat) → NodeId → List Nat → α
  | 0, _, _ => A.lit 0.0
  | bound + 1, id, idx =>
    let shapeOf (x : NodeId) : Shape := ((g.node? x).map Node.shape).getD []
    match g.node? id with
    | none => A.lit 0.0
    | some ⟨kind, shape⟩ =>
      match kind with
      | .input | .weight => ((leaves id)[Shape.offset idx shape]?).getD (A.lit 0.0)
      | .constant c => A.lit c
      | .unary op x => A.unary op (elementBelow bound x idx)
      | .binary op lhs rhs =>
        A.binary op (elementBelow bound lhs (Shape.restrict (shapeOf lhs) idx))
          (elementBelow bound rhs (Shape.restrict (shapeOf rhs) idx))
      | .reduce op x axes keepDims =>
        A.reduce op <| ((Shape.indices (shapeOf x)).filter fun i => Shape.collapse axes keepDims i = idx).map
          (elementBelow bound x)
      | .reshape x => elementBelow bound x (Shape.indexOf (shapeOf x) (Shape.offset idx shape))
      | .permute x perm => elementBelow bound x (Shape.unpermute perm idx)
      | .matmul lhs rhs =>
        let row := idx.headD 0
        let col := (idx.drop 1).headD 0
        let inner := (Shape.rowMatrix? (shapeOf lhs)).elim 0 Shape.Matrix.cols
        A.reduce .sum <| (List.range inner).map fun p =>
          A.binary .mul
            (elementBelow bound lhs (if (shapeOf lhs).length = 1 then [p] else [row, p]))
            (elementBelow bound rhs (if (shapeOf rhs).length = 1 then [p] else [p, col]))

/-- Element `idx` of node `id`. -/
def element (id : NodeId) (idx : List Nat) : α := elementBelow A leaves g (id + 1) id idx

/-- All elements of a node in row-major order. -/
def value (id : NodeId) : List α :=
  (Shape.indices (((g.node? id).map Node.shape).getD [])).map (element A leaves g id)

end Graph

end TensorLoom
