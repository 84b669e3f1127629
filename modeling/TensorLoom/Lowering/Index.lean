import TensorLoom.Program.Instr
import TensorLoom.Shape.Basic
/-
# Index arithmetic

While the body of a function is emitted, an index vector holds one coordinate per axis:
the constant 0, or the value of an instruction. Here coordinates are carried from the
result of an operation to its operand, and turned into row-major offsets by code.
-/

namespace TensorLoom.Lowering

/-- One coordinate of an index vector. -/
inductive Coord where
  /-- Always 0: the axis has extent 1 or the operand is repeated along it. -/
  | origin
  | var (v : ValueId)
deriving DecidableEq, Repr

/-- Emission of instructions at the end of a body. -/
abbrev Code := StateT (List Instr) (Except Fault)

/-- Appends an instruction and returns its position. -/
def emit (i : Instr) : Code ValueId := do
  let code ← get
  modify (· ++ [i])
  return code.length

/-- Adds to `sum` the terms of the axes that move: coordinate times stride. -/
def addTerms : (sum : Option ValueId) → List Coord → Shape → List Nat → Code (Option ValueId)
  | sum, .var v :: idx, extent :: shape, stride :: strides =>
    if extent = 1 then addTerms sum idx shape strides
    else do
      let term ← if stride = 1 then pure v else do
        let scale ← emit (.int (Word.signed stride))
        emit (.arith .mul v scale)
      let total ← match sum with
        | none => pure term
        | some before => emit (.arith .add before term)
      addTerms (some total) idx shape strides
  | sum, .origin :: idx, _ :: shape, _ :: strides => addTerms sum idx shape strides
  | sum, _, _, _ => pure sum

/-- The row-major offset of `idx` in a tensor of the shape. -/
def linearOffset (idx : List Coord) (shape : Shape) : Code ValueId := do
  let strides ← (Shape.rowMajorStrides shape : Except Fault _)
  match ← addTerms none idx shape strides with
  | some offset => return offset
  | none => emit (.int 0)

/-- Splits a row-major offset into coordinates. The outermost axis that moves needs no
remainder. -/
def splitOffset (flat : ValueId) : (outermost : Bool) → Shape → List Nat → Code (List Coord)
  | outermost, extent :: shape, stride :: strides =>
    if extent = 1 then return .origin :: (← splitOffset flat outermost shape strides)
    else do
      let quotient ← if stride = 1 then pure flat else do
        let divisor ← emit (.int (Word.signed stride))
        emit (.arith .div flat divisor)
      let coordinate ← if outermost then pure quotient else do
        let modulus ← emit (.int (Word.signed extent))
        emit (.arith .mod quotient modulus)
      return .var coordinate :: (← splitOffset flat false shape strides)
  | _, _, _ => return []

/-- The index into a tensor of shape `input` whose row-major offset is that of `idx` in
shape `output`. -/
def reshapeIndex (idx : List Coord) (output input : Shape) : Code (List Coord) := do
  if output = input then return idx
  let flat ← linearOffset idx output
  let strides ← (Shape.rowMajorStrides input : Except Fault _)
  splitOffset flat true input strides

/-- The index into an operand that is stretched to the shape `idx` addresses. -/
def broadcastIndex {β : Type} (origin : β) (idx : List β) (operand : Shape) : Except Fault (List β) :=
  if idx.length < operand.length then .error .rank
  else .ok <| (operand.zip (idx.drop (idx.length - operand.length))).map fun (extent, i) =>
    if extent = 1 then origin else i

/-- The index into a tensor that is permuted: coordinate `d` goes to axis `perm[d]`. -/
def permuteIndex {β : Type} (origin : β) (idx : List β) (perm : List Nat) : Except Fault (List β) :=
  if idx.length < perm.length ∨ perm.any (perm.length ≤ ·) then .error .rank
  else .ok <| (perm.zip idx).foldl (fun source (axis, i) => source.set axis i)
    (List.replicate perm.length origin)

end TensorLoom.Lowering
