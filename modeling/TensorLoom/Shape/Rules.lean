import TensorLoom.Shape.Basic
/-
# Shape rules

For every tensor operation, the shape of its result or the reason why the operands do
not fit. Rules are checked when a graph node is made, so no node has a wrong shape.
-/

namespace TensorLoom

/-- Why a shape is refused. -/
inductive ShapeError where
  | zeroExtent (shape : Shape)
  | rankMismatch (expected : String) (found : Shape)
  | axisOutOfRange (axis rank : Nat)
  | duplicateAxis (axis : Nat)
  | emptyAxes
  | broadcastIncompatible (lhs rhs : Shape)
  | innerDimMismatch (lhs rhs : Shape)
  | elementCountMismatch (lhs rhs : Nat)
  | invalidPermutation (rank : Nat) (perm : List Nat)
deriving DecidableEq, Repr

/-- The wording of a refused shape. -/
def ShapeError.message : ShapeError → String
  | zeroExtent shape => "shape " ++ Shape.text shape ++ " contains a zero extent"
  | rankMismatch expected found => "expected " ++ expected ++ " but found shape " ++ Shape.text found
  | axisOutOfRange axis rank => s!"axis {axis} out of range for rank {rank}"
  | duplicateAxis axis => s!"duplicate axis {axis}"
  | emptyAxes => "reduction requires at least one axis"
  | broadcastIncompatible lhs rhs =>
    "cannot broadcast shapes " ++ Shape.text lhs ++ " and " ++ Shape.text rhs
  | innerDimMismatch lhs rhs =>
    "matmul inner dimensions differ: " ++ Shape.text lhs ++ " x " ++ Shape.text rhs
  | elementCountMismatch lhs rhs => s!"element count mismatch: {lhs} vs {rhs}"
  | invalidPermutation rank perm => Shape.text perm ++ s!" is not a permutation of 0..{rank}"

namespace Shape

/-- Every extent is positive. -/
def validate (s : Shape) : Except ShapeError Unit :=
  if s.any (· == 0) then .error (.zeroExtent s) else .ok ()

/-! ## Broadcasting -/

/-- Two extents of one axis agree when they are equal or one of them is 1. -/
def joinExtent (a b : Nat) : Option Nat :=
  if a = b ∨ a = 1 then some b else if b = 1 then some a else none

/-- Joins extents listed innermost axis first; a missing axis takes the other's extent. -/
def joinInner : List Nat → List Nat → Option (List Nat)
  | [], bs => some bs
  | as, [] => some as
  | a :: as, b :: bs => do
    let d ← joinExtent a b
    let ds ← joinInner as bs
    return d :: ds

/-- The shape both operands stretch to, aligned at the innermost axis. -/
def broadcast? (a b : Shape) : Option Shape := (joinInner a.reverse b.reverse).map List.reverse

/-- The shape both operands stretch to, or the pair that does not fit. -/
def broadcast (a b : Shape) : Except ShapeError Shape :=
  match broadcast? a b with
  | some r => .ok r
  | none => .error (.broadcastIncompatible a b)

/-- Axes of `output` along which an operand is repeated: the leading axes it lacks, and
those where it has extent 1 and the output has not. -/
def broadcastAxes (operand output : Shape) : Except Fault (List Nat) :=
  if output.length < operand.length then .error .rank
  else
    let lead := output.length - operand.length
    .ok <| (List.range output.length).filter fun axis =>
      axis < lead || (operand[axis - lead]? == some 1 && output[axis]? != some 1)

/-! ## Matrix products -/

/-- The extents of a matrix: rows and columns. -/
structure Matrix where
  rows : Nat
  cols : Nat
deriving DecidableEq, Repr

/-- The shape of a matrix. -/
def Matrix.shape (m : Matrix) : Shape := [m.rows, m.cols]

/-- A left operand as a matrix: a vector is one row. -/
def rowMatrix? : Shape → Option Matrix
  | [k] => some ⟨1, k⟩
  | [m, k] => some ⟨m, k⟩
  | _ => none

/-- A right operand as a matrix: a vector is one column. -/
def colMatrix? : Shape → Option Matrix
  | [k] => some ⟨k, 1⟩
  | [k, n] => some ⟨k, n⟩
  | _ => none

/-- Both operands of a product as matrices. -/
def matrices (lhs rhs : Shape) : Except ShapeError (Matrix × Matrix) :=
  match rowMatrix? lhs, colMatrix? rhs with
  | none, _ => .error (.rankMismatch "a rank-1 or rank-2 lhs" lhs)
  | some _, none => .error (.rankMismatch "a rank-1 or rank-2 rhs" rhs)
  | some a, some b => .ok (a, b)

/-- The shape of a product, always of rank 2. -/
def matmul (lhs rhs : Shape) : Except ShapeError Shape := do
  let (a, b) ← matrices lhs rhs
  if a.cols = b.rows then .ok [a.rows, b.cols] else .error (.innerDimMismatch lhs rhs)

/-! ## Reductions -/

/-- Adds a number to an increasing list. -/
def insertAxis (axis : Nat) : List Nat → List Nat
  | [] => [axis]
  | a :: as => if axis ≤ a then axis :: a :: as else a :: insertAxis axis as

/-- Adds the axes to the increasing list `seen`, up to the first that is out of range or
already there. -/
def collectAxes (rank : Nat) : (seen axes : List Nat) → Except ShapeError (List Nat)
  | seen, [] => .ok seen
  | seen, axis :: axes =>
    if rank ≤ axis then .error (.axisOutOfRange axis rank)
    else if axis ∈ seen then .error (.duplicateAxis axis)
    else collectAxes rank (insertAxis axis seen) axes

/-- Checked reduction axes in increasing order. -/
def normalizeAxes (axes : List Nat) (rank : Nat) : Except ShapeError (List Nat) :=
  if axes = [] then .error .emptyAxes else collectAxes rank [] axes

/-- The entries whose position is not listed. -/
def dropAxes {α : Type} (axes : List Nat) (xs : List α) : List α :=
  xs.zipIdx.filterMap fun (x, i) => if i ∈ axes then none else some x

/-- The shape of a reduction: a reduced axis keeps extent 1 or disappears. -/
def reduce (input : Shape) (axes : List Nat) (keepDims : Bool) : Except ShapeError Shape := do
  let axes ← normalizeAxes axes input.length
  if keepDims then
    return input.zipIdx.map fun (d, i) => if i ∈ axes then 1 else d
  else
    return dropAxes axes input

/-! ## Rearrangements -/

/-- A new shape for the same elements in the same order. -/
def reshape (input dims : Shape) : Except Fault (Except ShapeError Shape) :=
  match validate dims with
  | .error e => .ok (.error e)
  | .ok () => do
    let old ← elementCount input
    let new ← elementCount dims
    return if old = new then .ok dims else .error (.elementCountMismatch old new)

/-- Every number below `rank` is listed exactly once. -/
def IsPerm (rank : Nat) (perm : List Nat) : Prop :=
  perm.length = rank ∧ perm.Nodup ∧ ∀ axis ∈ perm, axis < rank

instance (rank : Nat) (perm : List Nat) : Decidable (IsPerm rank perm) :=
  inferInstanceAs (Decidable (_ ∧ _ ∧ _))

/-- Output axis `d` is input axis `perm[d]`. -/
def permute (input : Shape) (perm : List Nat) : Except ShapeError Shape :=
  if IsPerm input.length perm then .ok (perm.filterMap (input[·]?))
  else .error (.invalidPermutation input.length perm)

/-- Position of each axis in `perm`; where one is listed twice the later position counts,
and one that is not listed has position 0. -/
def inversePermutation (perm : List Nat) : Except Fault (List Nat) :=
  if perm.all (· < perm.length) then
    .ok <| perm.zipIdx.foldl (fun inverse (p, i) => inverse.set p i) (List.replicate perm.length 0)
  else .error .rank

end Shape

end TensorLoom
