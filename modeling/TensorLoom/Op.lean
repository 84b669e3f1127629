/-
# Element operations

The scalar operations that tensors apply element by element, and what they mean. The
operations are interpreted by a record, so that loop code and graphs can be read over
floating-point numbers, over a field, or over uninterpreted symbols.
-/

namespace TensorLoom

inductive UnaryOp where
  | exp | log | sin | sqrt | cast | nop
deriving DecidableEq, Repr

inductive BinaryOp where
  | add | sub | mul | div | pow | cmp | max
deriving DecidableEq, Repr

inductive ReduceOp where
  | sum | max
deriving DecidableEq, Repr

def UnaryOp.name : UnaryOp → String
  | exp => "exp"
  | log => "log"
  | sin => "sin"
  | sqrt => "sqrt"
  | cast => "cast"
  | nop => "nop"

def BinaryOp.name : BinaryOp → String
  | add => "add"
  | sub => "sub"
  | mul => "mul"
  | div => "div"
  | pow => "pow"
  | cmp => "cmp"
  | max => "max"

def ReduceOp.name : ReduceOp → String
  | sum => "reduce_sum"
  | max => "reduce_max"

/-- Below every other number. -/
def negativeInfinity : Float := -1.0 / 0.0

/-- Where a reduction starts. -/
def ReduceOp.start : ReduceOp → Float
  | sum => 0.0
  | max => negativeInfinity

/-- A reading of the element operations in `α`. -/
structure Arith (α : Type) where
  lit : Float → α
  unary : UnaryOp → α → α
  binary : BinaryOp → α → α → α
  /-- The accumulator after one more element. -/
  fold : ReduceOp → α → α → α

/-- A reading in which a reduction takes all its elements at once. -/
structure Algebra (α : Type) where
  lit : Float → α
  unary : UnaryOp → α → α
  binary : BinaryOp → α → α → α
  reduce : ReduceOp → List α → α

/-- Reductions fold from the left, from the start of the operation. -/
def Arith.toAlgebra {α : Type} (A : Arith α) : Algebra α where
  lit := A.lit
  unary := A.unary
  binary := A.binary
  reduce op xs := xs.foldl (A.fold op) (A.lit op.start)

/-- The larger of two numbers; the first unless it is smaller, the second when they
cannot be compared. -/
def larger (a b : Float) : Float := if a ≥ b then a else b

/-- Double precision arithmetic. -/
def Arith.double : Arith Float where
  lit := id
  unary
    | .exp, x => x.exp
    | .log, x => x.log
    | .sin, x => x.sin
    | .sqrt, x => x.sqrt
    | .cast, x => x
    | .nop, x => x
  binary
    | .add, a, b => a + b
    | .sub, a, b => a - b
    | .mul, a, b => a * b
    | .div, a, b => a / b
    | .pow, a, b => a.pow b
    | .cmp, a, b => if a == b then 1.0 else 0.0
    | .max, a, b => larger a b
  fold
    | .sum, acc, x => acc + x
    | .max, acc, x => larger acc x

end TensorLoom
