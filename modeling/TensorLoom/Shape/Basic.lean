import TensorLoom.Word
/-
# Shapes

A shape lists the extents of a tensor, outermost axis first. The empty shape is a
scalar with one element. Elements are numbered in row-major order: the last axis is
contiguous.

`size` and `strides` are the exact numbers; `elementCount` and `rowMajorStrides` compute
them in words and fault when a product does not fit.
-/

namespace TensorLoom

/-- Extents of a tensor, outermost axis first. -/
abbrev Shape := List Nat

namespace Shape

/-- A list of numbers in brackets, `[2, 3]`. -/
def text (s : List Nat) : String := "[" ++ ", ".intercalate (s.map toString) ++ "]"

/-- Number of elements. -/
def size : Shape → Nat
  | [] => 1
  | d :: s => d * size s

/-- How far apart, in elements, neighbours along each axis lie. -/
def strides : Shape → List Nat
  | [] => []
  | _ :: s => size s :: strides s

/-- Number of elements, multiplied up from the outermost axis in words. -/
def elementCount (s : Shape) : Except Fault Nat := s.foldlM Word.mul 1

/-- The strides together with the product of all extents, from the innermost axis. -/
def stridesAndSize : Shape → Except Fault (List Nat × Nat)
  | [] => .ok ([], 1)
  | d :: s => do
    let (inner, n) ← stridesAndSize s
    let total ← Word.mul n d
    return (n :: inner, total)

/-- The strides, multiplied up from the innermost axis in words. The outermost extent
takes part: a shape whose size does not fit a word has no strides. -/
def rowMajorStrides (s : Shape) : Except Fault (List Nat) := return (← stridesAndSize s).1

/-- An index vector lies inside the shape. -/
def Mem : List Nat → Shape → Prop
  | [], [] => True
  | i :: idx, d :: s => i < d ∧ Mem idx s
  | _, _ => False

/-- Row-major number of the element at an index vector. -/
def offset : List Nat → Shape → Nat
  | i :: idx, _ :: s => i * size s + offset idx s
  | _, _ => 0

/-- Index vector of the element with a row-major number. -/
def indexOf : Shape → Nat → List Nat
  | [], _ => []
  | d :: s, k => k / size s % d :: indexOf s (k % size s)

/-- All index vectors in row-major order. -/
def indices : Shape → List (List Nat)
  | [] => [[]]
  | d :: s => (List.range d).flatMap fun i => (indices s).map (i :: ·)

end Shape

end TensorLoom
