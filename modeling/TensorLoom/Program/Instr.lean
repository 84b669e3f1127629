import TensorLoom.Op
import TensorLoom.Word
/-
# Instructions

The body of a function is a flat list of instructions. An instruction is named by its
position, and so is the value it defines. A loop runs from its header to the closing
instruction that balances it.
-/

namespace TensorLoom

/-- Position of an instruction, and name of the value it defines. -/
abbrev ValueId := Nat

/-- Operations on signed 64-bit words. -/
inductive IntOp where
  | add | sub | mul | div | mod
deriving DecidableEq, Repr

def IntOp.symbol : IntOp → String
  | add => "+"
  | sub => "-"
  | mul => "*"
  | div => "/"
  | mod => "%"

/-- Division and remainder go towards zero. A remainder faults where the quotient would. -/
def IntOp.eval : IntOp → Int → Int → Except Fault Int
  | add, a, b => Word.exact (a + b)
  | sub, a, b => Word.exact (a - b)
  | mul, a, b => Word.exact (a * b)
  | div, a, b => if b = 0 then .error .division else Word.exact (a.tdiv b)
  | mod, a, b =>
    if b = 0 then .error .division
    else do
      let _ ← Word.exact (a.tdiv b)
      return a.tmod b

/-- What an instruction defines: an index or one tensor element. -/
inductive ValueKind where
  | int | float
deriving DecidableEq, Repr

def ValueKind.name : ValueKind → String
  | int => "int"
  | float => "float"

inductive Instr where
  | int (value : Int)
  | arith (op : IntOp) (lhs rhs : ValueId)
  /-- Opens a loop over `0..range`. The output offset moves by `stride` per turn; the
  stride is 0 where a loop only accumulates. -/
  | loop (range stride : Nat)
  /-- Closes the innermost open loop. -/
  | close
  /-- Reads element `offset` of the function's input number `input`. -/
  | load (input : Nat) (offset : ValueId)
  /-- Writes element `offset` of the function's output. -/
  | store (offset value : ValueId)
  | imm (value : Float)
  | unary (op : UnaryOp) (x : ValueId)
  | binary (op : BinaryOp) (lhs rhs : ValueId)
  /-- Folds `x` into the accumulator `acc`. -/
  | accumulate (op : ReduceOp) (acc x : ValueId)
deriving BEq, Repr

namespace Instr

/-- The kind of value an instruction defines, if it defines one. -/
def resultKind : Instr → Option ValueKind
  | int _ | arith .. | loop .. => some .int
  | load .. | imm _ | unary .. | binary .. => some .float
  | close | store .. | accumulate .. => none

/-- The values an instruction reads, each with the kind it has to have. -/
def operands : Instr → List (ValueId × ValueKind)
  | arith _ lhs rhs => [(lhs, .int), (rhs, .int)]
  | load _ offset => [(offset, .int)]
  | store offset value => [(offset, .int), (value, .float)]
  | unary _ x => [(x, .float)]
  | binary _ lhs rhs => [(lhs, .float), (rhs, .float)]
  | accumulate _ acc x => [(acc, .float), (x, .float)]
  | int _ | loop .. | close | imm _ => []

end Instr

/-- How a value is written. -/
def valueName (v : ValueId) : String := s!"v{v}"

end TensorLoom
