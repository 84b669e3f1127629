import TensorLoom.Decimal.Literal
import TensorLoom.Program.Basic
/-
# C listings

A program as one C file: a static function per function, with a variable per value, and
an entry point that calls them in order with pointers from the buffer table. While the
entry point runs, invalid floating-point operations trap where the C library can do so.
-/

namespace TensorLoom.Listing

/-- Name of the function that a built program exports. -/
def entryName : String := "gradforge_main"

/-- Name of the C function for function number `f`. -/
def functionName (f : Nat) : String := s!"gf_fn_{f}"

/-- A number as a C literal. -/
def literal (x : Float) : String :=
  if x.isNaN then "NAN"
  else if x.isInf then (if x > 0.0 then "INFINITY" else "-INFINITY")
  else Decimal.finiteText x.toBits

/-- The right side of a definition by an element operation. -/
def unaryText (op : UnaryOp) (x : ValueId) : String :=
  match op with
  | .exp | .log | .sin | .sqrt => op.name ++ "(" ++ valueName x ++ ")"
  | .cast | .nop => valueName x

/-- The right side of a definition by an operation on two elements. -/
def binaryText (op : BinaryOp) (lhs rhs : ValueId) : String :=
  let a := valueName lhs
  let b := valueName rhs
  match op with
  | .add => a ++ " + " ++ b
  | .sub => a ++ " - " ++ b
  | .mul => a ++ " * " ++ b
  | .div => a ++ " / " ++ b
  | .pow => "pow(" ++ a ++ ", " ++ b ++ ")"
  | .cmp => "(double)(" ++ a ++ " == " ++ b ++ ")"
  | .max => a ++ " >= " ++ b ++ " ? " ++ a ++ " : " ++ b

def defineInt (pos : ValueId) (value : String) : String :=
  "int64_t " ++ valueName pos ++ " = " ++ value ++ ";"

def defineFloat (pos : ValueId) (value : String) : String :=
  "double " ++ valueName pos ++ " = " ++ value ++ ";"

/-- The lines of the instruction at `pos`, without indentation. -/
def instrLines (pos : ValueId) : Instr → List String
  | .int value => [defineInt pos (toString value)]
  | .arith op lhs rhs => [defineInt pos (valueName lhs ++ " " ++ op.symbol ++ " " ++ valueName rhs)]
  | .loop range stride =>
    let v := valueName pos
    ["for (int64_t " ++ v ++ " = 0; " ++ v ++ s!" < {range}; " ++ v ++ s!"++) /* stride {stride} */",
     "\x7b"]
  | .close => ["\x7d"]
  | .load input offset => [defineFloat pos (s!"i{input}[" ++ valueName offset ++ "]")]
  | .store offset value => ["output[" ++ valueName offset ++ "] = " ++ valueName value ++ ";"]
  | .imm value => [defineFloat pos (literal value)]
  | .unary op x => [defineFloat pos (unaryText op x)]
  | .binary op lhs rhs => [defineFloat pos (binaryText op lhs rhs)]
  | .accumulate .sum acc x => [valueName acc ++ " += " ++ valueName x ++ ";"]
  | .accumulate .max acc x => [valueName acc ++ " = " ++ binaryText .max acc x ++ ";"]

/-- Four blanks per level. -/
def indent (depth : Nat) (line : String) : String :=
  String.ofList (List.replicate (4 * depth) ' ') ++ line

/-- The depth of the instruction's lines and the depth after it. A closing instruction
stands one level further out. -/
def depths (depth : Nat) : Instr → Except Fault (Nat × Nat)
  | .loop .. => .ok (depth, depth + 1)
  | .close => if depth = 0 then .error .depth else .ok (depth - 1, depth - 1)
  | _ => .ok (depth, depth)

/-- The lines of the instructions from `pos` on. -/
def bodyLines : (depth : Nat) → (pos : ValueId) → List Instr → Except Fault (List String)
  | _, _, [] => .ok []
  | depth, pos, i :: code => do
    let (here, after) ← depths depth i
    let rest ← bodyLines after (pos + 1) code
    return (instrLines pos i).map (indent here) ++ rest

/-- The lines of function number `f`. -/
def functionLines (f : Nat) (fn : Function) : Except Fault (List String) := do
  let body ← bodyLines 1 0 fn.code
  return ["static void " ++ functionName f ++ "("] ++
    (List.range fn.inputs.length).map (fun i => s!"    const double *i{i},") ++
    ["    double *output)", "\x7b"] ++ body ++ ["\x7d", ""]

/-- The call of function number `f` from the entry point. -/
def callLine (f : Nat) (fn : Function) : String :=
  "    " ++ functionName f ++ "(" ++
    String.join (fn.inputs.map fun b => s!"buffers[{b}], ") ++ s!"buffers[{fn.output}]);"

/-- The lines of the entry point. -/
def entryLines (p : Program) : List String :=
  let guard := "#if defined(__linux__) && defined(__GLIBC__)"
  ["void " ++ entryName ++ "(void **buffers)",
   "\x7b",
   guard,
   "    feclearexcept(FE_ALL_EXCEPT);",
   "    int saved_traps = fegetexcept();",
   "    feenableexcept(FE_DIVBYZERO | FE_INVALID | FE_OVERFLOW);",
   "#endif"] ++
  p.functions.zipIdx.map (fun (fn, f) => callLine f fn) ++
  [guard,
   "    fedisableexcept(FE_ALL_EXCEPT);",
   "    feenableexcept(saved_traps);",
   "#endif",
   "\x7d"]

/-- The lines of the file. -/
def lines (p : Program) : Except Fault (List String) := do
  let functions ← p.functions.zipIdx.mapM fun (fn, f) => functionLines f fn
  return ["#define _GNU_SOURCE", "#include <fenv.h>", "#include <math.h>", "#include <stdint.h>", ""] ++
    functions.flatten ++ entryLines p

/-- The text of the file, every line ended. -/
def text (p : Program) : Except Fault String :=
  return String.join ((← lines p).map (· ++ "\n"))

end TensorLoom.Listing
