import TensorLoom.Program.Basic
/-
# The loop machine

Runs the functions of a program over a memory of cells. Loop headers are followed to the
instruction that closes them; every value lives in the register of its instruction.

`walk` is the control flow alone: which instructions are visited, in which order, with
which loop indices. The machine gives it the effect of each instruction.
-/

namespace TensorLoom

/-! ## Control flow -/

/-- Splits the code behind a loop header at the instruction that closes the loop, `depth`
inner loops being open. -/
def splitLoop : (depth : Nat) → List Instr → Option (List Instr × List Instr)
  | _, [] => none
  | 0, .close :: code => some ([], code)
  | depth + 1, .close :: code => (splitLoop depth code).map fun (body, rest) => (.close :: body, rest)
  | depth, .loop range stride :: code =>
    (splitLoop (depth + 1) code).map fun (body, rest) => (.loop range stride :: body, rest)
  | depth, i :: code => (splitLoop depth code).map fun (body, rest) => (i :: body, rest)

/-- Takes the steps with the indices `k`, `k + 1` and so on, `n` of them. -/
def turns {σ : Type} (step : Nat → σ → Except Fault σ) : (n k : Nat) → σ → Except Fault σ
  | 0, _, s => .ok s
  | n + 1, k, s => do
    turns step n (k + 1) (← step k s)

/-- Visits the code that starts at `pos`. `act` is the effect of a plain instruction,
`turn` the start of a loop's turn with the given index. Code of length `n` is visited
with fuel `n`. -/
def walk {σ : Type} (act : ValueId → Instr → σ → Except Fault σ) (turn : ValueId → Nat → σ → Except Fault σ) :
    (fuel : Nat) → (pos : ValueId) → List Instr → σ → Except Fault σ
  | _, _, [], s => .ok s
  | 0, _, _ :: _, _ => .error .openLoop
  | fuel + 1, pos, .loop range _ :: code, s =>
    match splitLoop 0 code with
    | none => .error .openLoop
    | some (body, rest) => do
      let s ← turns (fun k s => do walk act turn fuel (pos + 1) body (← turn pos k s)) range 0 s
      walk act turn fuel (pos + 1 + body.length + 1) rest s
  | fuel + 1, pos, i :: code, s => do
    walk act turn fuel (pos + 1) code (← act pos i s)

/-! ## Effects -/

/-- Element storage by cell number. -/
abbrev Memory (α : Type) := Array (Array α)

/-- One register of each kind per instruction, and the memory. -/
structure Frame (α : Type) where
  ints : Array Int
  floats : Array α
  memory : Memory α

/-- The cells a function call reads and writes. -/
structure Wiring where
  inputs : List Nat
  output : Nat
deriving DecidableEq, Repr

/-- Element number `offset` of a cell. -/
def elementAt {α : Type} (cell : Array α) (offset : Int) : Except Fault α :=
  if offset < 0 then .error .element
  else
    match cell[offset.toNat]? with
    | some a => .ok a
    | none => .error .element

namespace Frame

variable {α : Type}

def int (s : Frame α) (v : ValueId) : Except Fault Int :=
  match s.ints[v]? with
  | some z => .ok z
  | none => .error .register

def float (s : Frame α) (v : ValueId) : Except Fault α :=
  match s.floats[v]? with
  | some a => .ok a
  | none => .error .register

def setInt (s : Frame α) (v : ValueId) (z : Int) : Except Fault (Frame α) :=
  if v < s.ints.size then .ok { s with ints := s.ints.setIfInBounds v z } else .error .register

def setFloat (s : Frame α) (v : ValueId) (a : α) : Except Fault (Frame α) :=
  if v < s.floats.size then .ok { s with floats := s.floats.setIfInBounds v a } else .error .register

/-- Element number `offset` of cell `cell`. -/
def read (s : Frame α) (cell : Nat) (offset : Int) : Except Fault α :=
  match s.memory[cell]? with
  | some contents => elementAt contents offset
  | none => .error .buffer

/-- Overwrites element number `offset` of cell `cell`. -/
def write (s : Frame α) (cell : Nat) (offset : Int) (a : α) : Except Fault (Frame α) :=
  match s.memory[cell]? with
  | none => .error .buffer
  | some contents =>
    if offset < 0 ∨ contents.size ≤ offset.toNat then .error .element
    else .ok { s with memory := s.memory.modify cell (·.setIfInBounds offset.toNat a) }

end Frame

section
variable {α : Type} (A : Arith α)

/-- The effect of the instruction at `pos`. A loop header or a closing instruction has
none of its own. -/
def act (wiring : Wiring) (pos : ValueId) (i : Instr) (s : Frame α) : Except Fault (Frame α) :=
  match i with
  | .int value => s.setInt pos value
  | .arith op lhs rhs => do
    let a ← s.int lhs
    let b ← s.int rhs
    s.setInt pos (← op.eval a b)
  | .loop .. | .close => .ok s
  | .load input offset =>
    match wiring.inputs[input]? with
    | none => .error .input
    | some cell => do
      let k ← s.int offset
      s.setFloat pos (← s.read cell k)
  | .store offset value => do
    let k ← s.int offset
    s.write wiring.output k (← s.float value)
  | .imm value => s.setFloat pos (A.lit value)
  | .unary op x => do
    s.setFloat pos (A.unary op (← s.float x))
  | .binary op lhs rhs => do
    let a ← s.float lhs
    let b ← s.float rhs
    s.setFloat pos (A.binary op a b)
  | .accumulate op acc x => do
    let total ← s.float acc
    let a ← s.float x
    s.setFloat acc (A.fold op total a)

/-- Starts turn number `k` of the loop whose header is at `pos`. -/
def turn (pos : ValueId) (k : Nat) (s : Frame α) : Except Fault (Frame α) := s.setInt pos (Word.signed k)

/-- Runs a body from the given registers. -/
def runBody (wiring : Wiring) (code : List Instr) (s : Frame α) : Except Fault (Frame α) :=
  walk (act A wiring) turn code.length 0 code s

/-- The cell of a buffer. -/
def cellOf (cells : List Nat) (b : BufferId) : Except Fault Nat :=
  match cells[b]? with
  | some c => .ok c
  | none => .error .buffer

/-- Runs one function with fresh registers; `cells` places every buffer in memory. -/
def Function.run (fn : Function) (cells : List Nat) (memory : Memory α) : Except Fault (Memory α) := do
  let inputs ← fn.inputs.mapM (cellOf cells)
  let output ← cellOf cells fn.output
  let registers := fn.code.length
  let start : Frame α := ⟨Array.replicate registers 0, Array.replicate registers (A.lit 0.0), memory⟩
  return (← runBody A ⟨inputs, output⟩ fn.code start).memory

/-- Runs all functions in order. -/
def Program.run (p : Program) (cells : List Nat) (memory : Memory α) : Except Fault (Memory α) :=
  p.functions.foldlM (fun memory fn => fn.run A cells memory) memory

end

end TensorLoom
