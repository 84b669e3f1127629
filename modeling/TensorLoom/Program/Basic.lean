import TensorLoom.Graph.Basic
import TensorLoom.Program.Instr
/-
# Programs

A program is a list of functions over one table of buffers. A buffer is either the
storage of a leaf, which the caller binds, or scratch that one function writes.
-/

namespace TensorLoom

/-- Position of a buffer in the buffer table. -/
abbrev BufferId := Nat

/-- How a buffer is written. -/
def bufferName (b : BufferId) : String := s!"b{b}"

/-- Where the contents of a buffer come from. -/
inductive Source where
  /-- Storage of the leaf `node`. A buffer that is not linked stands for a leaf that no
  graph has; nothing can be bound to it. -/
  | leaf (node : NodeId) (linked : Bool)
  /-- Scratch that function number `producer` writes. -/
  | scratch (producer : Nat)
deriving DecidableEq, Repr

/-- Two sources are the same buffer: leaves are told apart by their node alone. -/
def Source.same : Source → Source → Bool
  | leaf n _, leaf m _ => n == m
  | scratch p, scratch q => p == q
  | _, _ => false

def Source.isLeaf : Source → Bool
  | leaf .. => true
  | scratch _ => false

structure Buffer where
  source : Source
  len : Nat
deriving DecidableEq, Repr

structure Function where
  code : List Instr
  /-- The buffers it reads, in the order of its input numbers. -/
  inputs : List BufferId
  output : BufferId
deriving BEq, Repr

structure Program where
  functions : List Function := []
  buffers : List Buffer := []
  /-- The buffer that holds the result. -/
  output : Option BufferId := none
deriving Repr

namespace Program

/-- The position of `source` in the table, at its end if it is new there. -/
def addBuffer (p : Program) (source : Source) (len : Nat) : BufferId × Program :=
  match p.buffers.findIdx? (·.source.same source) with
  | some b => (b, p)
  | none => (p.buffers.length, { p with buffers := p.buffers ++ [⟨source, len⟩] })

/-- The buffer of a leaf. -/
def addLeaf (p : Program) (node : NodeId) (linked : Bool) (len : Nat) : BufferId × Program :=
  p.addBuffer (.leaf node linked) len

/-- Appends a function that writes an existing buffer. -/
def pushInto (p : Program) (code : List Instr) (inputs : List BufferId) (output : BufferId) : Program :=
  { p with functions := p.functions ++ [⟨code, inputs, output⟩] }

/-- Appends a function that writes scratch of its own, and returns that buffer. -/
def push (p : Program) (code : List Instr) (inputs : List BufferId) (len : Nat) : BufferId × Program :=
  let (b, p) := p.addBuffer (.scratch p.functions.length) len
  (b, p.pushInto code inputs b)

/-- The buffer that stands for a leaf. -/
def leafBuffer? (p : Program) (node : NodeId) : Option BufferId :=
  p.buffers.findIdx? (·.source.same (.leaf node true))

/-- Two programs have the same functions, buffers and output. Immediates are compared as
numbers. -/
def same (p q : Program) : Bool :=
  p.functions == q.functions && p.output == q.output &&
    p.buffers.length == q.buffers.length &&
    (p.buffers.zip q.buffers).all fun (a, b) => a.source.same b.source && a.len == b.len

end Program

/-- The number of a buffer among the inputs, at their end if it is new there. -/
def addInput (inputs : List BufferId) (b : BufferId) : Nat × List BufferId :=
  match inputs.findIdx? (· == b) with
  | some i => (i, inputs)
  | none => (inputs.length, inputs ++ [b])

end TensorLoom
