import TensorLoom.Kernel
import TensorLoom.Program.Verify
import TensorLoom.Store
/-
# Executable modules

A program with its kernel and its scratch buffers. Leaf storages are looked up at every
execution, so a leaf can be bound anew between two of them.
-/

namespace TensorLoom

/-- Why an execution is refused. -/
inductive ExecuteError where
  | unbound (node : NodeId)
  | sizeMismatch (node : NodeId) (expected found : Nat)
  | busy (node : NodeId)
deriving DecidableEq, Repr

/-- The wording of a refused execution. -/
def ExecuteError.message : ExecuteError → String
  | unbound node => "no live storage is bound to " ++ nodeName node
  | sizeMismatch node expected found =>
    "storage bound to " ++ nodeName node ++ s!" holds {found} elements, expected {expected}"
  | busy node => "storage bound to " ++ nodeName node ++ " is already borrowed"

structure Module (α : Type) where
  program : Program
  kernel : Kernel α
  /-- The scratch buffers by buffer number; a leaf buffer has none and stands empty. -/
  scratch : Memory α
  /-- For every buffer the storage that it points to. Scratch points to itself and has none; a
  leaf has none before the first execution and after every one that comes to its end. -/
  pointers : List (Option StorageId)

namespace Module

variable {α : Type}

/-- Scratch that is all zeros, and no leaf that points anywhere. -/
def create (A : Arith α) (p : Program) (kernel : Kernel α) : Except Fault (Module α) := do
  let scratch ← p.buffers.mapM fun b =>
    if b.source.isLeaf then .ok #[] else allocate b.len (A.lit 0.0)
  return ⟨p, kernel, scratch.toArray, p.buffers.map fun _ => none⟩

/-- The contents of a scratch buffer. -/
def buffer? (m : Module α) (b : BufferId) : Option (Array α) :=
  match m.program.buffers[b]? with
  | some ⟨.scratch _, _⟩ => m.scratch[b]?
  | _ => none

/-- The contents of the result, empty unless it is in scratch. -/
def output (m : Module α) : Array α := (m.program.output.bind m.buffer?).getD #[]

/-- The live storage of a leaf buffer; scratch needs none. -/
def storageOf (st : Store α) (b : Buffer) : Except ExecuteError (Option StorageId) :=
  match b.source with
  | .scratch _ => .ok none
  | .leaf node linked =>
    match if linked then st.bound? node else none with
    | some s => .ok (some s)
    | none => .error (.unbound node)

/-- A storage can be taken for a buffer: nobody holds it, and it has the buffer's length. -/
def checkStorage (st : Store α) (held : List StorageId) (b : Buffer) (s : Option StorageId) :
    Except ExecuteError Unit :=
  match b.source, s with
  | .leaf node _, some s =>
    if s ∈ held then .error (.busy node)
    else if (st.values s).size ≠ b.len then .error (.sizeMismatch node b.len (st.values s).size)
    else .ok ()
  | _, _ => .ok ()

/-- Lets one buffer after the other point to its storage, up to the first that cannot be taken.
The buffers from there on point to what they pointed to before. -/
def take (st : Store α) (held : List StorageId) :
    List (Buffer × Option StorageId) → (pointers : List (Option StorageId)) →
      Except ExecuteError Unit × List (Option StorageId)
  | [], _ => (.ok (), [])
  | (b, s) :: rest, pointers =>
    match checkStorage st held b s with
    | .error e => (.error e, pointers)
    | .ok () =>
      let (result, later) := take st held rest (pointers.drop 1)
      (result, s :: later)

/-- Where each buffer lies when the storages come first and the scratch buffers after them. -/
def cells (st : Store α) (pointers : List (Option StorageId)) : List Nat :=
  pointers.zipIdx.map fun (s, b) => s.getD (st.contents.size + b)

/-- Runs the kernel once; the storages in `held` are being read by somebody else. Leaves with
one storage share it. A refusal leaves the pointers as far as they were set. -/
def execute (m : Module α) (st : Store α) (held : List StorageId) :
    Except Fault (Except ExecuteError Unit × Module α × Store α) :=
  match m.program.buffers.mapM (storageOf st) with
  | .error e => .ok (.error e, m, st)
  | .ok storages =>
    match take st held (m.program.buffers.zip storages) m.pointers with
    | (.error e, pointers) => .ok (.error e, { m with pointers := pointers }, st)
    | (.ok (), pointers) => do
      let size := st.contents.size
      let memory ← m.kernel.run (cells st pointers) (st.contents ++ m.scratch)
      return (.ok (), { m with
          scratch := memory.extract size memory.size
          pointers := pointers.map fun _ => none },
        { st with contents := memory.extract 0 size })

end Module

end TensorLoom
