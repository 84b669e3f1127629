import TensorLoom.Session.Tensors
import TensorLoom.Session.Programs
/-
# Module actions
-/

namespace TensorLoom.Session

/-- Compiles a program into a module. -/
def compile (programName name : String) (backend : Backend Float) : Action (Module Float) := do
  let p ← program programName
  let compiled ← words (TensorLoom.compile Arith.double p backend)
  let m ← request (compiled.mapError .compile)
  setLoaded name (.plain m)
  return m

/-- Compiles a root with its gradients. -/
def compileGraph (root : NodeId) (targets : List NodeId) (name : String) (backend : Backend Float) :
    Action (CompiledGraph Float) := do
  let c ← extend .compileGraph (TensorLoom.compileGraph Arith.double root targets backend)
  setLoaded name (.graph c)
  return c

/-- Compiles a training step. -/
def compileTraining (root : NodeId) (rate : Float) (name : String) (backend : Backend Float) :
    Action (Training Float) := do
  let t ← extend .train (Training.compile Arith.double root rate backend)
  setLoaded name (.training t)
  return t

/-- Binds the target of a training step. -/
def bindTarget (name tensorName : String) : Action Bool := do
  match ← loaded name with
  | .training t =>
    let s ← tensor tensorName
    let bound := (← get).store.bind t.target s
    setStore (← request (bound.mapError fun e => .train (.graph e)))
    isBound t.target.id
  | _ => throw (.missing .module)

/-- The refusal of an execution, as the caller sees it. -/
def refuse (m : Loaded) (e : ExecuteError) : SessionError :=
  match m with
  | .training _ => .train (.execute e)
  | _ => .execute e

/-- Executes a module once. The name goes on with what the execution left behind, also if it
was refused. -/
def step (name : String) (held : List StorageId) : Action Loaded := do
  let m ← loaded name
  let (result, module, st) ← words (m.module.execute (← get).store held)
  setStore st
  setLoaded name (m.withModule module)
  request (result.mapError (refuse m))
  return m.withModule module

/-- The loss of a training step; zero for other modules. -/
def lossOf : Loaded → Float
  | .training t => t.lossSum Arith.double
  | _ => 0.0

/-- Executes a module `times` times, up to the first refusal; the loss after each time. -/
def executeTimes (name : String) (held : List StorageId) : (times : Nat) → Action (List Float)
  | 0 => return []
  | times + 1 => do
    let m ← step name held
    let losses ← executeTimes name held times
    return lossOf m :: losses

/-- Executes a module while the tensors named in `hold` are being read. -/
def execute (name : String) (times : Nat) (hold : List String) : Action (Loaded × List Float) := do
  let _ ← loaded name
  let held ← hold.mapM tensor
  let losses ← executeTimes name held times
  return (← loaded name, losses)

/-- The gradient of a leaf after the last execution. -/
def gradient (name : String) (x : NodeId) : Action (Option (Array Float)) := do
  match ← loaded name with
  | .graph c => return c.gradient? x
  | _ => throw (.missing .module)

/-- Forgets that a module was made from a graph. -/
def intoModule (name : String) : Action (Module Float) := do
  let m := (← loaded name).module
  setLoaded name (.plain m)
  return m

end TensorLoom.Session
