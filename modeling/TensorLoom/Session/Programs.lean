import TensorLoom.Listing
import TensorLoom.Session.Basic
/-
# Program actions

Programs are lowered from the graph or written by hand.
-/

namespace TensorLoom.Session

/-! ## Lowering -/

/-- Lowers a node, and keeps the program if a name is given. -/
def lower (root : NodeId) (name : Option String) : Action Program := do
  let lowered ← words (TensorLoom.lower (← get).graph root)
  let p ← request (lowered.mapError .lower)
  name.forM fun name => setProgram name p
  return p

/-- What one lowering step answered, and the size of the program after it. -/
structure StepReport where
  result : Except LowerError BufferId
  functions : Nat
  buffers : Nat

/-- Performs the steps one after the other; a refused step does not stop the others. -/
def performSteps (g : Graph) : Lowering → List Lowering.Step → Except Fault (List StepReport × Lowering)
  | l, [] => .ok ([], l)
  | l, step :: steps => do
    let (result, l) ← step.runOn g l
    let (reports, last) ← performSteps g l steps
    return (⟨result, l.program.functions.length, l.program.buffers.length⟩ :: reports, last)

/-- Builds a program step by step. The program is kept only if it is verified. -/
def buildProgram (steps : List Lowering.Step) (name : Option String) :
    Action (List StepReport × Program × Except LowerError Program) := do
  let (reports, l) ← words (performSteps (← get).graph {} steps)
  let finished := l.finish
  match finished, name with
  | .ok p, some name => setProgram name p
  | _, _ => pure ()
  return (reports, l.program, finished)

/-! ## Programs by hand -/

/-- The program under a name, empty if there is none. -/
def draft (name : String) : Action Program := return ((← get).programs.lookup name).getD {}

/-- The source that stands for node `x`: linked if it is a leaf of the graph. -/
def leafSource (x : NodeId) : Action Source := do
  return .leaf x (((← get).graph.node? x).any (·.kind.isLeaf))

def newProgram (name : String) : Action Unit := setProgram name {}

/-- Adds the buffer of a leaf. -/
def addLeafBuffer (name : String) (x : NodeId) (len : Nat) : Action BufferId := do
  let (b, p) := (← draft name).addBuffer (← leafSource x) len
  setProgram name p
  return b

/-- Numbers the inputs of a function; a buffer that is listed again keeps its number. -/
def numberInputs : List BufferId → (listed : List BufferId) → List Nat × List BufferId
  | [], listed => ([], listed)
  | b :: inputs, listed =>
    let (i, listed) := addInput listed b
    let (is, listed) := numberInputs inputs listed
    (i :: is, listed)

/-- Appends a function that writes scratch of its own, or the buffer `into`; the numbers
of its inputs and its output. -/
def addFunction (name : String) (len : Nat) (inputs : List BufferId) (code : List Instr)
    (into : Option BufferId) : Action (List Nat × BufferId) := do
  let (numbers, listed) := numberInputs inputs []
  let p ← draft name
  match into with
  | some b =>
    setProgram name (p.pushInto code listed b)
    return (numbers, b)
  | none =>
    let (b, p) := p.push code listed len
    setProgram name p
    return (numbers, b)

/-- Appends a function as it stands; how many there are then. -/
def addRawFunction (name : String) (inputs : List BufferId) (output : BufferId) (code : List Instr) :
    Action Nat := do
  let p := (← draft name).pushInto code inputs output
  setProgram name p
  return p.functions.length

/-- Appends a buffer as it stands; how many there are then. -/
def addRawBuffer (name : String) (source : Source) (len : Nat) : Action Nat := do
  let p ← draft name
  let p := { p with buffers := p.buffers ++ [⟨source, len⟩] }
  setProgram name p
  return p.buffers.length

def setOutput (name : String) (b : Option BufferId) : Action Unit := do
  setProgram name { (← draft name) with output := b }

/-! ## Looking at programs -/

def verify (name : String) : Action Unit := do
  request ((← program name).verify.mapError .verify)

/-- The C listing of a program, verified or not. -/
def listing (name : String) : Action String := do
  words (Listing.text (← program name))

def sameProgram (a b : String) : Action Bool := return (← program a).same (← program b)

end TensorLoom.Session
