import TensorLoom.Training
/-
# Sessions

A session holds one graph, and tensors, programs and modules under names. An action
answers or is refused; either way the session goes on with what the action left behind.
Only a fault ends it.
-/

namespace TensorLoom

/-- A module, by the way it was made. -/
inductive Loaded where
  | plain (module : Module Float)
  | graph (compiled : CompiledGraph Float)
  | training (training : Training Float)

/-- The module that runs. -/
def Loaded.module : Loaded → Module Float
  | plain m => m
  | graph c => c.module
  | training t => t.module

/-- Another module in its place. -/
def Loaded.withModule (m : Module Float) : Loaded → Loaded
  | plain _ => .plain m
  | graph c => .graph { c with module := m }
  | training t => .training { t with module := m }

structure Session where
  graph : Graph := {}
  store : Store Float := {}
  programs : List (String × Program) := []
  modules : List (String × Loaded) := []

/-- What a name should stand for. -/
inductive Named where
  | tensor | program | module
deriving DecidableEq, Repr

/-- Why an action is refused. -/
inductive SessionError where
  | missing (what : Named)
  | graph (error : GraphError)
  | gradient (error : GradientError)
  | verify (error : VerifyError)
  | lower (error : LowerError)
  | compile (error : CompileError)
  | compileGraph (error : CompileGraphError)
  | train (error : TrainError)
  | execute (error : ExecuteError)
deriving Repr

def Named.text : Named → String
  | tensor => "tensor"
  | program => "program"
  | module => "module"

/-- The wording of a refused action; none where the text would be that of a tool. -/
def SessionError.message? : SessionError → Option String
  | missing what => some ("no such " ++ what.text)
  | graph error => some error.message
  | gradient error => some error.message
  | verify error => some error.message
  | lower error => some error.message
  | compile error => error.message?
  | compileGraph error => error.message?
  | train error => error.message?
  | execute error => some error.message

/-- An action on a session. What it did before it was refused stays. -/
abbrev Action := ExceptT SessionError (StateT Session (Except Fault))

namespace Session

/-- Runs an action: its answer or the refusal, and the session afterwards. -/
def perform {α : Type} (action : Action α) (s : Session) : Except Fault (Except SessionError α × Session) :=
  action.run.run s

/-- A request that is answered or refused, if it does not fault. -/
def answer {α : Type} (r : Except Fault (Except SessionError α)) : Action α := ExceptT.mk (StateT.lift r)

def request {α : Type} (r : Except SessionError α) : Action α := answer (.ok r)

def words {α : Type} (r : Except Fault α) : Action α := ExceptT.lift (StateT.lift r)

/-- Extends the session's graph. -/
def extend {ε α : Type} (wrap : ε → SessionError) (b : Extend ε α) : Action α := do
  let (result, g) ← words (b.runOn (← get).graph)
  modify fun s => { s with graph := g }
  request (result.mapError wrap)

/-- The storage under a name. -/
def tensor (name : String) : Action StorageId := do
  match (← get).store.find? name with
  | some s => return s
  | none => throw (.missing .tensor)

/-- The program under a name. -/
def program (name : String) : Action Program := do
  match (← get).programs.lookup name with
  | some p => return p
  | none => throw (.missing .program)

/-- The module under a name. -/
def loaded (name : String) : Action Loaded := do
  match (← get).modules.lookup name with
  | some m => return m
  | none => throw (.missing .module)

def setStore (st : Store Float) : Action Unit := modify fun s => { s with store := st }

def setProgram (name : String) (p : Program) : Action Unit :=
  modify fun s => { s with programs := (name, p) :: s.programs.filter (·.1 != name) }

/-- The name stands for the module, in the place that it had if it stood for another. -/
def put (name : String) (m : Loaded) : List (String × Loaded) → List (String × Loaded)
  | [] => [(name, m)]
  | entry :: rest => if entry.1 = name then (name, m) :: rest else entry :: put name m rest

def setLoaded (name : String) (m : Loaded) : Action Unit :=
  modify fun s => { s with modules := put name m s.modules }

end Session

end TensorLoom
