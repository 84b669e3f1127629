import TensorLoom.Module
/-
# Compiling programs

A backend makes kernels of programs. A program that is verified becomes a module with the
kernel that the backend makes of it; the loop machine is the backend that can run
everything.
-/

namespace TensorLoom

/-- Why a build of native code fails. What the tools themselves say is not kept. -/
inductive BuildError where
  | toolMissing (name : String)
  /-- The copy of the C file cannot be saved. -/
  | artifact
  /-- The compiler reports a failure. -/
  | compiler
  /-- The compiler wrote nothing that can be loaded. -/
  | load
  /-- The library does not export the entry point. -/
  | missingSymbol
deriving DecidableEq, Repr

/-- Why compilation is refused. -/
inductive CompileError where
  | verify (error : VerifyError)
  | build (error : BuildError)
deriving DecidableEq, Repr

/-- The wording of a refused compilation; none where the text would be that of a tool. -/
def CompileError.message? : CompileError → Option String
  | verify error => some ("invalid program: " ++ error.message)
  | build (.toolMissing name) => some ("C compiler not found: " ++ name)
  | build _ => none

/-- What makes kernels of verified programs. -/
structure Backend (α : Type) where
  name : String
  lower : Program → Except Fault (Except CompileError (Kernel α))

/-- Programs are run by the loop machine. -/
def Backend.machine {α : Type} (A : Arith α) : Backend α where
  name := "interpreter"
  lower p := .ok (.ok (.machine A p))

/-- The module of a program. -/
def compile {α : Type} (A : Arith α) (p : Program) (backend : Backend α) :
    Except Fault (Except CompileError (Module α)) :=
  match p.verify with
  | .error e => .ok (.error (.verify e))
  | .ok () => do
    match ← backend.lower p with
    | .error e => return .error e
    | .ok kernel => return .ok (← Module.create A p kernel)

end TensorLoom
