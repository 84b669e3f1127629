import TensorLoom.Compile
import TensorLoom.Listing
import TensorLoom.Toolchain.Config
/-
# Native code

The listing of a program is compiled to a library, and the kernel is the function that the
library exports under the name of the entry point. What the compiler, the loader and the
code do is a parameter.
-/

namespace TensorLoom.Toolchain

variable {α : Type}

/-- What a compiler leaves behind. -/
inductive Product (α : Type) where
  /-- It reports a failure. -/
  | failed
  /-- It reports none, but there is no library that can be loaded. -/
  | unloadable
  /-- A library, with the functions it exports. -/
  | library (exports : String → Option (Kernel α))

/-- The system that a build runs on. -/
structure System (α : Type) where
  /-- The program of that name can be found. -/
  finds : (compiler : String) → Bool
  /-- The C file can be saved in the directory. -/
  saves : (dir : String) → (source : String) → Bool
  /-- What the compiler makes of a C file. -/
  run : (compiler : String) → (source : String) → (flags : List String) → Product α

/-- Builds a C file whose function `entry` is to be run. -/
def System.build (sys : System α) (config : Config) (env : Environment) (source entry : String) :
    Except BuildError (Kernel α) :=
  let compiler := config.compilerName env
  if !sys.finds compiler then .error (.toolMissing compiler)
  else if !config.artifactDir.all (sys.saves · source) then .error .artifact
  else
    match sys.run compiler source (config.flags ++ config.extraFlags) with
    | .failed => .error .compiler
    | .unloadable => .error .load
    | .library exports =>
      match exports entry with
      | none => .error .missingSymbol
      | some kernel => .ok kernel

/-- Programs are compiled as C. -/
def native (sys : System α) (config : Config) (env : Environment) : Backend α where
  name := generatorName
  lower p := do
    let source ← Listing.text p
    return (sys.build config env source Listing.entryName).mapError .build

end TensorLoom.Toolchain
