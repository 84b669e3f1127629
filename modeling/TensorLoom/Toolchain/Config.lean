import TensorLoom.Text.Blank
/-
# Settings of a native build

Which C compiler is run and with which flags: explicit settings first, then the
environment, then `cc`.
-/

namespace TensorLoom.Toolchain

/-- The environment variables that a build looks at. -/
structure Environment where
  /-- The library's own choice of a compiler. -/
  compiler : Option String := none
  /-- The C compiler of the system. -/
  cc : Option String := none
  /-- The library's own extra flags, separated by blanks. -/
  flags : Option String := none
deriving DecidableEq, Repr

/-- Settings of a build. The extra flags follow the flags on the command line. -/
structure Config where
  compiler : Option String
  flags : List String
  extraFlags : List String
  /-- Directory that receives a copy of every generated C file. -/
  artifactDir : Option String
deriving DecidableEq, Repr

namespace Config

/-- Flags of every build. -/
def standardFlags : List String :=
  ["-O3", "-march=native", "-mtune=native", "-fPIC", "-shared", "-lm"]

def standard : Config := ⟨none, standardFlags, [], none⟩

/-- Standard settings with the extra flags of the environment. -/
def ofEnvironment (env : Environment) : Config :=
  match env.flags with
  | none => standard
  | some flags => { standard with extraFlags := Text.words flags }

/-- One explicit change of the settings. -/
inductive Change where
  | compiler (name : String)
  | flag (flag : String)
  | artifactDir (dir : String)
deriving DecidableEq, Repr

def apply (config : Config) : Change → Config
  | .compiler name => { config with compiler := some name }
  | .flag flag => { config with extraFlags := config.extraFlags ++ [flag] }
  | .artifactDir dir => { config with artifactDir := some dir }

/-- Settings after a list of changes. -/
def applyAll (config : Config) (changes : List Change) : Config := changes.foldl apply config

/-- A variable that is set to something other than blanks, trimmed. -/
def setting? (value : Option String) : Option String :=
  match value with
  | none => none
  | some v => if Text.trim v = "" then none else some (Text.trim v)

/-- The compiler to look for. -/
def compilerName (config : Config) (env : Environment) : String :=
  config.compiler.getD ((setting? env.compiler).getD ((setting? env.cc).getD "cc"))

end Config

/-- Name of the code generator that a build uses. -/
def generatorName : String := "scalar-c"

end TensorLoom.Toolchain
