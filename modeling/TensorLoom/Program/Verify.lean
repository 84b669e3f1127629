import TensorLoom.Program.Basic
/-
# The program verifier

A program that passes has a result, a writer for every scratch buffer, functions in
dependency order, no leaf touched after it was updated, and bodies in which loops
balance and every operand is defined, in scope and of the right kind. The first
violation is reported.
-/

namespace TensorLoom

/-- Why a program is refused. -/
inductive VerifyError where
  | missingOutput
  | outputOutOfRange (buffer : BufferId)
  | bufferOutOfRange (function : Nat) (buffer : BufferId)
  | orphanBuffer (buffer : BufferId) (producer : Nat)
  | outputMismatch (function : Nat) (buffer : BufferId)
  | dependencyOrder (function : Nat) (buffer : BufferId) (producer : Nat)
  | useAfterUpdate (function : Nat) (buffer : BufferId) (updatedBy : Nat)
  | inputOutOfRange (function instr input : Nat)
  | useBeforeDefinition (function instr : Nat) (value : ValueId)
  | outOfScope (function instr : Nat) (value : ValueId)
  | typeMismatch (function instr : Nat) (value : ValueId) (expected : ValueKind)
  | emptyLoop (function instr : Nat)
  | unbalancedLoops (function : Nat)
deriving DecidableEq, Repr

/-- The wording of a refused program. -/
def VerifyError.message : VerifyError → String
  | missingOutput => "program has no output buffer"
  | outputOutOfRange b => "output buffer " ++ bufferName b ++ " does not exist"
  | bufferOutOfRange f b => s!"function {f} references missing buffer " ++ bufferName b
  | orphanBuffer b p => "buffer " ++ bufferName b ++ s!" is not the output of function {p}"
  | outputMismatch f b => s!"function {f} writes buffer " ++ bufferName b ++ " owned by another function"
  | dependencyOrder f b p => s!"function {f} reads " ++ bufferName b ++ s!" before function {p} writes it"
  | useAfterUpdate f b u => s!"function {f} uses " ++ bufferName b ++ s!" after function {u} updated it"
  | inputOutOfRange f i n => s!"function {f}, instruction {i}: input {n} out of range"
  | useBeforeDefinition f i v => s!"function {f}, instruction {i}: use of undefined value " ++ valueName v
  | outOfScope f i v => s!"function {f}, instruction {i}: " ++ valueName v ++ " is out of scope"
  | typeMismatch f i v k =>
    s!"function {f}, instruction {i}: " ++ valueName v ++ " is not a " ++ k.name ++ " value"
  | emptyLoop f i => s!"function {f}, instruction {i}: loop has zero iterations"
  | unbalancedLoops f => s!"function {f} has unbalanced loops"

/-! ## Bodies -/

/-- What the verifier knows of the values of a body: which kind each has, none where nothing
was defined so far, which are in scope, and the headers of the open loops, the innermost
first. -/
structure Tables where
  kinds : Array (Option ValueKind)
  visible : Array Bool
  loops : List ValueId
deriving DecidableEq, Repr

namespace Tables

/-- Before the first of `count` instructions. -/
def start (count : Nat) : Tables := ⟨Array.replicate count none, Array.replicate count false, []⟩

/-- The value `v` is defined and in scope. -/
def define (t : Tables) (v : ValueId) (kind : ValueKind) : Tables :=
  { t with kinds := t.kinds.setIfInBounds v (some kind), visible := t.visible.setIfInBounds v true }

/-- The `n` values from `v` on are not in scope any more. -/
def hide (t : Tables) (v n : Nat) : Tables :=
  { t with visible := (List.range' v n).foldl (fun visible x => visible.setIfInBounds x false) t.visible }

end Tables

section
variable (f : Nat) (fn : Function)

/-- An operand of the instruction at `pos` is defined earlier, has the right kind and is in scope. -/
def verifyOperand (pos : ValueId) (t : Tables) (operand : ValueId × ValueKind) : Except VerifyError Unit :=
  let (v, expected) := operand
  if pos ≤ v then .error (.useBeforeDefinition f pos v)
  else if t.kinds.getD v none ≠ some expected then .error (.typeMismatch f pos v expected)
  else if t.visible.getD v false then .ok ()
  else .error (.outOfScope f pos v)

/-- The loops around the instruction at `pos` and the one after it. A loop that ends takes the
values from its header on out of scope. -/
def verifyLoops (pos : ValueId) (i : Instr) (t : Tables) : Except VerifyError Tables :=
  match i with
  | .loop range _ => if range = 0 then .error (.emptyLoop f pos) else .ok { t with loops := pos :: t.loops }
  | .close =>
    match t.loops with
    | [] => .error (.unbalancedLoops f)
    | header :: loops => .ok ({ t with loops := loops }.hide header (pos - header))
  | .load input _ => if fn.inputs.length ≤ input then .error (.inputOutOfRange f pos input) else .ok t
  | _ => .ok t

/-- The tables after the instruction at `pos`. -/
def verifyInstr (pos : ValueId) (i : Instr) (t : Tables) : Except VerifyError Tables := do
  i.operands.forM (verifyOperand f pos t)
  let t ← verifyLoops f fn pos i t
  return match i.resultKind with
    | some kind => t.define pos kind
    | none => t

/-- The instructions from `pos` on. -/
def verifyFrom : (pos : ValueId) → List Instr → Tables → Except VerifyError Unit
  | _, [], t => if t.loops = [] then .ok () else .error (.unbalancedLoops f)
  | pos, i :: code, t => do
    let t ← verifyInstr f fn pos i t
    verifyFrom (pos + 1) code t

/-- The body of function number `f`. -/
def verifyBody : Except VerifyError Unit := verifyFrom f fn 0 fn.code (.start fn.code.length)

end

/-! ## Buffers -/

/-- Which functions so far have written leaves: leaf buffer and function number. -/
abbrev Updates := List (BufferId × Nat)

/-- A buffer that function `f` may still touch. -/
def verifyBuffer (p : Program) (f : Nat) (updates : Updates) (b : BufferId) : Except VerifyError Source :=
  match p.buffers[b]? with
  | none => .error (.bufferOutOfRange f b)
  | some buffer =>
    match updates.lookup b with
    | some u => .error (.useAfterUpdate f b u)
    | none => .ok buffer.source

/-- Function `f` reads what earlier functions wrote. -/
def verifyInput (p : Program) (f : Nat) (updates : Updates) (b : BufferId) : Except VerifyError Unit := do
  match ← verifyBuffer p f updates b with
  | .scratch producer => if f ≤ producer then throw (.dependencyOrder f b producer) else return ()
  | .leaf .. => return ()

/-- Function `f` writes its own scratch or a leaf; the updates afterwards. -/
def verifyOutput (p : Program) (f : Nat) (updates : Updates) (b : BufferId) : Except VerifyError Updates := do
  match ← verifyBuffer p f updates b with
  | .scratch producer => if producer = f then return updates else throw (.outputMismatch f b)
  | .leaf .. => return (b, f) :: updates

/-- Functions from number `f` on. -/
def verifyFunctions (p : Program) : (f : Nat) → List Function → Updates → Except VerifyError Unit
  | _, [], _ => .ok ()
  | f, fn :: fns, updates => do
    fn.inputs.forM (verifyInput p f updates)
    let updates ← verifyOutput p f updates fn.output
    verifyBody f fn
    verifyFunctions p (f + 1) fns updates

/-- The scratch buffer `b` is the output of the function it names. -/
def verifyOwner (p : Program) (b : BufferId) (buffer : Buffer) : Except VerifyError Unit :=
  match buffer.source with
  | .leaf .. => .ok ()
  | .scratch producer =>
    if (p.functions[producer]?).any (·.output == b) then .ok () else .error (.orphanBuffer b producer)

/-- The first violation of a program, if there is one. -/
def Program.verify (p : Program) : Except VerifyError Unit :=
  match p.output with
  | none => .error .missingOutput
  | some out =>
    if p.buffers.length ≤ out then .error (.outputOutOfRange out)
    else do
      p.buffers.zipIdx.forM fun (buffer, b) => verifyOwner p b buffer
      verifyFunctions p 0 p.functions []

end TensorLoom
