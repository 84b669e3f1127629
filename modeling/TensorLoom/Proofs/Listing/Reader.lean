import TensorLoom.Proofs.Listing.Scoping
import TensorLoom.Proofs.Program.Valid
/-
# Reading a listing

A reader of the C subset that listings are written in. The tokens of a file are cut into
statements, and the statements are read one after the other: the functions with the number of
their inputs and their instructions, and from the entry point the buffers of each call. What is
read from the listing of a program is the program (`read_text_of_verify`), up to two operations
that are written alike.
-/

namespace TensorLoom

/-- Casts and operations that do nothing are written alike. -/
def Instr.canonical : Instr → Instr
  | unary .cast x => unary .nop x
  | i => i

namespace Listing

open Decimal

/-! ## Statements -/

/-- The token ends a statement, unless it stands in parentheses. -/
def Token.ends : Token → Bool
  | mark .semicolon | mark .leftBrace | mark .rightBrace | directive _ => true
  | _ => false

/-- Open parentheses behind a token that does not end the statement. -/
def goesOn (parens : ℕ) (t : Token) : Option ℕ :=
  match t with
  | .mark .leftParen => some (parens + 1)
  | .mark .rightParen => some (parens - 1)
  | t => if t.ends && parens == 0 then none else some parens

/-- The statements of a file, behind the part of one with open parentheses. -/
def statements : (parens : ℕ) → (part : List Token) → List Token → List (List Token)
  | _, part, [] => if part = [] then [] else [part]
  | parens, part, t :: ts =>
    match goesOn parens t with
    | some parens' => statements parens' (part ++ [t]) ts
    | none => (part ++ [t]) :: statements 0 [] ts

/-- The tokens are one statement. -/
structure IsStatement (ts : List Token) : Prop where
  inside : ts.dropLast.foldlM goesOn 0 = some 0
  ends : ts.getLast?.any Token.ends = true

theorem statements_goesOn {n m : ℕ} {part ts rest : List Token} (h : ts.foldlM goesOn n = some m) :
    statements n part (ts ++ rest) = statements m (part ++ ts) rest := by
  induction ts generalizing n part with
  | nil =>
    cases h
    rw [List.nil_append, List.append_nil]
  | cons t ts ih =>
    rw [List.foldlM_cons] at h
    obtain ⟨k, hk, hts⟩ := Option.bind_eq_some_iff.1 h
    rw [List.cons_append, statements, hk]
    exact (ih hts).trans (by rw [List.append_assoc, List.singleton_append])

theorem IsStatement.statements_append {ts : List Token} (h : IsStatement ts) (rest : List Token) :
    statements 0 [] (ts ++ rest) = ts :: statements 0 [] rest := by
  obtain ⟨t, hlast, hends⟩ := (Option.any_eq_true _ _).1 h.ends
  have hsplit : ts.dropLast ++ [t] = ts := List.dropLast_append_getLast? t hlast
  have hend : goesOn 0 t = none := by
    cases t with
    | mark m => cases m <;> simp_all [goesOn, Token.ends]
    | directive => rfl
    | _ => cases hends
  rw [← hsplit, List.append_assoc, statements_goesOn h.inside, List.singleton_append, statements, hend]
  rfl

/-! ## Instructions -/

def intOp? : Mark → Option IntOp
  | .plus => some .add
  | .minus => some .sub
  | .star => some .mul
  | .slash => some .div
  | .percent => some .mod
  | _ => none

def unaryOp? : Word → Option UnaryOp
  | .exp => some .exp
  | .log => some .log
  | .sin => some .sin
  | .sqrt => some .sqrt
  | _ => none

def binaryOp? : Mark → Option BinaryOp
  | .plus => some .add
  | .minus => some .sub
  | .star => some .mul
  | .slash => some .div
  | _ => none

/-- The right side of a definition of an index. -/
def readInt : List Token → Option Instr
  | [.number t, .mark .semicolon] => (natural? t).map fun (n : ℕ) => .int n
  | [.mark .minus, .number t, .mark .semicolon] => (natural? t).map fun (n : ℕ) => .int (-n)
  | [.value a, .mark m, .value b, .mark .semicolon] => (intOp? m).map fun op => .arith op a b
  | _ => none

/-- The right side of a definition of an element. -/
def readFloat : List Token → Option Instr
  | [.word .nan, .mark .semicolon] => (float? nanBits).map .imm
  | [.word .infinity, .mark .semicolon] => (float? infinityBits).map .imm
  | [.mark .minus, .word .infinity, .mark .semicolon] => (float? (negateBits infinityBits)).map .imm
  | [.number t, .mark .semicolon] => ((readSize? t).bind float?).map .imm
  | [.mark .minus, .number t, .mark .semicolon] => (((readSize? t).map negateBits).bind float?).map .imm
  | [.input n, .mark .leftBracket, .value offset, .mark .rightBracket, .mark .semicolon] => some (.load n offset)
  | [.value x, .mark .semicolon] => some (.unary .nop x)
  | [.word w, .mark .leftParen, .value x, .mark .rightParen, .mark .semicolon] => (unaryOp? w).map fun op => .unary op x
  | [.value a, .mark m, .value b, .mark .semicolon] => (binaryOp? m).map fun op => .binary op a b
  | [.word .pow, .mark .leftParen, .value a, .mark .comma, .value b, .mark .rightParen, .mark .semicolon] => some (.binary .pow a b)
  | [.mark .leftParen, .word .double, .mark .rightParen, .mark .leftParen, .value a, .mark .equal, .value b, .mark .rightParen,
      .mark .semicolon] => some (.binary .cmp a b)
  | [.value a, .mark .atLeast, .value b, .mark .question, .value a', .mark .colon, .value b', .mark .semicolon] =>
    if a' = a ∧ b' = b then some (.binary .max a b) else none
  | _ => none

/-- The stride in a note. -/
def stride? : List Char → Option ℕ
  | '/' :: '*' :: ' ' :: 's' :: 't' :: 'r' :: 'i' :: 'd' :: 'e' :: ' ' :: text => natural? (text.takeWhile Char.isDigit)
  | _ => none

/-- The instruction at `pos`, unless it closes a loop. -/
def readInstr (pos : ValueId) : List Token → Option Instr
  | .word .int64 :: .value k :: .mark .assign :: ts => if k = pos then readInt ts else none
  | .word .double :: .value k :: .mark .assign :: ts => if k = pos then readFloat ts else none
  | [.word .output, .mark .leftBracket, .value offset, .mark .rightBracket, .mark .assign, .value value, .mark .semicolon] =>
    some (.store offset value)
  | [.value acc, .mark .addAssign, .value x, .mark .semicolon] => some (.accumulate .sum acc x)
  | [.value acc, .mark .assign, .value a, .mark .atLeast, .value b, .mark .question, .value a', .mark .colon, .value b',
      .mark .semicolon] =>
    if a = acc ∧ a' = acc ∧ b' = b then some (.accumulate .max acc b) else none
  | [.word .loop, .mark .leftParen, .word .int64, .value k, .mark .assign, .number start, .mark .semicolon, .value k', .mark .less,
      .number range, .mark .semicolon, .value k'', .mark .increment, .mark .rightParen, .comment note, .mark .leftBrace] =>
    if k = pos ∧ k' = pos ∧ k'' = pos ∧ start = ['0'] then
      (natural? range).bind fun range => (stride? note).map fun stride => .loop range stride
    else none
  | _ => none

theorem readInt_int (z : ℤ) : readInt ((intLine z).tokens ++ ([.mark .semicolon] : List Token)) = some (.int z) := by
  unfold intLine
  split
  · rename_i hz
    show (natural? (Nat.toDigits 10 z.toNat)).map _ = _
    rw [natural?_toDigits]
    exact congrArg (fun z => some (Instr.int z)) (Int.toNat_of_nonneg hz)
  · rename_i hz
    show (natural? (Nat.toDigits 10 (-z).toNat)).map _ = _
    rw [natural?_toDigits]
    exact congrArg (fun z => some (Instr.int z)) (by omega)

theorem map_float? {x : Float} {bits : UInt64} (h : bits = x.toBits) : (float? bits).map Instr.imm = some (.imm x) := by
  rw [h, float?_toBits, Option.map_some]

/-- The sign and the size of a finite number are those of its text. -/
theorem readFloat_finite {x : Float} (hfinite : x.toBits.toNat % 2 ^ 63 < 2047 * 2 ^ 52) :
    (x.toBits.toNat < 2 ^ 63 → readFloat [.number (sizeNumeral x.toBits).text, .mark .semicolon] = some (.imm x)) ∧
      (¬ x.toBits.toNat < 2 ^ 63 →
        readFloat [.mark .minus, .number (sizeNumeral x.toBits).text, .mark .semicolon] = some (.imm x)) := by
  have hlt := x.toBits.toNat_lt
  have hnat : (UInt64.ofNat (x.toBits.toNat % 2 ^ 63)).toNat = x.toBits.toNat % 2 ^ 63 := by
    rw [UInt64.toNat_ofNat']
    omega
  constructor
  · intro hpos
    rw [readFloat, readSize?_text hfinite, Option.bind_some]
    refine map_float? (UInt64.toNat_inj.1 ?_)
    rw [hnat]
    omega
  · intro hneg
    rw [readFloat, readSize?_text hfinite, Option.map_some, Option.bind_some]
    refine map_float? (UInt64.toNat_inj.1 ?_)
    rw [toNat_negateBits (by omega), hnat]
    omega

theorem readFloat_literal (x : Float) : readFloat ((literalLine x).tokens ++ ([.mark .semicolon] : List Token)) = some (.imm x) := by
  unfold literalLine
  split
  · rename_i hnan
    simp only [Line.tokens, List.cons_append, List.nil_append]
    rw [readFloat, map_float? (toBits_of_isNaN hnan).symm]
  · rename_i hnan
    rw [Bool.not_eq_true] at hnan
    split
    · rename_i hinf
      have hbits := toBits_of_isInf hinf
      split
      · rename_i hpos
        rw [if_pos hpos] at hbits
        simp only [Line.tokens, List.cons_append, List.nil_append]
        rw [readFloat, map_float? hbits.symm]
      · rename_i hpos
        rw [if_neg hpos] at hbits
        simp only [Line.tokens, List.cons_append, List.nil_append]
        rw [readFloat, map_float? hbits.symm]
    · rename_i hinf
      rw [Bool.not_eq_true] at hinf
      obtain ⟨hplus, hminus⟩ := readFloat_finite (toBits_finite hnan hinf)
      split
      · rename_i hpos
        exact hplus hpos
      · rename_i hneg
        exact hminus hneg

theorem stride?_strideText (stride : ℕ) : stride? (strideText stride) = some stride := by
  have hend : ∀ c cs, [' ', '*', '/'] = c :: cs → c.isDigit = false := by
    rintro c cs heq
    cases heq
    rfl
  have hspan := span_digits (isDigit_toDigits stride) hend
  show natural? ((Nat.toDigits 10 stride ++ [' ', '*', '/']).takeWhile Char.isDigit) = _
  rw [hspan.1, natural?_toDigits]

theorem readInstr_defineInt (pos : ValueId) (l : Line) :
    readInstr pos ((defineLine .int64 pos l).tokens) = readInt (l.tokens ++ ([.mark .semicolon] : List Token)) := by
  rw [tokens_defineLine, readInstr, if_pos rfl]

theorem readInstr_defineFloat (pos : ValueId) (l : Line) :
    readInstr pos ((defineLine .double pos l).tokens) = readFloat (l.tokens ++ ([.mark .semicolon] : List Token)) := by
  rw [tokens_defineLine, readInstr, if_pos rfl]

/-- An instruction is read from its tokens. -/
theorem readInstr_tokens (pos : ValueId) {i : Instr} (hi : i ≠ .close) : readInstr pos (instrTokens pos i) = some i.canonical := by
  cases i with
  | int value =>
    rw [instrTokens_of_form rfl, readInstr_defineInt]
    exact readInt_int value
  | arith op lhs rhs =>
    rw [instrTokens_of_form rfl, readInstr_defineInt]
    cases op <;> rfl
  | loop range stride =>
    have htokens : instrTokens pos (.loop range stride) = [.word .loop, .mark .leftParen, .word .int64, .value pos, .mark .assign,
      .number ['0'], .mark .semicolon, .value pos, .mark .less, .number (Nat.toDigits 10 range), .mark .semicolon, .value pos,
      .mark .increment, .mark .rightParen, .comment (strideText stride), .mark .leftBrace] := rfl
    rw [htokens, readInstr, if_pos ⟨rfl, rfl, rfl, rfl⟩, natural?_toDigits, stride?_strideText]
    rfl
  | close => exact absurd rfl hi
  | load input offset =>
    rw [instrTokens_of_form rfl, readInstr_defineFloat]
    rfl
  | store offset value => rfl
  | imm value =>
    rw [instrTokens_of_form rfl, readInstr_defineFloat]
    exact readFloat_literal value
  | unary op x =>
    rw [instrTokens_of_form rfl, readInstr_defineFloat]
    cases op <;> rfl
  | binary op lhs rhs =>
    rw [instrTokens_of_form rfl, readInstr_defineFloat]
    cases op with
    | max => exact if_pos ⟨rfl, rfl⟩
    | _ => rfl
  | accumulate op acc x =>
    cases op with
    | sum => rfl
    | max => exact if_pos ⟨rfl, rfl, rfl⟩

/-! ## Files -/

/-- What a function of a listing says. -/
structure FunctionText where
  inputs : ℕ
  code : List Instr

/-- The buffers of a call. -/
structure CallText where
  inputs : List BufferId
  output : BufferId

/-- What a listing says: its functions, and the calls of its entry point. -/
structure Contents where
  functions : List FunctionText := []
  calls : List CallText := []

/-- What a listing of the program says. -/
def contents (p : Program) : Contents where
  functions := p.functions.map fun fn => ⟨fn.inputs.length, fn.code.map Instr.canonical⟩
  calls := p.functions.map fun fn => ⟨fn.inputs, fn.output⟩

/-- The parameters of a function behind the first `n`, and the start of its body; how many there
are. -/
def readParameters : (n : ℕ) → List Token → Option ℕ
  | n, .word .const :: .word .double :: .mark .star :: .input k :: .mark .comma :: ts =>
    if k = n then readParameters (n + 1) ts else none
  | n, [.word .double, .mark .star, .word .output, .mark .rightParen, .mark .leftBrace] => some n
  | _, _ => none

/-- The arguments of a call. -/
def readArguments : List Token → Option CallText
  | [.word .buffers, .mark .leftBracket, .number b, .mark .rightBracket, .mark .rightParen, .mark .semicolon] =>
    (natural? b).map fun b => ⟨[], b⟩
  | .word .buffers :: .mark .leftBracket :: .number b :: .mark .rightBracket :: .mark .comma :: ts =>
    (natural? b).bind fun b => (readArguments ts).map fun call => ⟨b :: call.inputs, call.output⟩
  | _ => none

/-- Where in the file a statement stands. -/
inductive Place where
  | file
  /-- In a function with so many inputs and so many open loops, behind the code. -/
  | body (inputs loops : ℕ) (code : List Instr)
  | entry
  | done

/-- What has been read, and where the next statement stands. -/
structure Reading where
  contents : Contents := {}
  place : Place := .file

namespace Reading

/-- A statement outside of functions. -/
def readTop (c : Contents) : List Token → Option Reading
  | [.directive _] => some ⟨c, .file⟩
  | .word .static :: .word .void :: .function f :: .mark .leftParen :: ts =>
    if f = c.functions.length then (readParameters 0 ts).map fun n => ⟨c, .body n 0 []⟩ else none
  | [.word .void, .word .entry, .mark .leftParen, .word .void, .mark .star, .mark .star, .word .buffers, .mark .rightParen,
      .mark .leftBrace] => some ⟨c, .entry⟩
  | _ => none

/-- Open loops behind an instruction that closes none. -/
def openLoops (loops : ℕ) : Instr → ℕ
  | .loop .. => loops + 1
  | _ => loops

/-- A statement of a function. -/
def readBody (c : Contents) (inputs loops : ℕ) (code : List Instr) (ts : List Token) : Option Reading :=
  if ts = [.mark .rightBrace] then
    match loops with
    | 0 => some ⟨{ c with functions := c.functions ++ [⟨inputs, code⟩] }, .file⟩
    | loops + 1 => some ⟨c, .body inputs loops (code ++ [.close])⟩
  else (readInstr code.length ts).map fun i => ⟨c, .body inputs (openLoops loops i) (code ++ [i])⟩

/-- A statement of the entry point. Those that set up the floating-point environment are passed
over. -/
def readEntry (c : Contents) : List Token → Option Reading
  | [.directive _] | .other _ :: _ => some ⟨c, .entry⟩
  | .function f :: .mark .leftParen :: ts =>
    if f = c.calls.length then (readArguments ts).map fun call => ⟨{ c with calls := c.calls ++ [call] }, .entry⟩ else none
  | [.mark .rightBrace] => some ⟨c, .done⟩
  | _ => none

def step (r : Reading) (ts : List Token) : Option Reading :=
  match r.place with
  | .file => readTop r.contents ts
  | .body inputs loops code => readBody r.contents inputs loops code ts
  | .entry => readEntry r.contents ts
  | .done => none

end Reading

/-- What is read at the end of a file. -/
def Reading.finish? (r : Reading) : Option Contents :=
  match r.place with
  | .done => some r.contents
  | _ => none

/-- What the tokens of a listing say. -/
def readTokens (ts : List Token) : Option Contents :=
  ((statements 0 [] ts).foldlM Reading.step {}).bind Reading.finish?

/-- What a listing says. -/
def read (text : String) : Option Contents := readTokens (tokens text.toList)

/-- The tokens are statements that lead from one place to the other. -/
def Leads (r : Reading) (ts : List Token) (r' : Reading) : Prop :=
  ∀ rest, (statements 0 [] (ts ++ rest)).foldlM Reading.step r = (statements 0 [] rest).foldlM Reading.step r'

namespace Leads

variable {r r' r'' : Reading} {ts ts' : List Token}

theorem nil : Leads r [] r := fun _ => rfl

theorem append (h : Leads r ts r') (h' : Leads r' ts' r'') : Leads r (ts ++ ts') r'' := by
  intro rest
  rw [List.append_assoc, h, h']

theorem one (hts : IsStatement ts) (h : r.step ts = some r') : Leads r ts r' := by
  intro rest
  rw [hts.statements_append, List.foldlM_cons, h]
  rfl

end Leads

/-! ## Reading programs -/

theorem isStatement_append {ts : List Token} {t : Token} (h : ts.foldlM goesOn 0 = some 0) (ht : t.ends = true) :
    IsStatement (ts ++ [t]) :=
  ⟨by rw [List.dropLast_concat]; exact h, by rw [List.getLast?_concat]; exact ht⟩

theorem isStatement_define {type : Word} (pos : ValueId) {l : Line} (h : l.tokens.foldlM goesOn 0 = some 0) :
    IsStatement (defineLine type pos l).tokens := by
  have hsplit : (defineLine type pos l).tokens = (.word type :: .value pos :: .mark .assign :: l.tokens) ++ [.mark .semicolon] :=
    tokens_defineLine type pos l
  rw [hsplit]
  exact isStatement_append h rfl

theorem isStatement_instr (pos : ValueId) (i : Instr) : IsStatement (instrTokens pos i) := by
  cases i with
  | int value =>
    rw [instrTokens_of_form rfl]
    refine isStatement_define pos ?_
    unfold intLine
    split <;> rfl
  | imm value =>
    rw [instrTokens_of_form rfl]
    refine isStatement_define pos ?_
    unfold literalLine
    split
    · rfl
    · split
      · split <;> rfl
      · split <;> rfl
  | arith op lhs rhs => cases op <;> exact ⟨rfl, rfl⟩
  | unary op x => cases op <;> exact ⟨rfl, rfl⟩
  | binary op lhs rhs => cases op <;> exact ⟨rfl, rfl⟩
  | accumulate op acc x => cases op <;> exact ⟨rfl, rfl⟩
  | _ => exact ⟨rfl, rfl⟩

theorem instrTokens_ne_brace (pos : ValueId) {i : Instr} (hi : i ≠ .close) : instrTokens pos i ≠ [.mark .rightBrace] := by
  intro heq
  have hread := readInstr_tokens pos hi
  rw [heq] at hread
  cases hread

/-- A statement of the body is one more instruction. -/
theorem step_instr (c : Contents) (inputs : ℕ) {loops loops' here : ℕ} (code : List Instr) {i : Instr}
    (hdepths : depths (loops + 1) i = .ok (here, loops' + 1)) :
    Reading.step ⟨c, .body inputs loops code⟩ (instrTokens code.length i) =
      some ⟨c, .body inputs loops' (code ++ [i.canonical])⟩ := by
  by_cases hi : i = .close
  · subst hi
    obtain ⟨-, hloops⟩ := Prod.mk.inj (Except.ok.inj hdepths)
    obtain rfl : loops = loops' + 1 := hloops
    rfl
  · have hloops : Reading.openLoops loops i.canonical = loops' := by
      refine Nat.succ.inj ?_
      cases i with
      | close => exact absurd rfl hi
      | unary op x => cases op <;> exact (Prod.mk.inj (Except.ok.inj hdepths)).2
      | _ => exact (Prod.mk.inj (Except.ok.inj hdepths)).2
    show Reading.readBody c inputs loops code (instrTokens code.length i) = _
    unfold Reading.readBody
    rw [if_neg (instrTokens_ne_brace code.length hi), readInstr_tokens code.length hi, Option.map_some, hloops]

/-- The instructions of a body are read one after the other. -/
theorem leads_body (c : Contents) (inputs : ℕ) (code : List Instr) {f : ℕ} {fn : Function} {scopes : Scopes} {behind : List Instr}
    (h : checkFrom f fn code.length behind scopes = .ok ()) :
    Leads ⟨c, .body inputs scopes.outer.length code⟩ (bodyTokens code.length behind)
      ⟨c, .body inputs 0 (code ++ behind.map Instr.canonical)⟩ := by
  induction behind generalizing code scopes with
  | nil =>
    rw [checkFrom] at h
    split at h
    · rename_i houter
      rw [houter, List.map_nil, List.append_nil]
      exact .nil
    · cases h
  | cons i behind ih =>
    obtain ⟨scopes', hi, hbehind⟩ := checkFrom_cons_eq_ok_iff.1 h
    obtain ⟨here, hdepths⟩ := depths_of_checkInstr hi
    have hlength : (code ++ [i.canonical]).length = code.length + 1 := by simp
    rw [← hlength] at hbehind
    have hrest := ih _ hbehind
    rw [hlength, List.append_assoc, List.singleton_append] at hrest
    exact (Leads.one (isStatement_instr code.length i) (step_instr c inputs code hdepths)).append hrest

theorem foldlM_parameters (is : List ℕ) : (is.flatMap parameterTokens).foldlM goesOn 1 = some 1 := by
  induction is with
  | nil => rfl
  | cons i is ih => exact ih

theorem isStatement_head (f inputs : ℕ) : IsStatement (headTokens f inputs) := by
  have hsplit : headTokens f inputs = (.word .static :: .word .void :: .function f :: .mark .leftParen ::
      ((List.range inputs).flatMap parameterTokens ++ [.word .double, .mark .star, .word .output, .mark .rightParen])) ++
      [.mark .leftBrace] := by
    simp only [headTokens, outputTokens, List.cons_append, List.append_assoc, List.nil_append]
  rw [hsplit]
  refine isStatement_append ?_ rfl
  show ((List.range inputs).flatMap parameterTokens ++ _).foldlM goesOn 1 = _
  rw [List.foldlM_append, foldlM_parameters]
  rfl

theorem readParameters_range (n k : ℕ) :
    readParameters k ((List.range' k n).flatMap parameterTokens ++ outputTokens) = some (k + n) := by
  induction n generalizing k with
  | zero => rfl
  | succ n ih =>
    have hnext : readParameters k ((List.range' k (n + 1)).flatMap parameterTokens ++ outputTokens) =
        if k = k then readParameters (k + 1) ((List.range' (k + 1) n).flatMap parameterTokens ++ outputTokens) else none := rfl
    rw [hnext, if_pos rfl, ih, Nat.add_right_comm, Nat.add_assoc]

/-- A function is read from its tokens. -/
theorem leads_function (c : Contents) {fn : Function} (h : verifyBody c.functions.length fn = .ok ()) :
    Leads ⟨c, .file⟩ (functionTokens c.functions.length fn)
      ⟨{ c with functions := c.functions ++ [⟨fn.inputs.length, fn.code.map Instr.canonical⟩] }, .file⟩ := by
  have hhead : Reading.step ⟨c, .file⟩ (headTokens c.functions.length fn.inputs.length) =
      some ⟨c, .body fn.inputs.length 0 []⟩ := by
    have hparameters := readParameters_range fn.inputs.length 0
    rw [← List.range_eq_range', Nat.zero_add] at hparameters
    show (if _ = _ then (readParameters 0 ((List.range fn.inputs.length).flatMap parameterTokens ++ outputTokens)).map _ else none) = _
    rw [if_pos rfl, hparameters]
    rfl
  rw [verifyBody_eq] at h
  have hbody := leads_body c fn.inputs.length [] h
  exact (Leads.one (isStatement_head _ _) hhead).append (hbody.append (Leads.one ⟨rfl, rfl⟩ rfl))

/-- The arguments of a call end the statement. -/
theorem exists_arguments (bs : List BufferId) (output : BufferId) :
    ∃ ts, (argumentsLine bs output).tokens = ts ++ [.mark .semicolon] ∧ ts.foldlM goesOn 1 = some 0 := by
  induction bs with
  | nil => exact ⟨_ :: _ :: _ :: _ :: _ :: [], rfl, rfl⟩
  | cons b bs ih =>
    obtain ⟨ts, hts, hgoes⟩ := ih
    exact ⟨_ :: _ :: _ :: _ :: _ :: ts, congrArg (_ :: _ :: _ :: _ :: _ :: ·) hts, hgoes⟩

theorem readArguments_tokens (bs : List BufferId) (output : BufferId) :
    readArguments (argumentsLine bs output).tokens = some ⟨bs, output⟩ := by
  induction bs with
  | nil =>
    show (natural? (Nat.toDigits 10 output)).map _ = _
    rw [natural?_toDigits]
    rfl
  | cons b bs ih =>
    have hnext : readArguments (argumentsLine (b :: bs) output).tokens = (natural? (Nat.toDigits 10 b)).bind fun b =>
        (readArguments (argumentsLine bs output).tokens).map fun call => ⟨b :: call.inputs, call.output⟩ := rfl
    rw [hnext, natural?_toDigits, Option.bind_some, ih, Option.map_some]

/-- A call is read from its tokens. -/
theorem leads_call (c : Contents) (fn : Function) : Leads ⟨c, .entry⟩ (callTokens c.calls.length fn)
    ⟨{ c with calls := c.calls ++ [⟨fn.inputs, fn.output⟩] }, .entry⟩ := by
  obtain ⟨ts, hts, hgoes⟩ := exists_arguments fn.inputs fn.output
  have hstatement : IsStatement (callTokens c.calls.length fn) := by
    rw [callTokens, hts]
    show IsStatement ((.function c.calls.length :: .mark .leftParen :: ts) ++ [.mark .semicolon])
    exact isStatement_append hgoes rfl
  refine .one hstatement ?_
  show (if _ = _ then (readArguments (argumentsLine fn.inputs fn.output).tokens).map _ else none) = _
  rw [if_pos rfl, readArguments_tokens]
  rfl

theorem leads_opening (c : Contents) : Leads ⟨c, .file⟩ (openingForm.flatMap Line.tokens) ⟨c, .entry⟩ := fun _ => rfl

theorem leads_closing (c : Contents) : Leads ⟨c, .entry⟩ (closingForm.flatMap Line.tokens) ⟨c, .done⟩ := fun _ => rfl

theorem leads_includes (c : Contents) : Leads ⟨c, .file⟩ (includeForm.flatMap Line.tokens) ⟨c, .file⟩ := fun _ => rfl

theorem leads_functions (c : Contents) (fns : List Function)
    (h : ∀ k fn, fns[k]? = some fn → verifyBody (c.functions.length + k) fn = .ok ()) :
    Leads ⟨c, .file⟩ ((fns.zipIdx c.functions.length).flatMap fun q => functionTokens q.2 q.1)
      ⟨{ c with functions := c.functions ++ fns.map fun fn => ⟨fn.inputs.length, fn.code.map Instr.canonical⟩ }, .file⟩ := by
  induction fns generalizing c with
  | nil =>
    rw [List.map_nil, List.append_nil]
    exact .nil
  | cons fn fns ih =>
    have hfirst := leads_function c (h 0 fn rfl)
    have hrest := ih { c with functions := c.functions ++ [⟨fn.inputs.length, fn.code.map Instr.canonical⟩] } fun k fn' hk => by
      have := h (k + 1) fn' hk
      simpa [Nat.add_assoc, Nat.add_comm 1] using this
    simp only [List.length_append, List.length_singleton, List.append_assoc, List.singleton_append] at hrest
    exact hfirst.append hrest

theorem leads_calls (c : Contents) (fns : List Function) :
    Leads ⟨c, .entry⟩ ((fns.zipIdx c.calls.length).flatMap fun q => callTokens q.2 q.1)
      ⟨{ c with calls := c.calls ++ fns.map fun fn => ⟨fn.inputs, fn.output⟩ }, .entry⟩ := by
  induction fns generalizing c with
  | nil =>
    rw [List.map_nil, List.append_nil]
    exact .nil
  | cons fn fns ih =>
    have hrest := ih { c with calls := c.calls ++ [⟨fn.inputs, fn.output⟩] }
    simp only [List.length_append, List.length_singleton, List.append_assoc, List.singleton_append] at hrest
    exact (leads_call c fn).append hrest

/-- A program is read from its tokens. -/
theorem readTokens_program {p : Program} (h : ∀ k fn, p.functions[k]? = some fn → verifyBody k fn = .ok ()) :
    readTokens (programTokens p) = some (contents p) := by
  have hfunctions := leads_functions {} p.functions fun k fn hk => by
    rw [List.length_nil, Nat.zero_add]
    exact h k fn hk
  have hall := ((leads_includes {}).append hfunctions).append
    (((leads_opening _).append (leads_calls _ p.functions)).append (leads_closing _))
  have hend := hall []
  rw [List.append_nil] at hend
  exact congrArg (Option.bind · Reading.finish?) hend

/-- An accepted program has a listing, and is read from it; in the listing braces balance, and
every variable is used in the scope of its declaration. -/
theorem read_text_of_verify {p : Program} (h : p.verify = .ok ()) :
    ∃ t, text p = .ok t ∧ read t = some (contents p) ∧ BracesMatch t.toList ∧ InScope (tokens t.toList) := by
  have hbodies : ∀ k fn, p.functions[k]? = some fn → verifyBody k fn = .ok () := fun _ _ hfn =>
    ((Program.verify_eq_ok_iff.1 h).functions hfn).body
  obtain ⟨ls, hls⟩ := exists_lines hbodies
  have hscans := scans_lines hls
  have hscope := inScope_program hbodies
  refine ⟨_, bind_eq_ok.2 ⟨ls, hls, rfl⟩, ?_, hscope.balanced hscans, ?_⟩
  · rw [read, hscans.tokens]
    exact readTokens_program hbodies
  · rw [hscans.tokens]
    exact hscope

/-- The greatest element of each of two rows. -/
def rowMaxima : Program where
  functions :=
    [{ code :=
        [.loop 2 1, .imm (-1.0e300), .loop 3 0, .int 3, .arith .mul 0 3, .arith .add 4 2, .load 0 5, .accumulate .max 1 6, .close,
          .unary .cast 1, .store 0 9, .close]
       inputs := [0]
       output := 1 }]
  buffers := [⟨.leaf 0 true, 6⟩, ⟨.scratch 0, 2⟩]
  output := some 1

theorem read_text_rowMaxima : rowMaxima.verify = .ok () ∧
    ∃ t, text rowMaxima = .ok t ∧ read t = some (contents rowMaxima) ∧ BracesMatch t.toList ∧ InScope (tokens t.toList) :=
  ⟨rfl, read_text_of_verify rfl⟩

end Listing

end TensorLoom
