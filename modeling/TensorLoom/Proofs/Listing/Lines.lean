import TensorLoom.Listing
import TensorLoom.Proofs.Decimal.Word
import TensorLoom.Proofs.Listing.Token
import TensorLoom.Proofs.Program.Block
/-
# Lines of a listing

The tokens of every line of a listing. A listing whose loops are balanced has a text, and its
tokens are those of the program (`scans_lines`).
-/

namespace TensorLoom.Listing

open Decimal

/-! ## Lines and their texts -/

/-- The line is the text, and its tokens can be told apart. -/
structure Spells (text : String) (l : Line) : Prop where
  chars : text.toList = l.chars
  legal : ∀ t ∈ l.tokens, t.Legal
  apart : l.apart = true

instance (text : String) (l : Line) : Decidable (Spells text l) :=
  decidable_of_iff (text.toList = l.chars ∧ (∀ t ∈ l.tokens, t.Legal) ∧ l.apart = true)
    ⟨fun h => ⟨h.1, h.2.1, h.2.2⟩, fun h => ⟨h.chars, h.legal, h.apart⟩⟩

/-- The lines hold the tokens. -/
def Scans (lines : List String) (ts : List Token) : Prop :=
  ∃ ls, List.Forall₂ Spells lines ls ∧ ls.flatMap Line.tokens = ts

namespace Scans

variable {lines lines' : List String} {ts ts' : List Token}

theorem nil : Scans [] [] := ⟨[], .nil, rfl⟩

theorem append (h : Scans lines ts) (h' : Scans lines' ts') : Scans (lines ++ lines') (ts ++ ts') := by
  obtain ⟨ls, hls, rfl⟩ := h
  obtain ⟨ls', hls', rfl⟩ := h'
  exact ⟨ls ++ ls', List.rel_append hls hls', by rw [List.flatMap_append]⟩

theorem cons {line : String} {l : Line} (h : Spells line l) (h' : Scans lines ts) :
    Scans (line :: lines) (l.tokens ++ ts) := by
  obtain ⟨ls, hls, rfl⟩ := h'
  exact ⟨l :: ls, .cons h hls, rfl⟩

end Scans

theorem toList_toString_string (s : String) : (toString s).toList = s.toList := rfl

theorem toList_valueName (k : ℕ) : (valueName k).toList = (Token.value k).text := by
  simp only [valueName, String.toList_append, toList_toString_string, toList_toString_nat]
  rfl

theorem toList_functionName (f : ℕ) : (functionName f).toList = (Token.function f).text := by
  simp only [functionName, String.toList_append, toList_toString_string, toList_toString_nat]
  rfl

/-! ## Instructions -/

def intLine (z : ℤ) : Line :=
  if 0 ≤ z then [some (.number (Nat.toDigits 10 z.toNat))]
  else [some (.mark .minus), some (.number (Nat.toDigits 10 (-z).toNat))]

def literalLine (x : Float) : Line :=
  if x.isNaN then [some (.word .nan)]
  else if x.isInf then (if x > 0.0 then [some (.word .infinity)] else [some (.mark .minus), some (.word .infinity)])
  else if x.toBits.toNat < 2 ^ 63 then [some (.number (sizeNumeral x.toBits).text)]
  else [some (.mark .minus), some (.number (sizeNumeral x.toBits).text)]

def intMark : IntOp → Mark
  | .add => .plus
  | .sub => .minus
  | .mul => .star
  | .div => .slash
  | .mod => .percent

def unaryLine (op : UnaryOp) (x : ValueId) : Line :=
  let call (w : Word) : Line := [some (.word w), some (.mark .leftParen), some (.value x), some (.mark .rightParen)]
  match op with
  | .exp => call .exp
  | .log => call .log
  | .sin => call .sin
  | .sqrt => call .sqrt
  | .cast | .nop => [some (.value x)]

def binaryLine (op : BinaryOp) (a b : ValueId) : Line :=
  let between (m : Mark) : Line := [some (.value a), none, some (.mark m), none, some (.value b)]
  match op with
  | .add => between .plus
  | .sub => between .minus
  | .mul => between .star
  | .div => between .slash
  | .pow =>
    [some (.word .pow), some (.mark .leftParen), some (.value a), some (.mark .comma), none, some (.value b), some (.mark .rightParen)]
  | .cmp =>
    ([some (.mark .leftParen), some (.word .double), some (.mark .rightParen), some (.mark .leftParen)] : Line) ++ between .equal ++
      ([some (.mark .rightParen)] : Line)
  | .max =>
    between .atLeast ++
      ([none, some (.mark .question), none, some (.value a), none, some (.mark .colon), none, some (.value b)] : Line)

/-- The definition of the value at `pos`. -/
def defineLine (type : Word) (pos : ValueId) (value : Line) : Line :=
  ([some (.word type), none, some (.value pos), none, some (.mark .assign), none] : Line) ++ value ++
    ([some (.mark .semicolon)] : Line)

theorem tokens_defineLine (type : Word) (pos : ValueId) (l : Line) : (defineLine type pos l).tokens =
    .word type :: .value pos :: .mark .assign :: (l.tokens ++ ([.mark .semicolon] : List Token)) := by
  simp only [defineLine, Line.tokens_append, List.append_assoc]
  rfl

/-- The note on the stride of a loop. -/
def strideText (stride : ℕ) : List Char :=
  ['/', '*', ' ', 's', 't', 'r', 'i', 'd', 'e', ' '] ++ (Nat.toDigits 10 stride ++ [' ', '*', '/'])

/-- The header of a loop. -/
def loopLine (pos : ValueId) (range stride : ℕ) : Line :=
  [some (.word .loop), none, some (.mark .leftParen), some (.word .int64), none, some (.value pos), none, some (.mark .assign), none,
    some (.number ['0']), some (.mark .semicolon), none, some (.value pos), none, some (.mark .less), none,
    some (.number (Nat.toDigits 10 range)), some (.mark .semicolon), none, some (.value pos), some (.mark .increment),
    some (.mark .rightParen), none, some (.comment (strideText stride))]

/-- The lines of the instruction at `pos`. -/
def instrForm (pos : ValueId) : Instr → List Line
  | .int value => [defineLine .int64 pos (intLine value)]
  | .arith op lhs rhs => [defineLine .int64 pos [some (.value lhs), none, some (.mark (intMark op)), none, some (.value rhs)]]
  | .loop range stride => [loopLine pos range stride, [some (.mark .leftBrace)]]
  | .close => [[some (.mark .rightBrace)]]
  | .load input offset =>
    [defineLine .double pos [some (.input input), some (.mark .leftBracket), some (.value offset), some (.mark .rightBracket)]]
  | .store offset value =>
    [[some (.word .output), some (.mark .leftBracket), some (.value offset), some (.mark .rightBracket), none, some (.mark .assign),
      none, some (.value value), some (.mark .semicolon)]]
  | .imm value => [defineLine .double pos (literalLine value)]
  | .unary op x => [defineLine .double pos (unaryLine op x)]
  | .binary op lhs rhs => [defineLine .double pos (binaryLine op lhs rhs)]
  | .accumulate .sum acc x =>
    [[some (.value acc), none, some (.mark .addAssign), none, some (.value x), some (.mark .semicolon)]]
  | .accumulate .max acc x =>
    [([some (.value acc), none, some (.mark .assign), none] : Line) ++ binaryLine .max acc x ++ ([some (.mark .semicolon)] : Line)]

/-- The value is spelled, whatever stands behind it. -/
structure SpellsValue (text : String) (l : Line) : Prop where
  chars : text.toList = l.chars
  legal : ∀ t ∈ l.tokens, t.Legal
  apart : Line.apart (l ++ [some (.mark .semicolon)]) = true

theorem spells_define {type : Word} {text value : String} {l : Line} (pos : ValueId) (htype : text = type.text ++ " ")
    (h : SpellsValue value l) : Spells (text ++ valueName pos ++ " = " ++ value ++ ";") (defineLine type pos l) := by
  subst htype
  refine ⟨?_, ?_, ?_⟩
  · simp only [String.toList_append, toList_valueName, h.chars, defineLine, Line.chars_append]
    simp [Line.chars, Token.text, Mark.text]
  · intro t ht
    simp only [defineLine, Line.tokens_append, List.mem_append] at ht
    rcases ht with (ht | ht) | ht
    · revert t
      simp [Line.tokens]
    · exact h.legal t ht
    · revert t
      simp [Line.tokens]
  · cases type <;> exact h.apart

theorem spellsValue_int (z : ℤ) : SpellsValue (toString z) (intLine z) := by
  have htext := toList_toString_int z
  unfold intLine
  split at htext
  · rename_i hz
    rw [if_pos hz]
    exact ⟨by simpa [Line.chars, Token.text] using htext, by simp [Line.tokens], by rfl⟩
  · rename_i hz
    rw [if_neg hz]
    exact ⟨by simpa [Line.chars, Token.text, Mark.text] using htext, by simp [Line.tokens], by rfl⟩

theorem spellsValue_literal (x : Float) : SpellsValue (literal x) (literalLine x) := by
  have hsize := Token.legal_number (sizeNumeral_wellFormed x.toBits)
  have htext := toList_finiteText x.toBits
  unfold literal literalLine
  split
  · exact ⟨rfl, by simp [Line.tokens], by rfl⟩
  · split
    · split
      · exact ⟨rfl, by simp [Line.tokens], by rfl⟩
      · exact ⟨rfl, by simp [Line.tokens], by rfl⟩
    · split at htext
      · rename_i hpos
        rw [if_pos hpos]
        exact ⟨by simpa [Line.chars, Token.text] using htext, by simpa [Line.tokens] using hsize, by rfl⟩
      · rename_i hneg
        rw [if_neg hneg]
        exact ⟨by simpa [Line.chars, Token.text, Mark.text] using htext, by simpa [Line.tokens] using hsize, by rfl⟩

theorem spellsValue_unary (op : UnaryOp) (x : ValueId) : SpellsValue (unaryText op x) (unaryLine op x) := by
  cases op <;> refine ⟨?_, by simp [unaryLine, Line.tokens], by rfl⟩ <;>
    simp [unaryText, unaryLine, Line.chars, String.toList_append, toList_valueName, UnaryOp.name, Token.text, Word.text, Mark.text]

theorem spellsValue_binary (op : BinaryOp) (a b : ValueId) : SpellsValue (binaryText op a b) (binaryLine op a b) := by
  cases op <;> refine ⟨?_, by simp [binaryLine, Line.tokens], by rfl⟩ <;>
    simp [binaryText, binaryLine, Line.chars, String.toList_append, toList_valueName, Token.text, Word.text, Mark.text]

theorem spellsValue_arith (op : IntOp) (a b : ValueId) : SpellsValue (valueName a ++ " " ++ op.symbol ++ " " ++ valueName b)
    [some (.value a), none, some (.mark (intMark op)), none, some (.value b)] := by
  cases op <;> refine ⟨?_, by simp [Line.tokens], by rfl⟩ <;>
    simp [Line.chars, String.toList_append, toList_valueName, IntOp.symbol, intMark, Token.text, Mark.text]

theorem spellsValue_load (input : ℕ) (offset : ValueId) : SpellsValue (s!"i{input}[" ++ valueName offset ++ "]")
    [some (.input input), some (.mark .leftBracket), some (.value offset), some (.mark .rightBracket)] := by
  refine ⟨?_, by simp [Line.tokens], by rfl⟩
  simp only [String.toList_append, toList_valueName, toList_toString_string, toList_toString_nat]
  simp [Line.chars, Token.text, Mark.text]

theorem spells_store (offset value : ValueId) : Spells ("output[" ++ valueName offset ++ "] = " ++ valueName value ++ ";")
    [some (.word .output), some (.mark .leftBracket), some (.value offset), some (.mark .rightBracket), none, some (.mark .assign),
      none, some (.value value), some (.mark .semicolon)] := by
  refine ⟨?_, by simp [Line.tokens], by rfl⟩
  simp [Line.chars, String.toList_append, toList_valueName, Token.text, Word.text, Mark.text]

theorem spells_sum (acc x : ValueId) : Spells (valueName acc ++ " += " ++ valueName x ++ ";")
    [some (.value acc), none, some (.mark .addAssign), none, some (.value x), some (.mark .semicolon)] := by
  refine ⟨?_, by simp [Line.tokens], by rfl⟩
  simp [Line.chars, String.toList_append, toList_valueName, Token.text, Mark.text]

theorem spells_max (acc x : ValueId) : Spells (valueName acc ++ " = " ++ binaryText .max acc x ++ ";")
    (([some (.value acc), none, some (.mark .assign), none] : Line) ++ binaryLine .max acc x ++ ([some (.mark .semicolon)] : Line)) := by
  refine ⟨?_, by simp [binaryLine, Line.tokens], by rfl⟩
  simp [binaryText, binaryLine, Line.chars, String.toList_append, toList_valueName, Token.text, Mark.text]

/-- The note on a stride is one comment. -/
theorem legal_stride (stride : ℕ) : (Token.comment (strideText stride)).Legal := by
  refine ⟨?_, rfl, fun _ _ => ?_⟩
  · have hdigits : Mode.comment.reads (Nat.toDigits 10 stride) = some .comment := by
      refine reads_same fun c hc => if_neg ?_
      rintro rfl
      exact absurd (isDigit_toDigits stride _ hc) (by decide)
    have hnote : Mode.comment.reads [' ', 's', 't', 'r', 'i', 'd', 'e', ' '] = some .comment := rfl
    exact reads_append hnote (reads_append hdigits rfl)
  · show braceless (Nat.toDigits 10 stride ++ [' ', '*', '/']) = true
    rw [braceless_append, braceless_toDigits]
    rfl

theorem spells_loop (pos : ValueId) (range stride : ℕ) :
    Spells ("for (int64_t " ++ valueName pos ++ " = 0; " ++ valueName pos ++ s!" < {range}; " ++ valueName pos ++
      s!"++) /* stride {stride} */") (loopLine pos range stride) := by
  refine ⟨?_, ?_, by rfl⟩
  · simp only [String.toList_append, toList_valueName, toList_toString_string, toList_toString_nat]
    simp [loopLine, strideText, Line.chars, Token.text, Word.text, Mark.text]
  · have hzero : (Token.number ['0']).Legal := Token.legal_natural 0
    simp [loopLine, Line.tokens, legal_stride, hzero]

theorem forall₂_instr (pos : ValueId) (i : Instr) : List.Forall₂ Spells (instrLines pos i) (instrForm pos i) := by
  have one : ∀ {text : String} {l : Line}, Spells text l → List.Forall₂ Spells [text] [l] := fun h => .cons h .nil
  cases i with
  | int value => exact one (spells_define pos rfl (spellsValue_int value))
  | arith op lhs rhs => exact one (spells_define pos rfl (spellsValue_arith op lhs rhs))
  | loop range stride => exact .cons (spells_loop pos range stride) (one ⟨rfl, by simp [Line.tokens], by rfl⟩)
  | close => exact one ⟨rfl, by simp [Line.tokens], by rfl⟩
  | load input offset => exact one (spells_define pos rfl (spellsValue_load input offset))
  | store offset value => exact one (spells_store offset value)
  | imm value => exact one (spells_define pos rfl (spellsValue_literal value))
  | unary op x => exact one (spells_define pos rfl (spellsValue_unary op x))
  | binary op lhs rhs => exact one (spells_define pos rfl (spellsValue_binary op lhs rhs))
  | accumulate op acc x =>
    cases op with
    | sum => exact one (spells_sum acc x)
    | max => exact one (spells_max acc x)

def instrTokens (pos : ValueId) (i : Instr) : List Token := (instrForm pos i).flatMap Line.tokens

theorem instrTokens_of_form {pos : ValueId} {i : Instr} {l : Line} (h : instrForm pos i = [l]) : instrTokens pos i = l.tokens := by
  rw [instrTokens, h, List.flatMap_singleton]

/-! ## Bodies -/

/-- The tokens of the instructions from `pos` on. -/
def bodyTokens : (pos : ValueId) → List Instr → List Token
  | _, [] => []
  | pos, i :: code => instrTokens pos i ++ bodyTokens (pos + 1) code

theorem Spells.indent {text : String} {l : Line} (h : Spells text l) (depth : ℕ) :
    ∃ l', Spells (indent depth text) l' ∧ l'.tokens = l.tokens := by
  refine ⟨List.replicate (4 * depth) none ++ l, ⟨?_, ?_, ?_⟩, ?_⟩
  · rw [Listing.indent, String.toList_append, String.toList_ofList, h.chars]
    induction 4 * depth with
    | zero => rfl
    | succ n ih => exact congrArg (' ' :: ·) ih
  · induction 4 * depth with
    | zero => exact h.legal
    | succ n ih => exact ih
  · induction 4 * depth with
    | zero => exact h.apart
    | succ n ih => exact ih
  · induction 4 * depth with
    | zero => rfl
    | succ n ih => exact ih

theorem scans_indent {lines : List String} {ls : List Line} (h : List.Forall₂ Spells lines ls) (depth : ℕ) :
    Scans (lines.map (indent depth)) (ls.flatMap Line.tokens) := by
  induction h with
  | nil => exact .nil
  | cons hline _ ih =>
    obtain ⟨l', hl', htokens⟩ := hline.indent depth
    rw [List.map_cons, List.flatMap_cons, ← htokens]
    exact .cons hl' ih

theorem scans_body {depth pos : ℕ} {code : List Instr} {lines : List String} (h : bodyLines depth pos code = .ok lines) :
    Scans lines (bodyTokens pos code) := by
  induction code generalizing depth pos lines with
  | nil =>
    obtain rfl := Except.ok.inj h
    exact .nil
  | cons i code ih =>
    obtain ⟨⟨here, after⟩, -, hbind⟩ := bind_eq_ok.1 h
    obtain ⟨rest, hrest, hlines⟩ := bind_eq_ok.1 hbind
    obtain rfl := Except.ok.inj hlines
    exact (scans_indent (forall₂_instr pos i) here).append (ih hrest)

/-- An instruction that the verifier accepts stands as deep as loops are open, and one level
further out where it closes one. -/
theorem depths_of_checkInstr {f : ℕ} {fn : Function} {pos : ℕ} {i : Instr} {scopes scopes' : Scopes}
    (h : checkInstr f fn pos i scopes = .ok scopes') :
    ∃ here, depths (scopes.outer.length + 1) i = .ok (here, scopes'.outer.length + 1) := by
  by_cases hplain : i.Plain
  · obtain ⟨-, -, rfl⟩ := (checkInstr_plain_eq_ok_iff hplain).1 h
    rw [i.defineIn_outer]
    cases i with
    | loop => exact hplain.elim
    | close => exact hplain.elim
    | _ => exact ⟨_, rfl⟩
  · cases i with
    | loop range stride =>
      obtain ⟨-, rfl⟩ := checkInstr_loop_eq_ok_iff.1 h
      exact ⟨_, rfl⟩
    | close =>
      have hleave := checkInstr_close_eq_ok_iff.1 h
      cases houter : scopes.outer with
      | nil => simp [Scopes.leave?, houter] at hleave
      | cons block outer =>
        obtain rfl : (⟨block, outer⟩ : Scopes) = scopes' := by simpa [Scopes.leave?, houter] using hleave
        exact ⟨_, rfl⟩
    | _ => exact absurd trivial hplain

/-- A body that the verifier accepts has lines. -/
theorem exists_bodyLines {f : ℕ} {fn : Function} {pos : ℕ} {code : List Instr} {scopes : Scopes}
    (h : checkFrom f fn pos code scopes = .ok ()) : ∃ lines, bodyLines (scopes.outer.length + 1) pos code = .ok lines := by
  induction code generalizing pos scopes with
  | nil => exact ⟨[], rfl⟩
  | cons i code ih =>
    obtain ⟨scopes', hi, hcode⟩ := checkFrom_cons_eq_ok_iff.1 h
    obtain ⟨rest, hrest⟩ := ih hcode
    obtain ⟨here, hdepths⟩ := depths_of_checkInstr hi
    exact ⟨_, bind_eq_ok.2 ⟨_, hdepths, bind_eq_ok.2 ⟨rest, hrest, rfl⟩⟩⟩

/-! ## Functions -/

def parameterTokens (i : ℕ) : List Token := [.word .const, .word .double, .mark .star, .input i, .mark .comma]

/-- The last parameter and the start of the body. -/
def outputTokens : List Token := [.word .double, .mark .star, .word .output, .mark .rightParen, .mark .leftBrace]

/-- The tokens in front of the body of a function. -/
def headTokens (f inputs : ℕ) : List Token :=
  .word .static :: .word .void :: .function f :: .mark .leftParen :: ((List.range inputs).flatMap parameterTokens ++ outputTokens)

def functionTokens (f : ℕ) (fn : Function) : List Token :=
  headTokens f fn.inputs.length ++ (bodyTokens 0 fn.code ++ ([.mark .rightBrace] : List Token))

theorem spells_head (f : ℕ) : Spells ("static void " ++ functionName f ++ "(")
    [some (.word .static), none, some (.word .void), none, some (.function f), some (.mark .leftParen)] := by
  refine ⟨?_, by simp [Line.tokens], by rfl⟩
  simp [Line.chars, String.toList_append, toList_functionName, Token.text, Word.text, Mark.text]

theorem spells_parameter (i : ℕ) : Spells s!"    const double *i{i},"
    [none, none, none, none, some (.word .const), none, some (.word .double), none, some (.mark .star), some (.input i),
      some (.mark .comma)] := by
  refine ⟨?_, by simp [Line.tokens], by rfl⟩
  simp only [String.toList_append, toList_toString_string, toList_toString_nat]
  simp [Line.chars, Token.text, Word.text, Mark.text]

theorem scans_parameters (is : List ℕ) :
    Scans (is.map fun i => s!"    const double *i{i},") (is.flatMap parameterTokens) := by
  induction is with
  | nil => exact .nil
  | cons i is ih => exact .cons (spells_parameter i) ih

theorem scans_function {f : ℕ} {fn : Function} {lines : List String} (h : functionLines f fn = .ok lines) :
    Scans lines (functionTokens f fn) := by
  obtain ⟨body, hbody, hlines⟩ := bind_eq_ok.1 h
  obtain rfl := Except.ok.inj hlines
  have hopen : Scans ["    double *output)", "\x7b"] outputTokens :=
    .cons (l := [none, none, none, none, some (.word .double), none, some (.mark .star), some (.word .output), some (.mark .rightParen)])
      (by decide +kernel) (.cons (l := [some (.mark .leftBrace)]) (by decide +kernel) .nil)
  have hclose : Scans ["\x7d", ""] [.mark .rightBrace] :=
    .cons (l := [some (.mark .rightBrace)]) (by decide +kernel) (.cons (l := []) (by decide +kernel) .nil)
  have htokens : functionTokens f fn = ([.word .static, .word .void, .function f, .mark .leftParen] : List Token) ++
      (List.range fn.inputs.length).flatMap parameterTokens ++ outputTokens ++ bodyTokens 0 fn.code ++
      ([.mark .rightBrace] : List Token) := by
    simp only [functionTokens, headTokens, List.append_assoc, List.cons_append, List.nil_append]
  rw [htokens]
  exact ((((Scans.cons (spells_head f) .nil).append (scans_parameters _)).append hopen).append (scans_body hbody)).append hclose

/-! ## The entry point -/

/-- The arguments of a call. -/
def argumentsLine : List BufferId → (output : BufferId) → Line
  | [], b =>
    [some (.word .buffers), some (.mark .leftBracket), some (.number (Nat.toDigits 10 b)), some (.mark .rightBracket),
      some (.mark .rightParen), some (.mark .semicolon)]
  | b :: bs, output =>
    some (.word .buffers) :: some (.mark .leftBracket) :: some (.number (Nat.toDigits 10 b)) :: some (.mark .rightBracket) ::
      some (.mark .comma) :: none :: argumentsLine bs output

/-- The tokens of the call of function number `f`. -/
def callTokens (f : ℕ) (fn : Function) : List Token :=
  .function f :: .mark .leftParen :: (argumentsLine fn.inputs fn.output).tokens

theorem chars_arguments (bs : List BufferId) (output : BufferId) :
    (String.join (bs.map fun b => s!"buffers[{b}], ") ++ s!"buffers[{output}]);").toList = (argumentsLine bs output).chars := by
  rw [String.toList_append, String.toList_join]
  induction bs with
  | nil =>
    simp only [List.map_nil, List.flatMap_nil, List.nil_append, String.toList_append, toList_toString_string, toList_toString_nat]
    simp [argumentsLine, Line.chars, Token.text, Word.text, Mark.text]
  | cons b bs ih =>
    rw [List.map_cons, List.flatMap_cons, List.append_assoc, ih, argumentsLine]
    simp only [String.toList_append, toList_toString_string, toList_toString_nat]
    simp [Line.chars, Token.text, Word.text, Mark.text]

theorem legal_arguments (bs : List BufferId) (output : BufferId) : ∀ t ∈ (argumentsLine bs output).tokens, t.Legal := by
  induction bs with
  | nil => simp [argumentsLine, Line.tokens]
  | cons b bs ih =>
    simp only [argumentsLine, Line.tokens, List.forall_mem_cons]
    exact ⟨Token.legal_word _, Token.legal_mark _, Token.legal_natural b, Token.legal_mark _, Token.legal_mark _, ih⟩

theorem apart_arguments (bs : List BufferId) (output : BufferId) : (argumentsLine bs output).apart = true := by
  induction bs with
  | nil => rfl
  | cons b bs ih => exact ih

theorem spells_call (f : ℕ) (fn : Function) : Spells (callLine f fn)
    (none :: none :: none :: none :: some (.function f) :: some (.mark .leftParen) :: argumentsLine fn.inputs fn.output) := by
  refine ⟨?_, ?_, apart_arguments fn.inputs fn.output⟩
  · have hline : callLine f fn = "    " ++ functionName f ++ "(" ++
        (String.join (fn.inputs.map fun b => s!"buffers[{b}], ") ++ s!"buffers[{fn.output}]);") := by
      rw [callLine, String.append_assoc]
    rw [hline, String.toList_append, chars_arguments]
    simp [Line.chars, String.toList_append, toList_functionName, Token.text, Mark.text]
  · simp only [Line.tokens, List.forall_mem_cons]
    exact ⟨Token.legal_function f, Token.legal_mark _, legal_arguments fn.inputs fn.output⟩

def directiveLine (text : String) : Line := [some (.directive text.toList)]

/-- The call of a C library function. -/
def libraryCall (name : String) (arguments : Line) : Line :=
  some (.other name.toList) :: some (.mark .leftParen) :: (arguments ++ ([some (.mark .rightParen), some (.mark .semicolon)] : Line))

def guardText : String := "#if defined(__linux__) && defined(__GLIBC__)"

/-- The lines in front of the functions. -/
def includeForm : List Line :=
  [directiveLine "#define _GNU_SOURCE", directiveLine "#include <fenv.h>", directiveLine "#include <math.h>",
    directiveLine "#include <stdint.h>", []]

/-- The lines of the entry point in front of the calls. -/
def openingForm : List Line :=
  [[some (.word .void), none, some (.word .entry), some (.mark .leftParen), some (.word .void), none, some (.mark .star),
      some (.mark .star), some (.word .buffers), some (.mark .rightParen)],
    [some (.mark .leftBrace)],
    directiveLine guardText,
    none :: none :: none :: none :: libraryCall "feclearexcept" [some (.other "FE_ALL_EXCEPT".toList)],
    none :: none :: none :: none :: some (.other "int".toList) :: none :: some (.other "saved_traps".toList) :: none ::
      some (.mark .assign) :: none :: libraryCall "fegetexcept" [],
    none :: none :: none :: none :: libraryCall "feenableexcept"
      [some (.other "FE_DIVBYZERO".toList), none, some (.mark .bar), none, some (.other "FE_INVALID".toList), none, some (.mark .bar),
        none, some (.other "FE_OVERFLOW".toList)],
    directiveLine "#endif"]

/-- The lines of the entry point behind the calls. -/
def closingForm : List Line :=
  [directiveLine guardText,
    none :: none :: none :: none :: libraryCall "fedisableexcept" [some (.other "FE_ALL_EXCEPT".toList)],
    none :: none :: none :: none :: libraryCall "feenableexcept" [some (.other "saved_traps".toList)],
    directiveLine "#endif",
    [some (.mark .rightBrace)]]

def entryTokens (p : Program) : List Token :=
  openingForm.flatMap Line.tokens ++ (p.functions.zipIdx.flatMap fun q => callTokens q.2 q.1) ++ closingForm.flatMap Line.tokens

theorem scans_calls (fns : List (Function × ℕ)) :
    Scans (fns.map fun q => callLine q.2 q.1) (fns.flatMap fun q => callTokens q.2 q.1) := by
  induction fns with
  | nil => exact .nil
  | cons q fns ih => exact .cons (spells_call q.2 q.1) ih

theorem scans_opening : Scans ["void " ++ entryName ++ "(void **buffers)", "\x7b", guardText, "    feclearexcept(FE_ALL_EXCEPT);",
    "    int saved_traps = fegetexcept();", "    feenableexcept(FE_DIVBYZERO | FE_INVALID | FE_OVERFLOW);", "#endif"]
    (openingForm.flatMap Line.tokens) :=
  ⟨openingForm, .cons (by decide +kernel) (.cons (by decide +kernel) (.cons (by decide +kernel) (.cons (by decide +kernel)
    (.cons (by decide +kernel) (.cons (by decide +kernel) (.cons (by decide +kernel) .nil)))))), rfl⟩

theorem scans_closing : Scans [guardText, "    fedisableexcept(FE_ALL_EXCEPT);", "    feenableexcept(saved_traps);", "#endif", "\x7d"]
    (closingForm.flatMap Line.tokens) :=
  ⟨closingForm, .cons (by decide +kernel) (.cons (by decide +kernel) (.cons (by decide +kernel) (.cons (by decide +kernel)
    (.cons (by decide +kernel) .nil)))), rfl⟩

theorem scans_entry (p : Program) : Scans (entryLines p) (entryTokens p) :=
  (scans_opening.append (scans_calls p.functions.zipIdx)).append scans_closing

/-! ## The file -/

def programTokens (p : Program) : List Token :=
  includeForm.flatMap Line.tokens ++ (p.functions.zipIdx.flatMap fun q => functionTokens q.2 q.1) ++ entryTokens p

theorem scans_includes : Scans ["#define _GNU_SOURCE", "#include <fenv.h>", "#include <math.h>", "#include <stdint.h>", ""]
    (includeForm.flatMap Line.tokens) :=
  ⟨includeForm, .cons (by decide +kernel) (.cons (by decide +kernel) (.cons (by decide +kernel) (.cons (by decide +kernel)
    (.cons (by decide +kernel) .nil)))), rfl⟩

theorem scans_functions {fns : List (Function × ℕ)} {lines : List (List String)}
    (h : (fns.mapM fun q => functionLines q.2 q.1) = .ok lines) :
    Scans lines.flatten (fns.flatMap fun q => functionTokens q.2 q.1) := by
  induction fns generalizing lines with
  | nil =>
    cases h
    exact .nil
  | cons q fns ih =>
    rw [List.mapM_cons] at h
    obtain ⟨ls, hfn, h⟩ := bind_eq_ok.1 h
    obtain ⟨rest, hrest, hlines⟩ := bind_eq_ok.1 h
    cases hlines
    exact (scans_function hfn).append (ih hrest)

/-- The lines of a listing hold the tokens of the program. -/
theorem scans_lines {p : Program} {ls : List String} (h : lines p = .ok ls) : Scans ls (programTokens p) := by
  obtain ⟨functions, hfunctions, hlines⟩ := bind_eq_ok.1 h
  obtain rfl := Except.ok.inj hlines
  exact (scans_includes.append (scans_functions hfunctions)).append (scans_entry p)

theorem Scans.tokens {lines : List String} {ts : List Token} (h : Scans lines ts) :
    tokens (String.join (lines.map (· ++ "\n"))).toList = ts := by
  obtain ⟨ls, hls, rfl⟩ := h
  rw [String.toList_join]
  induction hls with
  | nil => rfl
  | cons hline _ ih =>
    rw [List.map_cons, List.flatMap_cons, List.flatMap_cons, String.toList_append, hline.chars, List.append_assoc]
    exact (Line.scan_chars hline.legal hline.apart _).trans (congrArg (_ ++ ·) ih)

/-- A listing of bodies that the verifier accepts has lines. -/
theorem exists_lines {p : Program} (h : ∀ k fn, p.functions[k]? = some fn → verifyBody k fn = .ok ()) : ∃ ls, lines p = .ok ls := by
  have hfunctions : ∃ ls, (p.functions.zipIdx.mapM fun q => functionLines q.2 q.1) = .ok ls := by
    refine exists_mapM_eq_ok fun q hq => ?_
    have hverify := h q.2 q.1 (List.mem_zipIdx_iff_getElem?.1 hq)
    rw [verifyBody_eq] at hverify
    obtain ⟨body, hbody⟩ := exists_bodyLines hverify
    exact ⟨_, bind_eq_ok.2 ⟨body, hbody, rfl⟩⟩
  obtain ⟨ls, hls⟩ := hfunctions
  exact ⟨_, bind_eq_ok.2 ⟨ls, hls, rfl⟩⟩

end TensorLoom.Listing
