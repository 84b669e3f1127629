import TensorLoom.Proofs.Listing.Lines
/-
# Scopes of a listing

In C, a variable can be used behind its declaration, up to the end of the block that declares it;
what the header of a loop declares ends with the loop. The tokens of an accepted program keep to
this (`inScope_program`), since the scopes of the verifier are those of C (`Mirrors`). Braces
balance wherever scopes do (`InScope.balanced`).
-/

namespace TensorLoom.Listing

/-! ## Declarations and uses -/

/-- A scope that is open: a block, or the header of a loop, and the variables it declares. -/
structure OpenScope where
  header : Bool
  names : List ℕ
deriving DecidableEq, Repr

/-- The open scopes from the inside out, and whether the next variable is declared. -/
structure Scoping where
  opened : List OpenScope := []
  declares : Bool := false
deriving DecidableEq, Repr

/-- The variable is declared in an open scope. -/
def Sees (opened : List OpenScope) (k : ℕ) : Prop := ∃ f ∈ opened, k ∈ f.names

instance (opened : List OpenScope) (k : ℕ) : Decidable (Sees opened k) := inferInstanceAs (Decidable (∃ f ∈ opened, k ∈ f.names))

/-- The variable is declared in the innermost scope, unless it already is in some scope. -/
def declare? (k : ℕ) : List OpenScope → Option (List OpenScope)
  | [] => none
  | f :: opened => if Sees (f :: opened) k then none else some (⟨f.header, k :: f.names⟩ :: opened)

/-- A block ends, and so does the loop whose body it is. -/
def leaveBlock? : List OpenScope → Option (List OpenScope)
  | ⟨false, _⟩ :: ⟨true, _⟩ :: opened => some opened
  | ⟨false, _⟩ :: opened => some opened
  | _ => none

/-- The scopes behind a token. A variable is declared right behind its type, and must be in scope
elsewhere. -/
def Scoping.step (s : Scoping) : Token → Option Scoping
  | .word .int64 | .word .double => some ⟨s.opened, true⟩
  | .word .loop => some ⟨⟨true, []⟩ :: s.opened, false⟩
  | .mark .leftBrace => some ⟨⟨false, []⟩ :: s.opened, false⟩
  | .mark .rightBrace => (leaveBlock? s.opened).map fun opened => ⟨opened, false⟩
  | .value k =>
    if s.declares then (declare? k s.opened).map fun opened => ⟨opened, false⟩
    else if Sees s.opened k then some ⟨s.opened, false⟩
    else none
  | _ => some ⟨s.opened, false⟩

/-- The tokens lead from some open scopes to others. -/
def Runs (opened : List OpenScope) (ts : List Token) (opened' : List OpenScope) : Prop :=
  ts.foldlM Scoping.step ⟨opened, false⟩ = some ⟨opened', false⟩

/-- Every variable is used in the scope of its declaration, and every scope ends. -/
def InScope (ts : List Token) : Prop := Runs [] ts []

theorem Runs.append {opened opened' opened'' : List OpenScope} {ts ts' : List Token} (h : Runs opened ts opened')
    (h' : Runs opened' ts' opened'') : Runs opened (ts ++ ts') opened'' := by
  rw [Runs, List.foldlM_append]
  exact Option.bind_eq_some_iff.2 ⟨_, h, h'⟩

/-! ## Braces -/

/-- Open braces behind a character. -/
def braces (depth : ℕ) (c : Char) : Option ℕ :=
  if c = '\x7b' then some (depth + 1)
  else if c = '\x7d' then (if depth = 0 then none else some (depth - 1))
  else some depth

/-- The braces of the text balance. -/
def BracesMatch (text : List Char) : Prop := text.foldlM braces 0 = some 0

/-- The blocks among the open scopes. -/
def blocks : List OpenScope → ℕ
  | [] => 0
  | ⟨true, _⟩ :: opened => blocks opened
  | ⟨false, _⟩ :: opened => blocks opened + 1

theorem blocks_declare {k : ℕ} {opened opened' : List OpenScope} (h : declare? k opened = some opened') :
    blocks opened' = blocks opened := by
  cases opened with
  | nil => cases h
  | cons f opened =>
    obtain ⟨header, names⟩ := f
    rw [declare?] at h
    split at h
    · cases h
    · cases h
      cases header <;> rfl

theorem blocks_leave {opened opened' : List OpenScope} (h : leaveBlock? opened = some opened') :
    blocks opened = blocks opened' + 1 := by
  unfold leaveBlock? at h
  split at h
  · cases h
    rfl
  · cases h
    rfl
  · cases h

/-- Only braces change the number of blocks. -/
theorem blocks_step {s s' : Scoping} {t : Token} (hl : t ≠ .mark .leftBrace) (hr : t ≠ .mark .rightBrace)
    (h : s.step t = some s') : blocks s'.opened = blocks s.opened := by
  cases t with
  | word w => cases w <;> cases h <;> rfl
  | mark m =>
    cases m with
    | leftBrace => exact absurd rfl hl
    | rightBrace => exact absurd rfl hr
    | _ =>
      cases h
      rfl
  | value k =>
    rw [Scoping.step] at h
    split at h
    · obtain ⟨opened, hdeclare, rfl⟩ := Option.map_eq_some_iff.1 h
      exact blocks_declare hdeclare
    · split at h
      · cases h
        rfl
      · cases h
  | _ =>
    cases h
    rfl

theorem foldlM_braces_of_none {cs : List Char} (h : braceless cs = true) (depth : ℕ) : cs.foldlM braces depth = some depth := by
  induction cs with
  | nil => rfl
  | cons c cs ih =>
    rw [braceless, List.all_cons, Bool.and_eq_true, Bool.and_eq_true, bne_iff_ne, bne_iff_ne] at h
    obtain ⟨⟨hl, hr⟩, hcs⟩ := h
    rw [List.foldlM_cons, braces, if_neg hl, if_neg hr]
    exact ih hcs

/-- A token opens and closes as many braces as blocks. -/
theorem braces_step {s s' : Scoping} {t : Token} (ht : t.Legal) (h : s.step t = some s') :
    t.text.foldlM braces (blocks s.opened) = some (blocks s'.opened) := by
  by_cases hl : t = .mark .leftBrace
  · subst hl
    cases h
    rfl
  · by_cases hr : t = .mark .rightBrace
    · subst hr
      obtain ⟨opened, hleave, rfl⟩ := Option.map_eq_some_iff.1 h
      rw [blocks_leave hleave]
      rfl
    · rw [blocks_step hl hr h]
      exact foldlM_braces_of_none (ht.braces hl hr) _

theorem braces_line {l : Line} (hlegal : ∀ t ∈ l.tokens, t.Legal) {s s' : Scoping} (h : l.tokens.foldlM Scoping.step s = some s') :
    l.chars.foldlM braces (blocks s.opened) = some (blocks s'.opened) := by
  induction l generalizing s with
  | nil =>
    cases h
    rfl
  | cons q l ih =>
    cases q with
    | none => exact ih hlegal h
    | some t =>
      obtain ⟨ht, hlegal⟩ := List.forall_mem_cons.1 hlegal
      rw [Line.tokens, List.foldlM_cons] at h
      obtain ⟨r, hr, hrest⟩ := Option.bind_eq_some_iff.1 h
      rw [Line.chars, List.foldlM_append, braces_step ht hr]
      exact ih hlegal hrest

theorem braces_lines {lines : List String} {ls : List Line} (hls : List.Forall₂ Spells lines ls) {s s' : Scoping}
    (h : (ls.flatMap Line.tokens).foldlM Scoping.step s = some s') :
    ((lines.map (· ++ "\n")).flatMap String.toList).foldlM braces (blocks s.opened) = some (blocks s'.opened) := by
  induction hls generalizing s with
  | nil =>
    cases h
    rfl
  | cons hline _ ih =>
    rw [List.flatMap_cons, List.foldlM_append] at h
    obtain ⟨r, hr, hrest⟩ := Option.bind_eq_some_iff.1 h
    rw [List.map_cons, List.flatMap_cons, String.toList_append, hline.chars, List.append_assoc, List.foldlM_append,
      braces_line hline.legal hr]
    exact ih hrest

/-- Where scopes balance, so do the braces of the text. -/
theorem InScope.balanced {lines : List String} {ts : List Token} (hts : InScope ts) (h : Scans lines ts) :
    BracesMatch (String.join (lines.map (· ++ "\n"))).toList := by
  obtain ⟨ls, hls, rfl⟩ := h
  rw [BracesMatch, String.toList_join]
  exact braces_lines hls hts

/-! ## Instructions -/

section
variable {opened : List OpenScope}

theorem runs_literal (x : Float) : Runs opened (literalLine x).tokens opened := by
  unfold literalLine
  split
  · rfl
  · split
    · split <;> rfl
    · split <;> rfl

theorem runs_int (z : ℤ) : Runs opened (intLine z).tokens opened := by
  unfold intLine
  split <;> rfl

theorem runs_unary (op : UnaryOp) {x : ValueId} (hx : Sees opened x) : Runs opened (unaryLine op x).tokens opened := by
  cases op <;> simp [Runs, unaryLine, Line.tokens, Scoping.step, hx]

theorem runs_binary (op : BinaryOp) {a b : ValueId} (ha : Sees opened a) (hb : Sees opened b) :
    Runs opened (binaryLine op a b).tokens opened := by
  cases op <;> simp [Runs, binaryLine, Line.tokens, Scoping.step, ha, hb]

theorem runs_define {type : Word} (htype : type = .int64 ∨ type = .double) {pos : ValueId} {names : List ℕ}
    (hfresh : ¬ Sees (⟨false, names⟩ :: opened) pos) {l : Line}
    (h : Runs (⟨false, pos :: names⟩ :: opened) l.tokens (⟨false, pos :: names⟩ :: opened)) :
    Runs (⟨false, names⟩ :: opened) (defineLine type pos l).tokens (⟨false, pos :: names⟩ :: opened) := by
  have hdeclare : declare? pos (⟨false, names⟩ :: opened) = some (⟨false, pos :: names⟩ :: opened) := if_neg hfresh
  have hfront : Runs (⟨false, names⟩ :: opened) [.word type, .value pos, .mark .assign] (⟨false, pos :: names⟩ :: opened) := by
    rcases htype with rfl | rfl <;> simp [Runs, Scoping.step, hdeclare]
  rw [tokens_defineLine]
  exact hfront.append (h.append rfl)

end

/-- The scopes of a listing are those of the verifier: a block with the values it defines, and
around the body of a loop its header with the loop value. -/
inductive Mirrors : Scopes → List OpenScope → Prop
  | body (names : List ℕ) : Mirrors ⟨names, []⟩ [⟨false, names⟩]
  | loop (names : List ℕ) (v : ℕ) {inner : List ℕ} {outer : List (List ℕ)} {opened : List OpenScope}
    (h : Mirrors ⟨inner, outer⟩ opened) : Mirrors ⟨names ++ [v], inner :: outer⟩ (⟨false, names⟩ :: ⟨true, [v]⟩ :: opened)

namespace Mirrors

variable {scopes scopes' : Scopes} {opened : List OpenScope}

theorem sees_iff (h : Mirrors scopes opened) (k : ℕ) : Sees opened k ↔ scopes.Visible k := by
  induction h with
  | body names => simp [Sees, Scopes.Visible]
  | loop names v _ ih =>
    simp only [Sees, Scopes.Visible] at ih
    simp [Sees, Scopes.Visible, or_assoc, ih]

/-- The innermost scope is a block, which may define one more value. -/
theorem define (h : Mirrors scopes opened) (pos : ℕ) : ∃ names rest, opened = ⟨false, names⟩ :: rest ∧
    Mirrors (scopes.define pos) (⟨false, pos :: names⟩ :: rest) := by
  cases h with
  | body names => exact ⟨names, [], rfl, .body (pos :: names)⟩
  | loop names v h => exact ⟨names, _, rfl, .loop (pos :: names) v h⟩

theorem enter (h : Mirrors scopes opened) (pos : ℕ) : Mirrors (scopes.enter pos) (⟨false, []⟩ :: ⟨true, [pos]⟩ :: opened) :=
  .loop [] pos h

theorem leave (h : Mirrors scopes opened) (hleave : scopes.leave? = some scopes') :
    ∃ opened', leaveBlock? opened = some opened' ∧ Mirrors scopes' opened' := by
  cases h with
  | body names => cases hleave
  | loop names v h =>
    cases hleave
    exact ⟨_, rfl, h⟩

end Mirrors

/-- A plain instruction uses what is in scope, and brings its value into it. -/
theorem runs_plain {i : Instr} (hplain : i.Plain) {pos : ValueId} {names : List ℕ} {rest : List OpenScope}
    (hops : ∀ x kind, (x, kind) ∈ i.operands → Sees (⟨false, names⟩ :: rest) x)
    (hfresh : ¬ Sees (⟨false, names⟩ :: rest) pos) :
    Runs (⟨false, names⟩ :: rest) (instrTokens pos i)
      (⟨false, if i.resultKind.isSome then pos :: names else names⟩ :: rest) := by
  have hops' : ∀ x kind, (x, kind) ∈ i.operands → Sees (⟨false, pos :: names⟩ :: rest) x := by
    intro x kind hx
    obtain ⟨f, hf, hxf⟩ := hops x kind hx
    rcases List.mem_cons.1 hf with rfl | hf
    · exact ⟨_, List.mem_cons_self, List.mem_cons_of_mem pos hxf⟩
    · exact ⟨f, List.mem_cons_of_mem _ hf, hxf⟩
  cases i with
  | loop => exact hplain.elim
  | close => exact hplain.elim
  | int value =>
    rw [instrTokens_of_form rfl]
    exact runs_define (.inl rfl) hfresh (runs_int value)
  | arith op lhs rhs =>
    have hlhs := hops' lhs .int (by simp [Instr.operands])
    have hrhs := hops' rhs .int (by simp [Instr.operands])
    rw [instrTokens_of_form rfl]
    refine runs_define (.inl rfl) hfresh ?_
    cases op <;> simp [Runs, intMark, Line.tokens, Scoping.step, hlhs, hrhs]
  | load input offset =>
    have hoffset := hops' offset .int (by simp [Instr.operands])
    rw [instrTokens_of_form rfl]
    refine runs_define (.inr rfl) hfresh ?_
    simp [Runs, Line.tokens, Scoping.step, hoffset]
  | imm value =>
    rw [instrTokens_of_form rfl]
    exact runs_define (.inr rfl) hfresh (runs_literal value)
  | unary op x =>
    have hx := hops' x .float (by simp [Instr.operands])
    rw [instrTokens_of_form rfl]
    exact runs_define (.inr rfl) hfresh (runs_unary op hx)
  | binary op lhs rhs =>
    have hlhs := hops' lhs .float (by simp [Instr.operands])
    have hrhs := hops' rhs .float (by simp [Instr.operands])
    rw [instrTokens_of_form rfl]
    exact runs_define (.inr rfl) hfresh (runs_binary op hlhs hrhs)
  | store offset value =>
    have hoffset := hops offset .int (by simp [Instr.operands])
    have hvalue := hops value .float (by simp [Instr.operands])
    simp [Runs, instrTokens, instrForm, Instr.resultKind, Line.tokens, Scoping.step, hoffset, hvalue]
  | accumulate op acc x =>
    have hacc := hops acc .float (by simp [Instr.operands])
    have hx := hops x .float (by simp [Instr.operands])
    cases op <;> simp [Runs, instrTokens, instrForm, binaryLine, Instr.resultKind, Line.tokens, Scoping.step, hacc, hx]

/-- The header of a loop declares the loop value for the loop. -/
theorem runs_loop {opened : List OpenScope} {pos : ValueId} (hfresh : ¬ Sees opened pos) (range stride : ℕ) :
    Runs opened (instrTokens pos (.loop range stride)) (⟨false, []⟩ :: ⟨true, [pos]⟩ :: opened) := by
  have hfresh' : ¬ Sees (⟨true, []⟩ :: opened) pos := by
    rintro ⟨f, hf, hposf⟩
    rcases List.mem_cons.1 hf with rfl | hf
    · cases hposf
    · exact hfresh ⟨f, hf, hposf⟩
  have hdeclare : declare? pos (⟨true, []⟩ :: opened) = some (⟨true, [pos]⟩ :: opened) := if_neg hfresh'
  have hsees : Sees (⟨true, [pos]⟩ :: opened) pos := ⟨_, List.mem_cons_self, List.mem_cons_self⟩
  simp [Runs, instrTokens, instrForm, loopLine, Line.tokens, Scoping.step, hdeclare, hsees]

theorem visible_of_leave {scopes scopes' : Scopes} (h : scopes.leave? = some scopes') {v : ℕ} (hv : scopes'.Visible v) :
    scopes.Visible v := by
  obtain ⟨inner, outer⟩ := scopes
  cases outer with
  | nil => cases h
  | cons block outer =>
    cases h
    rcases hv with hv | ⟨b, hb, hv⟩
    · exact .inr ⟨block, List.mem_cons_self, hv⟩
    · exact .inr ⟨b, List.mem_cons_of_mem _ hb, hv⟩

/-- An instruction that the verifier accepts keeps the scopes of the listing and of the verifier
together. -/
theorem runs_instr {f : ℕ} {fn : Function} {pos : ℕ} {i : Instr} {scopes scopes' : Scopes} {opened : List OpenScope}
    (h : checkInstr f fn pos i scopes = .ok scopes') (hmirrors : Mirrors scopes opened) (hold : ∀ v, scopes.Visible v → v < pos) :
    ∃ opened', Runs opened (instrTokens pos i) opened' ∧ Mirrors scopes' opened' ∧ ∀ v, scopes'.Visible v → v < pos + 1 := by
  have hfresh : ¬ Sees opened pos := fun hsees => Nat.lt_irrefl pos (hold pos ((hmirrors.sees_iff pos).1 hsees))
  by_cases hplain : i.Plain
  · obtain ⟨hops, -, rfl⟩ := (checkInstr_plain_eq_ok_iff hplain).1 h
    obtain ⟨names, rest, rfl, hdefine⟩ := hmirrors.define pos
    refine ⟨_, runs_plain hplain (fun x kind hx => (hmirrors.sees_iff x).2 (hops x kind hx).2.1) hfresh, ?_, fun v hv => ?_⟩
    · unfold Instr.defineIn
      split
      · exact hdefine
      · exact hmirrors
    · rcases Instr.visible_defineIn.1 hv with ⟨rfl, -⟩ | hv
      · exact Nat.lt_succ_self _
      · exact Nat.lt_succ_of_lt (hold v hv)
  · cases i with
    | loop range stride =>
      obtain ⟨-, rfl⟩ := checkInstr_loop_eq_ok_iff.1 h
      refine ⟨_, runs_loop hfresh range stride, hmirrors.enter pos, fun v hv => ?_⟩
      rcases visible_enter.1 hv with rfl | hv
      · exact Nat.lt_succ_self _
      · exact Nat.lt_succ_of_lt (hold v hv)
    | close =>
      have hleave := checkInstr_close_eq_ok_iff.1 h
      obtain ⟨opened', hopened, hmirrors'⟩ := hmirrors.leave hleave
      refine ⟨opened', ?_, hmirrors', fun v hv => Nat.lt_succ_of_lt (hold v (visible_of_leave hleave hv))⟩
      simp [Runs, instrTokens, instrForm, Line.tokens, Scoping.step, hopened]
    | _ => exact absurd trivial hplain

/-! ## Programs -/

/-- A body that the verifier accepts ends in the block that it starts in. -/
theorem runs_body {f : ℕ} {fn : Function} {pos : ℕ} {code : List Instr} {scopes : Scopes} {opened : List OpenScope}
    (h : checkFrom f fn pos code scopes = .ok ()) (hmirrors : Mirrors scopes opened) (hold : ∀ v, scopes.Visible v → v < pos) :
    ∃ names, Runs opened (bodyTokens pos code) [⟨false, names⟩] := by
  induction code generalizing pos scopes opened with
  | nil =>
    rw [checkFrom] at h
    split at h
    · rename_i houter
      cases hmirrors with
      | body names => exact ⟨names, rfl⟩
      | loop => cases houter
    · cases h
  | cons i code ih =>
    obtain ⟨scopes', hi, hcode⟩ := checkFrom_cons_eq_ok_iff.1 h
    obtain ⟨opened', hruns, hmirrors', hold'⟩ := runs_instr hi hmirrors hold
    obtain ⟨names, hrest⟩ := ih hcode hmirrors' hold'
    exact ⟨names, hruns.append hrest⟩

theorem runs_parameters (is : List ℕ) : Runs [] (is.flatMap parameterTokens) [] := by
  induction is with
  | nil => rfl
  | cons i is ih => exact ih

theorem inScope_function {f : ℕ} {fn : Function} (h : verifyBody f fn = .ok ()) : InScope (functionTokens f fn) := by
  have hold : ∀ v, Scopes.Visible {} v → v < 0 := by
    rintro v (hv | ⟨b, hb, -⟩)
    · cases hv
    · cases hb
  rw [verifyBody_eq] at h
  obtain ⟨names, hbody⟩ := runs_body h (.body []) hold
  have hhead : Runs [] (headTokens f fn.inputs.length) [⟨false, []⟩] := (runs_parameters (List.range fn.inputs.length)).append rfl
  exact hhead.append (hbody.append rfl)

theorem runs_flatMap {α : Type} {opened : List OpenScope} {tokens : α → List Token} {as : List α}
    (h : ∀ a ∈ as, Runs opened (tokens a) opened) : Runs opened (as.flatMap tokens) opened := by
  induction as with
  | nil => rfl
  | cons a as ih =>
    obtain ⟨ha, has⟩ := List.forall_mem_cons.1 h
    exact ha.append (ih has)

theorem runs_arguments (opened : List OpenScope) (bs : List BufferId) (output : BufferId) :
    Runs opened (argumentsLine bs output).tokens opened := by
  induction bs with
  | nil => rfl
  | cons b bs ih => exact ih

/-- The tokens of a program whose bodies are accepted keep to their scopes. -/
theorem inScope_program {p : Program} (h : ∀ k fn, p.functions[k]? = some fn → verifyBody k fn = .ok ()) :
    InScope (programTokens p) := by
  have hincludes : InScope (includeForm.flatMap Line.tokens) := rfl
  have hfunctions : InScope (p.functions.zipIdx.flatMap fun q => functionTokens q.2 q.1) :=
    runs_flatMap fun q hq => inScope_function (h q.2 q.1 (List.mem_zipIdx_iff_getElem?.1 hq))
  have hopening : Runs [] (openingForm.flatMap Line.tokens) [⟨false, []⟩] := rfl
  have hcalls : Runs [⟨false, []⟩] (p.functions.zipIdx.flatMap fun q => callTokens q.2 q.1) [⟨false, []⟩] :=
    runs_flatMap fun q _ => runs_arguments [⟨false, []⟩] q.1.inputs q.1.output
  have hclosing : Runs [⟨false, []⟩] (closingForm.flatMap Line.tokens) [] := rfl
  exact (Runs.append hincludes hfunctions).append ((hopening.append hcalls).append hclosing)

end TensorLoom.Listing
