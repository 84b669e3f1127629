import TensorLoom.Except
import TensorLoom.Program.Verify
/-
# Tables and scopes

The verifier has one place in its tables for every instruction, and a loop that ends takes
the places from its header on out of scope. Proofs follow the blocks instead: `Scopes`
lists the values of every open block, and a loop that ends drops the innermost list. Both
ways of keeping scopes give the same answers (`verifyBody_eq`), since the values of a block
lie between its header and the header of the block inside it (`Stacked`).
-/

namespace TensorLoom

/-! ## Scopes by block -/

/-- The values in scope: those of the innermost block, then those of each block around it. -/
structure Scopes where
  inner : List ValueId := []
  outer : List (List ValueId) := []
deriving DecidableEq, Repr

namespace Scopes

def Visible (s : Scopes) (v : ValueId) : Prop := v ∈ s.inner ∨ ∃ block ∈ s.outer, v ∈ block

instance (s : Scopes) (v : ValueId) : Decidable (s.Visible v) :=
  inferInstanceAs (Decidable (_ ∨ _))

/-- The innermost block defines one more value. -/
def define (s : Scopes) (v : ValueId) : Scopes := { s with inner := v :: s.inner }

/-- A block is opened by the loop header `v`. -/
def enter (s : Scopes) (v : ValueId) : Scopes := ⟨[v], s.inner :: s.outer⟩

/-- The innermost block ends, and its values with it. -/
def leave? (s : Scopes) : Option Scopes :=
  match s.outer with
  | [] => none
  | block :: rest => some ⟨block, rest⟩

end Scopes

section
variable (f : Nat) (fn : Function)

/-- An operand of the instruction at `pos` is defined earlier, has the right kind and is in scope. -/
def checkOperand (pos : ValueId) (scopes : Scopes) (operand : ValueId × ValueKind) :
    Except VerifyError Unit :=
  let (v, expected) := operand
  if pos ≤ v then .error (.useBeforeDefinition f pos v)
  else if (fn.code[v]?).bind Instr.resultKind ≠ some expected then .error (.typeMismatch f pos v expected)
  else if scopes.Visible v then .ok ()
  else .error (.outOfScope f pos v)

/-- The scopes after the instruction at `pos`. -/
def checkInstr (pos : ValueId) (i : Instr) (scopes : Scopes) : Except VerifyError Scopes := do
  i.operands.forM (checkOperand f fn pos scopes)
  match i with
  | .loop range _ => if range = 0 then throw (.emptyLoop f pos) else return scopes.enter pos
  | .close =>
    match scopes.leave? with
    | none => throw (.unbalancedLoops f)
    | some s => return s
  | .load input _ =>
    if fn.inputs.length ≤ input then throw (.inputOutOfRange f pos input) else return scopes.define pos
  | _ => return if i.resultKind.isSome then scopes.define pos else scopes

/-- The instructions from `pos` on. -/
def checkFrom : (pos : ValueId) → List Instr → Scopes → Except VerifyError Unit
  | _, [], scopes => if scopes.outer = [] then .ok () else .error (.unbalancedLoops f)
  | pos, i :: code, scopes => do
    let scopes ← checkInstr f fn pos i scopes
    checkFrom (pos + 1) code scopes

end

/-! ## Marks in tables -/

namespace Tables

theorem getD_set {β : Type} {marks : Array β} {v : Nat} (hv : v < marks.size) (b d : β) (x : Nat) :
    (marks.setIfInBounds v b).getD x d = if x = v then b else marks.getD x d := by
  rw [Array.getD_eq_getD_getElem?, Array.getD_eq_getD_getElem?, Array.getElem?_setIfInBounds]
  by_cases hx : v = x
  · subst hx
    simp [hv]
  · simp [hx, Ne.symm hx]

theorem getD_clear (marks : Array Bool) (v x : Nat) :
    (marks.setIfInBounds v false).getD x false = (marks.getD x false && decide (x ≠ v)) := by
  rw [Array.getD_eq_getD_getElem?, Array.getD_eq_getD_getElem?, Array.getElem?_setIfInBounds]
  by_cases hx : v = x
  · subst hx
    by_cases hv : v < marks.size <;> simp [hv]
  · simp [hx, Ne.symm hx]

theorem size_hide (t : Tables) (v n : Nat) : (t.hide v n).visible.size = t.visible.size := by
  unfold hide
  generalize t.visible = marks
  induction n generalizing marks v with
  | zero => rfl
  | succ n ih =>
    rw [List.range'_succ, List.foldl_cons]
    simpa using ih (v + 1) (marks.setIfInBounds v false)

theorem getD_hide (t : Tables) (v n x : Nat) :
    (t.hide v n).visible.getD x false = (t.visible.getD x false && !decide (v ≤ x ∧ x < v + n)) := by
  unfold hide
  generalize t.visible = marks
  induction n generalizing marks v with
  | zero =>
    have hnone : decide (v ≤ x ∧ x < v + 0) = false := decide_eq_false (by omega)
    rw [hnone]
    simp
  | succ n ih =>
    have hsplit : (v ≤ x ∧ x < v + (n + 1)) ↔ x = v ∨ (v + 1 ≤ x ∧ x < v + 1 + n) := by omega
    have hrest := ih (v + 1) (marks.setIfInBounds v false)
    simp only at hrest
    rw [List.range'_succ, List.foldl_cons]
    simp only [hrest, getD_clear, hsplit, Bool.and_assoc]
    by_cases hx : x = v <;> simp [hx]

end Tables

/-! ## Values by block -/

/-- The values of each block lie between its header and the header of the block inside it, and
those of the innermost block before `stop`. -/
def Stacked : (inner : List ValueId) → (outer : List (List ValueId)) → (loops : List ValueId) → (stop : Nat) → Prop
  | inner, [], [], stop => ∀ v ∈ inner, v < stop
  | inner, block :: outer, header :: loops, stop =>
    header < stop ∧ (∀ v ∈ inner, header ≤ v ∧ v < stop) ∧ Stacked block outer loops header
  | _, _, _, _ => False

namespace Stacked

variable {inner block : List ValueId} {outer : List (List ValueId)} {loops : List ValueId} {header stop : Nat}

theorem outer_eq_nil (h : Stacked inner outer loops stop) : outer = [] ↔ loops = [] := by
  cases outer <;> cases loops <;> simp [Stacked] at h ⊢

theorem mono (h : Stacked inner outer loops stop) {stop' : Nat} (hle : stop ≤ stop') : Stacked inner outer loops stop' := by
  cases outer with
  | nil =>
    cases loops with
    | nil => exact fun v hv => Nat.lt_of_lt_of_le (h v hv) hle
    | cons header loops => exact h
  | cons block outer =>
    cases loops with
    | nil => exact h
    | cons header loops =>
      obtain ⟨hheader, hinner, hrest⟩ := h
      exact ⟨Nat.lt_of_lt_of_le hheader hle, fun v hv => ⟨(hinner v hv).1, Nat.lt_of_lt_of_le (hinner v hv).2 hle⟩, hrest⟩

theorem lt (h : Stacked inner outer loops stop) {v : Nat} (hv : Scopes.Visible ⟨inner, outer⟩ v) : v < stop := by
  induction outer generalizing inner loops stop with
  | nil =>
    cases loops with
    | nil => exact hv.elim (h v) fun ⟨_, hnil, _⟩ => absurd hnil List.not_mem_nil
    | cons header loops => exact h.elim
  | cons block outer ih =>
    cases loops with
    | nil => exact h.elim
    | cons header loops =>
      obtain ⟨hheader, hinner, hrest⟩ := h
      rcases hv with hv | ⟨b, hb, hvb⟩
      · exact (hinner v hv).2
      · have hvisible : Scopes.Visible ⟨block, outer⟩ v := by
          rcases List.mem_cons.1 hb with rfl | hb
          · exact .inl hvb
          · exact .inr ⟨b, hb, hvb⟩
        exact Nat.lt_trans (ih hrest hvisible) hheader

/-- What is left when the innermost block ends are the values before its header. -/
theorem visible_leave (h : Stacked inner (block :: outer) (header :: loops) stop) (v : Nat) :
    Scopes.Visible ⟨block, outer⟩ v ↔ Scopes.Visible ⟨inner, block :: outer⟩ v ∧ ¬ (header ≤ v ∧ v < stop) := by
  obtain ⟨hheader, hinner, hrest⟩ := h
  constructor
  · intro hv
    have hlt := hrest.lt hv
    refine ⟨?_, by omega⟩
    rcases hv with hv | ⟨b, hb, hvb⟩
    · exact .inr ⟨block, List.mem_cons_self, hv⟩
    · exact .inr ⟨b, List.mem_cons_of_mem _ hb, hvb⟩
  · rintro ⟨hv | ⟨b, hb, hvb⟩, hout⟩
    · exact absurd (hinner v hv) hout
    · rcases List.mem_cons.1 hb with rfl | hb
      · exact .inl hvb
      · exact .inr ⟨b, hb, hvb⟩

theorem define (h : Stacked inner outer loops stop) : Stacked (stop :: inner) outer loops (stop + 1) := by
  have h' := h.mono (Nat.le_succ stop)
  cases outer with
  | nil =>
    cases loops with
    | nil => exact List.forall_mem_cons.2 ⟨Nat.lt_succ_self stop, h'⟩
    | cons header loops => exact h'
  | cons block outer =>
    cases loops with
    | nil => exact h'
    | cons header loops =>
      exact ⟨h'.1, List.forall_mem_cons.2 ⟨⟨Nat.le_of_lt h.1, Nat.lt_succ_self stop⟩, h'.2.1⟩, h'.2.2⟩

end Stacked

/-! ## The two verifiers -/

/-- The tables before the instruction at `pos` show the values of the scopes. -/
structure Tables.Shows (fn : Function) (t : Tables) (pos : Nat) (scopes : Scopes) : Prop where
  kinds_size : t.kinds.size = fn.code.length
  visible_size : t.visible.size = fn.code.length
  kinds : ∀ v, t.kinds.getD v none = if v < pos then (fn.code[v]?).bind Instr.resultKind else none
  visible : ∀ v, t.visible.getD v false = true ↔ scopes.Visible v
  stacked : Stacked scopes.inner scopes.outer t.loops pos

namespace Tables.Shows

variable {f : Nat} {fn : Function} {t : Tables} {pos : Nat} {scopes : Scopes} {i : Instr}

theorem start (fn : Function) : (Tables.start fn.code.length).Shows fn 0 {} where
  kinds_size := Array.size_replicate
  visible_size := Array.size_replicate
  kinds v := by
    rw [if_neg (Nat.not_lt_zero v), Tables.start, Array.getD_eq_getD_getElem?, Array.getElem?_replicate]
    split <;> rfl
  visible v := by
    rw [Tables.start, Array.getD_eq_getD_getElem?, Array.getElem?_replicate]
    split <;> simp [Scopes.Visible]
  stacked := fun _ hv => absurd hv List.not_mem_nil

theorem operand (h : t.Shows fn pos scopes) (o : ValueId × ValueKind) :
    verifyOperand f pos t o = checkOperand f fn pos scopes o := by
  obtain ⟨v, expected⟩ := o
  unfold verifyOperand checkOperand
  by_cases hv : pos ≤ v
  · simp [hv]
  · have hvisible := h.visible v
    have hkind : t.kinds.getD v none = (fn.code[v]?).bind Instr.resultKind := by
      rw [h.kinds, if_pos (Nat.lt_of_not_le hv)]
    simp only [hv, if_false, hkind]
    by_cases hscope : scopes.Visible v
    · simp [hscope, hvisible.2 hscope]
    · simp [hscope, Bool.eq_false_iff.2 (mt hvisible.1 hscope)]

/-- The kinds are known up to the next instruction, once the one at `pos` has its own. -/
theorem kinds_succ (h : t.Shows fn pos scopes) (hi : fn.code[pos]? = some i) {kinds : Array (Option ValueKind)}
    (hkinds : ∀ v, kinds.getD v none = if v = pos then i.resultKind else t.kinds.getD v none) (v : Nat) :
    kinds.getD v none = if v < pos + 1 then (fn.code[v]?).bind Instr.resultKind else none := by
  rw [hkinds, h.kinds]
  by_cases hv : v = pos
  · subst hv
    simp [hi]
  · have hlt : v < pos + 1 ↔ v < pos := by omega
    simp only [hv, hlt, if_false]

/-- The value of the instruction at `pos` comes into scope, in the scopes that follow. -/
theorem define (h : t.Shows fn pos scopes) (hi : fn.code[pos]? = some i) {kind : ValueKind} (hkind : i.resultKind = some kind)
    {loops : List ValueId} {scopes' : Scopes} (hvisible : ∀ v, scopes'.Visible v ↔ v = pos ∨ scopes.Visible v)
    (hstacked : Stacked scopes'.inner scopes'.outer loops (pos + 1)) :
    ({ t with loops := loops }.define pos kind).Shows fn (pos + 1) scopes' := by
  have hlt : pos < fn.code.length := (List.getElem?_eq_some_iff.1 hi).1
  refine ⟨by simpa [Tables.define] using h.kinds_size, by simpa [Tables.define] using h.visible_size,
    h.kinds_succ hi fun v => ?_, fun v => ?_, hstacked⟩
  · rw [hkind]
    exact getD_set (h.kinds_size ▸ hlt) ..
  · show (t.visible.setIfInBounds pos true).getD v false = true ↔ _
    rw [getD_set (h.visible_size ▸ hlt), hvisible]
    by_cases hv : v = pos
    · simp [hv]
    · rw [if_neg hv, h.visible v]
      simp [hv]

/-- An instruction without a value leaves its place empty. -/
theorem kinds_pass (h : t.Shows fn pos scopes) (hi : fn.code[pos]? = some i) (hkind : i.resultKind = none) (v : Nat) :
    t.kinds.getD v none = if v < pos + 1 then (fn.code[v]?).bind Instr.resultKind else none := by
  refine h.kinds_succ hi (fun v => ?_) v
  split
  · rename_i hv
    rw [hkind, hv, h.kinds, if_neg (Nat.lt_irrefl pos)]
  · rfl

theorem pass (h : t.Shows fn pos scopes) (hi : fn.code[pos]? = some i) (hkind : i.resultKind = none) :
    t.Shows fn (pos + 1) scopes :=
  ⟨h.kinds_size, h.visible_size, h.kinds_pass hi hkind, h.visible, h.stacked.mono (Nat.le_succ pos)⟩

/-- A loop opens a block that holds its counter. -/
theorem enter (h : t.Shows fn pos scopes) {range stride : Nat} (hi : fn.code[pos]? = some (.loop range stride)) :
    ({ t with loops := pos :: t.loops }.define pos .int).Shows fn (pos + 1) (scopes.enter pos) := by
  refine h.define hi rfl (fun v => by simp [Scopes.Visible, Scopes.enter]) ?_
  refine ⟨Nat.lt_succ_self pos, fun v hv => ?_, h.stacked⟩
  obtain rfl := List.mem_singleton.1 hv
  exact ⟨Nat.le_refl v, Nat.lt_succ_self v⟩

/-- The end of a loop hides the values of its block, which are those from the header on. -/
theorem leave {kinds : Array (Option ValueKind)} {visible : Array Bool} {header : Nat} {loops inner block : List ValueId}
    {outer : List (List ValueId)} (h : Tables.Shows fn ⟨kinds, visible, header :: loops⟩ pos ⟨inner, block :: outer⟩)
    (hi : fn.code[pos]? = some .close) :
    ((Tables.mk kinds visible loops).hide header (pos - header)).Shows fn (pos + 1) ⟨block, outer⟩ := by
  have hstacked : Stacked inner (block :: outer) (header :: loops) pos := h.stacked
  have hheader : header < pos := hstacked.1
  have hrange : ∀ v, (header ≤ v ∧ v < header + (pos - header)) ↔ header ≤ v ∧ v < pos := by
    intro v
    rw [Nat.add_sub_cancel' (Nat.le_of_lt hheader)]
  refine ⟨h.kinds_size, (size_hide ..).trans h.visible_size, h.kinds_pass hi rfl, fun v => ?_, ?_⟩
  · rw [hstacked.visible_leave v, ← h.visible v, getD_hide, Bool.and_eq_true, Bool.not_eq_true', decide_eq_false_iff_not, hrange]
  · exact hstacked.2.2.mono (Nat.le_succ_of_le (Nat.le_of_lt hheader))

/-- The two verifiers answer alike for the instruction at `pos`, and the tables show what follows. -/
theorem step (h : t.Shows fn pos scopes) (hi : fn.code[pos]? = some i) :
    (∃ e, verifyInstr f fn pos i t = .error e ∧ checkInstr f fn pos i scopes = .error e) ∨
      ∃ t' scopes', verifyInstr f fn pos i t = .ok t' ∧ checkInstr f fn pos i scopes = .ok scopes' ∧
        t'.Shows fn (pos + 1) scopes' := by
  unfold verifyInstr checkInstr
  have hoperands : verifyOperand f pos t = checkOperand f fn pos scopes := funext h.operand
  rw [hoperands]
  cases hops : i.operands.forM (checkOperand f fn pos scopes) with
  | error e => exact .inl ⟨e, rfl, rfl⟩
  | ok =>
    have hdefine : ∀ {kind : ValueKind}, i.resultKind = some kind →
        (t.define pos kind).Shows fn (pos + 1) (scopes.define pos) := fun hkind =>
      h.define hi hkind (fun v => by simp [Scopes.Visible, Scopes.define, or_assoc]) h.stacked.define
    cases i with
    | int value => exact .inr ⟨_, _, rfl, rfl, hdefine rfl⟩
    | arith op lhs rhs => exact .inr ⟨_, _, rfl, rfl, hdefine rfl⟩
    | imm value => exact .inr ⟨_, _, rfl, rfl, hdefine rfl⟩
    | unary op x => exact .inr ⟨_, _, rfl, rfl, hdefine rfl⟩
    | binary op lhs rhs => exact .inr ⟨_, _, rfl, rfl, hdefine rfl⟩
    | store offset value => exact .inr ⟨_, _, rfl, rfl, h.pass hi rfl⟩
    | accumulate op acc x => exact .inr ⟨_, _, rfl, rfl, h.pass hi rfl⟩
    | load input offset =>
      by_cases hinput : fn.inputs.length ≤ input
      · refine .inl ⟨.inputOutOfRange f pos input, ?_, ?_⟩ <;>
          simp [verifyLoops, hinput, bind, Except.bind, throw, throwThe, MonadExceptOf.throw]
      · refine .inr ⟨t.define pos .float, scopes.define pos, ?_, ?_, hdefine rfl⟩ <;>
          simp [verifyLoops, hinput, Instr.resultKind, bind, Except.bind, pure, Except.pure]
    | loop range stride =>
      by_cases hrange : range = 0
      · refine .inl ⟨.emptyLoop f pos, ?_, ?_⟩ <;>
          simp [verifyLoops, hrange, bind, Except.bind, throw, throwThe, MonadExceptOf.throw]
      · refine .inr ⟨_, _, ?_, ?_, h.enter hi⟩ <;>
          simp [verifyLoops, hrange, Instr.resultKind, bind, Except.bind, pure, Except.pure]
    | close =>
      obtain ⟨inner, outer⟩ := scopes
      obtain ⟨kinds, visible, loops⟩ := t
      have hstacked : Stacked inner outer loops pos := h.stacked
      cases outer with
      | nil =>
        obtain rfl : loops = [] := hstacked.outer_eq_nil.1 rfl
        exact .inl ⟨_, rfl, rfl⟩
      | cons block outer =>
        cases loops with
        | nil => exact hstacked.elim
        | cons header loops => exact .inr ⟨_, _, rfl, rfl, h.leave hi⟩

end Tables.Shows

theorem verifyFrom_eq {f : Nat} {fn : Function} {before code : List Instr} (hcode : fn.code = before ++ code) {t : Tables}
    {scopes : Scopes} (h : t.Shows fn before.length scopes) :
    verifyFrom f fn before.length code t = checkFrom f fn before.length code scopes := by
  induction code generalizing before t scopes with
  | nil => simp only [verifyFrom, checkFrom, h.stacked.outer_eq_nil]
  | cons i code ih =>
    rw [verifyFrom, checkFrom]
    have hi : fn.code[before.length]? = some i := by simp [hcode]
    rcases h.step (f := f) hi with ⟨e, hverify, hcheck⟩ | ⟨t', scopes', hverify, hcheck, h'⟩
    · rw [hverify, hcheck]
      rfl
    · rw [hverify, hcheck]
      have hlength : (before ++ [i]).length = before.length + 1 := List.length_append
      have hcode' : fn.code = (before ++ [i]) ++ code := by simp [hcode]
      have hrest := ih hcode' (hlength ▸ h')
      rwa [hlength] at hrest

/-- Both verifiers answer alike for a whole body. -/
theorem verifyBody_eq (f : Nat) (fn : Function) : verifyBody f fn = checkFrom f fn 0 fn.code {} := by
  have hcode : fn.code = [] ++ fn.code := rfl
  exact verifyFrom_eq hcode (.start fn)

end TensorLoom
