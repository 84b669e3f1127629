import Mathlib.Data.List.Forall2
import TensorLoom.Proofs.Machine.Lockstep
import TensorLoom.Proofs.Program.Valid
/-
# Verified programs run safely

A verified program fails only on its data: an integer operation without a result, or an
offset outside its cell. Registers, inputs and buffers are always there, loops are always
closed, and no instruction reads a register that the current turn of the loop around its
definition has not written; so what the registers hold at first does not matter
(`Program.run_safe`).
-/

namespace TensorLoom

/-- The faults of data: the operands of an integer operation, or an offset. -/
def Fault.OfData (e : Fault) : Prop := e = .overflow ∨ e = .division ∨ e = .element

theorem Word.exact_matches (z : Int) : Matches Fault.OfData Eq (Word.exact z) (Word.exact z) := by
  unfold Word.exact
  split
  · exact .ok rfl
  · exact .fault (.inl rfl)

theorem IntOp.eval_matches (op : IntOp) (a b : Int) : Matches Fault.OfData Eq (op.eval a b) (op.eval a b) := by
  cases op with
  | add => exact Word.exact_matches _
  | sub => exact Word.exact_matches _
  | mul => exact Word.exact_matches _
  | div =>
    rw [IntOp.eval]
    split
    · exact .fault (.inr (.inl rfl))
    · exact Word.exact_matches _
  | mod =>
    rw [IntOp.eval]
    split
    · exact .fault (.inr (.inl rfl))
    · exact (Word.exact_matches _).bind fun _ _ _ => .ok rfl

/-! ## Registers that scopes show -/

/-- The function's cells lie in a memory of `n` cells. -/
structure Wiring.Within (w : Wiring) (fn : Function) (n : Nat) : Prop where
  inputs : w.inputs.length = fn.inputs.length
  input_lt : ∀ c ∈ w.inputs, c < n
  output_lt : w.output < n

/-- One register of each kind for each instruction, and a memory of `n` cells. -/
structure Frame.Sized {α : Type} (fn : Function) (n : Nat) (s : Frame α) : Prop where
  ints : s.ints.size = fn.code.length
  floats : s.floats.size = fn.code.length
  memory : s.memory.size = n

/-- The memories are the same, and so are the registers that the scopes show. -/
structure Frame.Agrees {α : Type} (fn : Function) (n : Nat) (scopes : Scopes) (s t : Frame α) : Prop where
  left : s.Sized fn n
  right : t.Sized fn n
  memory : s.memory = t.memory
  ints : ∀ {x : Nat}, fn.InScope scopes x .int → s.ints[x]? = t.ints[x]?
  floats : ∀ {x : Nat}, fn.InScope scopes x .float → s.floats[x]? = t.floats[x]?

theorem Function.InScope.lt {fn : Function} {scopes : Scopes} {x : Nat} {kind : ValueKind} (h : fn.InScope scopes x kind) :
    x < fn.code.length := by
  refine Nat.lt_of_not_le fun hle => ?_
  have hkind := h.2
  rw [List.getElem?_eq_none hle] at hkind
  cases hkind

namespace Frame.Agrees

variable {α : Type} {fn : Function} {n : Nat} {scopes : Scopes} {s t : Frame α} {P : Fault → Prop}

theorem refl (h : s.Sized fn n) (scopes : Scopes) : s.Agrees fn n scopes s :=
  ⟨h, h, rfl, fun _ => rfl, fun _ => rfl⟩

theorem mono {scopes' : Scopes} (h : s.Agrees fn n scopes t) (hscopes : ∀ x : Nat, scopes'.Visible x → scopes.Visible x) :
    s.Agrees fn n scopes' t :=
  ⟨h.left, h.right, h.memory, fun hx => h.ints ⟨hscopes _ hx.1, hx.2⟩, fun hx => h.floats ⟨hscopes _ hx.1, hx.2⟩⟩

theorem int (h : s.Agrees fn n scopes t) {x : Nat} (hx : fn.InScope scopes x .int) : Matches P Eq (s.int x) (t.int x) := by
  have hlt : x < t.ints.size := h.right.ints ▸ hx.lt
  rw [Frame.int, Frame.int, h.ints hx, Array.getElem?_eq_getElem hlt]
  exact .ok rfl

theorem float (h : s.Agrees fn n scopes t) {x : Nat} (hx : fn.InScope scopes x .float) :
    Matches P Eq (s.float x) (t.float x) := by
  have hlt : x < t.floats.size := h.right.floats ▸ hx.lt
  rw [Frame.float, Frame.float, h.floats hx, Array.getElem?_eq_getElem hlt]
  exact .ok rfl

/-- A register that is written on both sides comes into scope. -/
theorem setInt (h : s.Agrees fn n scopes t) {pos : Nat} (hpos : pos < fn.code.length) (z : Int) {scopes' : Scopes}
    (hnew : ∀ x kind, fn.InScope scopes' x kind → fn.InScope scopes x kind ∨ (x = pos ∧ kind = .int)) :
    Matches P (Agrees fn n scopes') (s.setInt pos z) (t.setInt pos z) := by
  rw [Frame.setInt, Frame.setInt, if_pos (h.left.ints ▸ hpos), if_pos (h.right.ints ▸ hpos)]
  refine .ok ⟨⟨by simp [h.left.ints], h.left.floats, h.left.memory⟩, ⟨by simp [h.right.ints], h.right.floats, h.right.memory⟩,
    h.memory, fun {x} hx => ?_, fun {x} hx => ?_⟩
  · by_cases hxp : pos = x
    · simp [hxp.symm, h.left.ints, h.right.ints, hpos]
    · rcases hnew x _ hx with hx | ⟨rfl, -⟩
      · simpa [Array.getElem?_setIfInBounds_ne hxp] using h.ints hx
      · exact absurd rfl hxp
  · rcases hnew x _ hx with hx | ⟨-, hkind⟩
    · exact h.floats hx
    · cases hkind

theorem setFloat (h : s.Agrees fn n scopes t) {pos : Nat} (hpos : pos < fn.code.length) (a : α) {scopes' : Scopes}
    (hnew : ∀ x kind, fn.InScope scopes' x kind → fn.InScope scopes x kind ∨ (x = pos ∧ kind = .float)) :
    Matches P (Agrees fn n scopes') (s.setFloat pos a) (t.setFloat pos a) := by
  rw [Frame.setFloat, Frame.setFloat, if_pos (h.left.floats ▸ hpos), if_pos (h.right.floats ▸ hpos)]
  refine .ok ⟨⟨h.left.ints, by simp [h.left.floats], h.left.memory⟩, ⟨h.right.ints, by simp [h.right.floats], h.right.memory⟩,
    h.memory, fun {x} hx => ?_, fun {x} hx => ?_⟩
  · rcases hnew x _ hx with hx | ⟨-, hkind⟩
    · exact h.ints hx
    · cases hkind
  · by_cases hxp : pos = x
    · simp [hxp.symm, h.left.floats, h.right.floats, hpos]
    · rcases hnew x _ hx with hx | ⟨rfl, -⟩
      · simpa [Array.getElem?_setIfInBounds_ne hxp] using h.floats hx
      · exact absurd rfl hxp

theorem read (h : s.Agrees fn n scopes t) {cell : Nat} (hcell : cell < n) (k : Int) :
    Matches Fault.OfData Eq (s.read cell k) (t.read cell k) := by
  rw [Frame.read, Frame.read, h.memory, Array.getElem?_eq_getElem (h.right.memory ▸ hcell)]
  simp only [elementAt]
  split
  · exact .fault (.inr (.inr rfl))
  · split
    · exact .ok rfl
    · exact .fault (.inr (.inr rfl))

theorem write (h : s.Agrees fn n scopes t) {cell : Nat} (hcell : cell < n) (k : Int) (a : α) :
    Matches Fault.OfData (Agrees fn n scopes) (s.write cell k a) (t.write cell k a) := by
  rw [Frame.write, Frame.write, h.memory, Array.getElem?_eq_getElem (h.right.memory ▸ hcell)]
  simp only
  split
  · exact .fault (.inr (.inr rfl))
  · exact .ok ⟨⟨h.left.ints, h.left.floats, by simp [h.right.memory]⟩, ⟨h.right.ints, h.right.floats, by simp [h.right.memory]⟩,
      rfl, h.ints, h.floats⟩

/-- One instruction with its operands in scope. -/
theorem act (h : s.Agrees fn n scopes t) (A : Arith α) {w : Wiring} (hw : w.Within fn n) {pos : Nat} {i : Instr}
    (hplain : i.Plain) (hi : fn.code[pos]? = some i)
    (hops : ∀ x kind, (x, kind) ∈ i.operands → fn.InScope scopes x kind)
    (hload : ∀ n offset, i = .load n offset → n < fn.inputs.length) :
    Matches Fault.OfData (Agrees fn n (i.defineIn pos scopes)) (TensorLoom.act A w pos i s) (TensorLoom.act A w pos i t) := by
  have hpos : pos < fn.code.length := (List.getElem?_eq_some_iff.1 hi).1
  have hnew : ∀ {kind'}, i.resultKind = some kind' → ∀ x kind, fn.InScope (i.defineIn pos scopes) x kind →
      fn.InScope scopes x kind ∨ (x = pos ∧ kind = kind') := by
    intro kind' hkind x kind hx
    rcases (inScope_defineIn hi).1 hx with hx | ⟨hx, hkind'⟩
    · exact .inl hx
    · exact .inr ⟨hx, Option.some.inj (hkind'.symm.trans hkind)⟩
  cases i with
  | loop => exact hplain.elim
  | close => exact hplain.elim
  | int value => exact h.setInt hpos value (hnew rfl)
  | arith op lhs rhs =>
    refine (h.int (hops lhs .int (by simp [Instr.operands]))).bind ?_
    rintro a _ rfl
    refine (h.int (hops rhs .int (by simp [Instr.operands]))).bind ?_
    rintro b _ rfl
    refine (op.eval_matches a b).bind ?_
    rintro z _ rfl
    exact h.setInt hpos z (hnew rfl)
  | load input offset =>
    have hlt : input < w.inputs.length := hw.inputs ▸ hload input offset rfl
    simp only [TensorLoom.act, List.getElem?_eq_getElem hlt]
    refine (h.int (hops offset .int (by simp [Instr.operands]))).bind ?_
    rintro k _ rfl
    refine (h.read (hw.input_lt _ (List.getElem_mem hlt)) k).bind ?_
    rintro a _ rfl
    exact h.setFloat hpos a (hnew rfl)
  | store offset value =>
    refine (h.int (hops offset .int (by simp [Instr.operands]))).bind ?_
    rintro k _ rfl
    refine (h.float (hops value .float (by simp [Instr.operands]))).bind ?_
    rintro a _ rfl
    exact h.write hw.output_lt k a
  | imm value => exact h.setFloat hpos (A.lit value) (hnew rfl)
  | unary op x =>
    refine (h.float (hops x .float (by simp [Instr.operands]))).bind ?_
    rintro a _ rfl
    exact h.setFloat hpos (A.unary op a) (hnew rfl)
  | binary op lhs rhs =>
    refine (h.float (hops lhs .float (by simp [Instr.operands]))).bind ?_
    rintro a _ rfl
    refine (h.float (hops rhs .float (by simp [Instr.operands]))).bind ?_
    rintro b _ rfl
    exact h.setFloat hpos (A.binary op a b) (hnew rfl)
  | accumulate op acc x =>
    have hacc := hops acc .float (by simp [Instr.operands])
    refine (h.float hacc).bind ?_
    rintro total _ rfl
    refine (h.float (hops x .float (by simp [Instr.operands]))).bind ?_
    rintro a _ rfl
    exact h.setFloat hacc.lt (A.fold op total a) fun y kind hy => .inl hy

/-- The start of a turn. -/
theorem turn (h : s.Agrees fn n scopes t) {pos range stride : Nat} (hi : fn.code[pos]? = some (.loop range stride)) (k : Nat) :
    Matches Fault.OfData (Agrees fn n (scopes.enter pos)) (TensorLoom.turn pos k s) (TensorLoom.turn pos k t) :=
  h.setInt (List.getElem?_eq_some_iff.1 hi).1 _ fun _ _ hx => (inScope_enter hi).1 hx

end Frame.Agrees

/-! ## Stores -/

section
variable {α : Type} (A : Arith α) (w : Wiring)

/-- The stores of a run up to its end or its first fault (cell, offset and element, in order),
and how it ended. -/
structure Recording (α β : Type) where
  stores : List (Nat × Int × α)
  outcome : Except Fault β

/-- A run goes on where it has not faulted. -/
def Recording.andThen {β γ : Type} (r : Recording α β) (f : β → Recording α γ) : Recording α γ :=
  match r.outcome with
  | .error e => ⟨r.stores, .error e⟩
  | .ok b => ⟨r.stores ++ (f b).stores, (f b).outcome⟩

/-- A step that stores nothing. -/
def Recording.silent {β : Type} (x : Except Fault β) : Recording α β := ⟨[], x⟩

/-- The store that an instruction performs. -/
def Instr.stored (s : Frame α) : Instr → List (Nat × Int × α)
  | .store offset value =>
    match s.int offset, s.float value with
    | .ok k, .ok a => [(w.output, k, a)]
    | _, _ => []
  | _ => []

/-- One instruction, with its store if it goes through. -/
def recordAct (pos : Nat) (i : Instr) (s : Frame α) : Recording α (Frame α) :=
  match act A w pos i s with
  | .error e => ⟨[], .error e⟩
  | .ok s' => ⟨i.stored w s, .ok s'⟩

/-- The machine, with its stores listed. -/
def Interpretation.recorder : Interpretation (Recording α (Frame α)) where
  act pos i r := .ok (r.andThen (recordAct A w pos i))
  enter pos k r := .ok (r.andThen fun s => .silent (turn pos k s))
  leave := .ok

/-- Walks a body from the given registers. -/
def recordBody (code : List Instr) (s : Frame α) : Recording α (Frame α) :=
  match walk (Interpretation.recorder A w).act (Interpretation.recorder A w).enter code.length 0 code (.silent (.ok s)) with
  | .error e => .silent (.error e)
  | .ok r => r

/-- Contents of the two register files. -/
structure Registers (α : Type) where
  ints : Array Int
  floats : Array α

/-- Runs a function from the given registers. -/
def Function.record (fn : Function) (registers : Registers α) (cells : List Nat) (memory : Memory α) :
    Recording α (Memory α) :=
  (Recording.silent (fn.inputs.mapM (cellOf cells))).andThen fun inputs =>
    (Recording.silent (cellOf cells fn.output)).andThen fun output =>
      (recordBody A ⟨inputs, output⟩ fn.code ⟨registers.ints, registers.floats, memory⟩).andThen fun s =>
        .silent (.ok s.memory)

/-- Runs functions in order, each from registers of its own. -/
def recordFunctions (cells : List Nat) : List (Function × Registers α) → Memory α → Recording α (Memory α)
  | [], memory => .silent (.ok memory)
  | (fn, registers) :: rest, memory => (fn.record A registers cells memory).andThen (recordFunctions cells rest)

/-- The registers have the size a function asks for. -/
structure Registers.Fit (fn : Function) (registers : Registers α) : Prop where
  ints : registers.ints.size = fn.code.length
  floats : registers.floats.size = fn.code.length

theorem Recording.outcome_andThen {β γ : Type} (r : Recording α β) (f : β → Recording α γ) :
    (r.andThen f).outcome = r.outcome >>= fun b => (f b).outcome := by
  unfold andThen
  cases r.outcome <;> rfl

theorem outcome_recordAct (pos : Nat) (i : Instr) (s : Frame α) : (recordAct A w pos i s).outcome = act A w pos i s := by
  unfold recordAct
  cases act A w pos i s <;> rfl

/-- The step takes recordings on as `plain` takes on their outcomes. -/
def Recording.Follows {γ : Type} (step : Recording γ (Frame α) → Except Fault (Recording γ (Frame α)))
    (plain : Frame α → Except Fault (Frame α)) : Prop :=
  ∀ r, ∃ r', step r = .ok r' ∧ r'.outcome = r.outcome >>= plain

namespace Recording.Follows

variable {γ : Type}

theorem done : Follows (α := α) (γ := γ) .ok .ok := fun r => ⟨r, rfl, (bind_pure _).symm⟩

theorem andThen {f : Frame α → Recording γ (Frame α)} {g : Frame α → Except Fault (Frame α)} (h : ∀ s, (f s).outcome = g s) :
    Follows (fun r => .ok (r.andThen f)) g := by
  intro r
  refine ⟨_, rfl, ?_⟩
  rw [outcome_andThen]
  simp only [h]

theorem bind {f g : Recording γ (Frame α) → Except Fault (Recording γ (Frame α))}
    {f' g' : Frame α → Except Fault (Frame α)} (hf : Follows f f') (hg : Follows g g') :
    Follows (fun r => f r >>= g) (fun s => f' s >>= g') := by
  intro r
  obtain ⟨r₁, h₁, hout₁⟩ := hf r
  obtain ⟨r₂, h₂, hout₂⟩ := hg r₁
  refine ⟨r₂, ?_, ?_⟩
  · simp only [h₁]
    exact h₂
  · rw [hout₂, hout₁, bind_assoc]

theorem turns {f : Nat → Recording γ (Frame α) → Except Fault (Recording γ (Frame α))}
    {f' : Nat → Frame α → Except Fault (Frame α)} (h : ∀ k, Follows (f k) (f' k)) (n k : Nat) :
    Follows (TensorLoom.turns f n k) (TensorLoom.turns f' n k) := by
  induction n generalizing k with
  | zero => exact done
  | succ n ih => exact (h k).bind (ih (k + 1))

/-- An interpretation that follows the machine at every instruction follows it through blocks. -/
theorem visit {r : Interpretation (Recording γ (Frame α))} (hact : ∀ pos i, Follows (r.act pos i) (act A w pos i))
    (henter : ∀ pos k, Follows (r.enter pos k) (turn pos k)) (hleave : r.leave = .ok) (b : Block) (pos : Nat) :
    Follows (b.visit r pos) (b.visit (.machine A w) pos) := by
  induction b generalizing pos with
  | done => exact .done
  | plain i hplain rest ih => exact (hact pos i).bind (ih (pos + 1))
  | loop range stride hrange body rest ihbody ihrest =>
    have hturn : ∀ k, Follows (fun s => r.enter pos k s >>= body.visit r (pos + 1) >>= r.leave)
        (fun s => (Interpretation.machine A w).enter pos k s >>= body.visit (.machine A w) (pos + 1) >>= .ok) := by
      intro k
      rw [hleave]
      exact ((henter pos k).bind (ihbody (pos + 1))).bind .done
    exact (Follows.turns hturn range 0).bind (ihrest (pos + 1 + body.flatten.length + 1))

end Recording.Follows

/-- Listing the stores changes nothing else. -/
theorem Block.visit_recorder (b : Block) (pos : Nat) :
    Recording.Follows (b.visit (.recorder A w) pos) (b.visit (.machine A w) pos) :=
  .visit A w (fun pos i => .andThen (outcome_recordAct A w pos i)) (fun _ _ => .andThen fun _ => rfl) rfl b pos

theorem recordBody_flatten (b : Block) (s : Frame α) :
    b.visit (.recorder A w) 0 (.silent (.ok s)) = .ok (recordBody A w b.flatten s) ∧
      (recordBody A w b.flatten s).outcome = runBody A w b.flatten s := by
  obtain ⟨r, hr, hout⟩ := b.visit_recorder A w 0 (.silent (.ok s))
  have hbody : recordBody A w b.flatten s = r := by
    rw [recordBody, b.walk_flatten (.recorder A w) rfl (Nat.le_refl _), hr]
  rw [hbody, runBody_flatten]
  exact ⟨hr, hout⟩

/-- The stores listed so far are the same, and so is what is to come. -/
def Recording.Agrees (fn : Function) (n : Nat) (scopes : Scopes) (r q : Recording α (Frame α)) : Prop :=
  r.stores = q.stores ∧ Matches Fault.OfData (Frame.Agrees fn n scopes) r.outcome q.outcome

theorem Recording.Agrees.andThen {fn : Function} {n : Nat} {scopes scopes' : Scopes} {r q : Recording α (Frame α)}
    (h : r.Agrees fn n scopes q) {f : Frame α → Recording α (Frame α)}
    (hf : ∀ s t, s.Agrees fn n scopes t → (f s).Agrees fn n scopes' (f t)) :
    (r.andThen f).Agrees fn n scopes' (q.andThen f) := by
  obtain ⟨stores, x⟩ := r
  obtain ⟨stores', y⟩ := q
  obtain ⟨hstores, hout⟩ := h
  simp only at hstores hout
  subst hstores
  cases hout with
  | ok hst =>
    obtain ⟨hnew, hout'⟩ := hf _ _ hst
    exact ⟨congrArg (stores ++ ·) hnew, hout'⟩
  | fault he => exact ⟨rfl, .fault he⟩

/-- What is left of a run when its registers are dropped. -/
theorem Recording.Agrees.drop {fn : Function} {n : Nat} {scopes : Scopes} {r q : Recording α (Frame α)}
    (h : r.Agrees fn n scopes q) :
    (r.andThen fun s => .silent (.ok s.memory)) = (q.andThen fun s => .silent (.ok s.memory)) ∧
      (∀ e, (q.andThen fun s => .silent (.ok s.memory)).outcome = .error e → e.OfData) ∧
      ∀ m, (q.andThen fun s => .silent (.ok s.memory)).outcome = .ok m → m.size = n := by
  obtain ⟨stores, x⟩ := r
  obtain ⟨stores', y⟩ := q
  obtain ⟨hstores, hout⟩ := h
  simp only at hstores hout
  subst hstores
  cases hout with
  | ok hst =>
    refine ⟨by simp [Recording.andThen, hst.memory], nofun, ?_⟩
    rintro _ ⟨⟩
    exact hst.right.memory
  | fault he =>
    refine ⟨rfl, ?_, nofun⟩
    rintro _ ⟨⟩
    exact he

theorem recordAct_agrees {fn : Function} {n : Nat} (hw : w.Within fn n) {pos : Nat} {i : Instr} {scopes : Scopes}
    (hplain : i.Plain) (hi : fn.code[pos]? = some i)
    (hops : ∀ x kind, (x, kind) ∈ i.operands → fn.InScope scopes x kind)
    (hload : ∀ n offset, i = .load n offset → n < fn.inputs.length) {s t : Frame α} (h : s.Agrees fn n scopes t) :
    (recordAct A w pos i s).Agrees fn n (i.defineIn pos scopes) (recordAct A w pos i t) := by
  have hstored : i.stored w s = i.stored w t := by
    cases i with
    | store offset value =>
      have hint := (h.int (P := Fault.OfData) (hops offset .int (by simp [Instr.operands]))).eq
      have hfloat := (h.float (P := Fault.OfData) (hops value .float (by simp [Instr.operands]))).eq
      simp only [Instr.stored, hint, hfloat]
    | _ => rfl
  have hact := h.act A hw hplain hi hops hload
  unfold recordAct
  generalize act A w pos i s = x at hact ⊢
  generalize act A w pos i t = y at hact ⊢
  cases hact with
  | ok hst => exact ⟨hstored, .ok hst⟩
  | fault he => exact ⟨rfl, .fault he⟩

/-- Whatever the registers hold at first, the same stores are performed. -/
theorem recorder_lockstep {fn : Function} {n : Nat} (hw : w.Within fn n) :
    Lockstep fn Fault.OfData (Recording.Agrees (α := α) fn n) (.recorder A w) (.recorder A w) where
  act hplain hi hops hload h := .ok (h.andThen fun _ _ hst => recordAct_agrees A w hw hplain hi hops hload hst)
  enter hi h := .ok (h.andThen fun _ _ hst => ⟨rfl, hst.turn hi _⟩)
  leave houter h := .ok ⟨h.1, h.2.mono fun hst => hst.mono fun x hx => by
    rcases hx with hx | hx <;> simp [Scopes.Visible, houter, hx]⟩

end

/-! ## Activations -/

section
variable {α : Type} (A : Arith α) (w : Wiring)

/-- A frame, and the registers written so far by the current turn of each open loop and by the
code around all loops. -/
structure Tracked (α : Type) where
  frame : Frame α
  written : Scopes

/-- The machine, made to fault where an instruction reads a register that is not among those
written. A turn starts with its header alone and takes what it has written with it. -/
def Interpretation.tracker : Interpretation (Tracked α) where
  act pos i t :=
    if i.operands.all fun (x, _) => t.written.Visible x then
      (TensorLoom.act A w pos i t.frame).map fun s => ⟨s, i.defineIn pos t.written⟩
    else .error .register
  enter pos k t := (turn pos k t.frame).map fun s => ⟨s, t.written.enter pos⟩
  leave t :=
    match t.written.leave? with
    | some written => .ok ⟨t.frame, written⟩
    | none => .error .openLoop

theorem tracker_lockstep {fn : Function} {n : Nat} (hw : w.Within fn n) :
    Lockstep fn Fault.OfData (fun scopes (t : Tracked α) s => t = ⟨s, scopes⟩ ∧ s.Sized fn n) (.tracker A w) (.machine A w) where
  act := by
    rintro pos i scopes _ s hplain hi hops hload ⟨rfl, hs⟩
    have hall : (i.operands.all fun (x, _) => scopes.Visible x) = true := by
      refine List.all_eq_true.2 fun (x, kind) hx => ?_
      simpa using (hops x kind hx).1
    have hact := (Frame.Agrees.refl hs scopes).act A hw hplain hi hops hload
    simp only [Interpretation.tracker, Interpretation.machine, hall, if_true]
    generalize act A w pos i s = x at hact ⊢
    cases hact with
    | ok hst => exact .ok ⟨rfl, hst.left⟩
    | fault he => exact .fault he
  enter := by
    rintro pos range stride k scopes _ s hi ⟨rfl, hs⟩
    have hturn := (Frame.Agrees.refl hs scopes).turn hi k
    simp only [Interpretation.tracker, Interpretation.machine]
    generalize turn pos k s = x at hturn ⊢
    cases hturn with
    | ok hst => exact .ok ⟨rfl, hst.left⟩
    | fault he => exact .fault he
  leave := by
    rintro scopes inner _ s houter ⟨rfl, hs⟩
    simp only [Interpretation.tracker, Interpretation.machine, Scopes.leave?, houter]
    exact .ok ⟨rfl, hs⟩

/-- The check of the tracker never comes into play. -/
theorem visit_tracker {fn : Function} {f n : Nat} (hverify : verifyBody f fn = .ok ()) (hw : w.Within fn n) {b : Block}
    (hb : b.flatten = fn.code) {s : Frame α} (hs : s.Sized fn n) :
    (b.visit (.tracker A w) 0 ⟨s, {}⟩).map Tracked.frame = runBody A w fn.code s := by
  obtain ⟨scopes, hvisit⟩ := (tracker_lockstep A w hw).body hverify hb ⟨rfl, hs⟩
  rw [← hb, runBody_flatten]
  generalize b.visit (.tracker A w) 0 ⟨s, {}⟩ = x at hvisit ⊢
  generalize b.visit (.machine A w) 0 s = y at hvisit ⊢
  cases hvisit with
  | ok hst =>
    rw [hst.1]
    rfl
  | fault => rfl

end

/-! ## Functions and programs -/

/-- Behind every header stands the balanced body of its loop, and then its end. -/
theorem Block.exists_close (b : Block) {before behind : List Instr} {range stride : Nat}
    (h : b.flatten = before ++ .loop range stride :: behind) :
    ∃ body rest, behind = body ++ .close :: rest ∧ Balanced body := by
  induction b generalizing before behind with
  | done => simp [flatten] at h
  | plain i hplain rest ih =>
    cases before with
    | nil =>
      obtain ⟨rfl, -⟩ := List.cons.inj h
      exact hplain.elim
    | cons j before => exact ih (List.cons.inj h).2
  | loop range' stride' hrange body rest ihbody ihrest =>
    cases before with
    | nil => exact ⟨body.flatten, rest.flatten, (List.cons.inj h).2.symm, body.balanced⟩
    | cons j before =>
      rcases List.append_eq_append_iff.1 (List.cons.inj h).2 with ⟨between, hbefore, hclose⟩ | ⟨between, hbody, hbehind⟩
      · -- the header stands behind the loop
        cases between with
        | nil => cases (List.cons.inj hclose).1
        | cons c between => exact ihrest (List.cons.inj hclose).2
      · -- it stands in the body, or is the closing instruction, which it is not
        cases between with
        | nil => cases (List.cons.inj hbehind).1
        | cons c between =>
          obtain ⟨rfl, rfl⟩ := List.cons.inj hbehind
          obtain ⟨inner, after, rfl, hinner⟩ := ihbody hbody
          exact ⟨inner, after ++ .close :: rest.flatten, by simp, hinner⟩

section
variable {α : Type} (A : Arith α) {cells : List Nat}

/-- The buffers of a function have cells in a memory of `n` cells. -/
def Function.HasCells (fn : Function) (cells : List Nat) (n : Nat) : Prop :=
  ∀ b ∈ fn.output :: fn.inputs, ∃ c, cells[b]? = some c ∧ c < n

/-- The cells of the function's buffers. -/
structure Wiring.Of (fn : Function) (cells : List Nat) (w : Wiring) : Prop where
  inputs : fn.inputs.mapM (cellOf cells) = .ok w.inputs
  output : cellOf cells fn.output = .ok w.output

theorem cellOf_eq_ok {b c : Nat} : cellOf cells b = .ok c ↔ cells[b]? = some c := by
  unfold cellOf
  cases cells[b]? <;> simp

theorem Wiring.exists_of {fn : Function} (h : ∀ b ∈ fn.output :: fn.inputs, ∃ c, cells[b]? = some c) :
    ∃ w : Wiring, w.Of fn cells := by
  obtain ⟨⟨output, hout⟩, hin⟩ := List.forall_mem_cons.1 h
  obtain ⟨inputs, hinputs⟩ := exists_mapM_eq_ok fun b hb => (hin b hb).imp fun c hc => cellOf_eq_ok.2 hc
  exact ⟨⟨inputs, output⟩, hinputs, cellOf_eq_ok.2 hout⟩

theorem Function.HasCells.wiring {fn : Function} {n : Nat} (h : fn.HasCells cells n) :
    ∃ w : Wiring, w.Of fn cells ∧ w.Within fn n := by
  obtain ⟨w, hw⟩ := Wiring.exists_of fun b hb => (h b hb).imp fun c hc => hc.1
  have hlt : ∀ b ∈ fn.output :: fn.inputs, ∀ c, cellOf cells b = .ok c → c < n := by
    intro b hb c hc
    obtain ⟨c', hc', hlt⟩ := h b hb
    rwa [Option.some.inj (hc'.symm.trans (cellOf_eq_ok.1 hc))] at hlt
  have hlength := length_of_mapM hw.inputs
  refine ⟨w, hw, hlength, fun c hc => ?_, hlt _ List.mem_cons_self _ hw.output⟩
  obtain ⟨k, hk, rfl⟩ := List.getElem_of_mem hc
  have hk' : k < fn.inputs.length := hlength ▸ hk
  obtain ⟨c, hc', hcell⟩ := getElem?_of_mapM hw.inputs (List.getElem?_eq_getElem hk')
  rw [List.getElem?_eq_getElem hk] at hc'
  cases hc'
  exact hlt _ (List.mem_cons_of_mem _ (List.getElem_mem hk')) _ hcell

/-- The registers that the machine starts a function from. -/
def Registers.zero (fn : Function) : Registers α :=
  ⟨Array.replicate fn.code.length 0, Array.replicate fn.code.length (A.lit 0.0)⟩

theorem Registers.zero_fit (fn : Function) : (Registers.zero A fn).Fit fn := ⟨by simp [zero], by simp [zero]⟩

/-- A function with its cells is its body. -/
theorem Function.record_wired {fn : Function} {w : Wiring} (hw : w.Of fn cells) (r : Registers α) (memory : Memory α) :
    fn.record A r cells memory =
      (recordBody A w fn.code ⟨r.ints, r.floats, memory⟩).andThen fun s => .silent (.ok s.memory) := by
  simp [Function.record, Recording.andThen, Recording.silent, hw.inputs, hw.output]

/-- The machine runs a function as it is recorded. -/
theorem Function.outcome_record {fn : Function} {f : Nat} (hverify : verifyBody f fn = .ok ()) {w : Wiring}
    (hw : w.Of fn cells) (memory : Memory α) :
    (fn.record A (.zero A fn) cells memory).outcome = fn.run A cells memory := by
  obtain ⟨b, hb⟩ := exists_flatten_of_verifyBody hverify
  rw [fn.record_wired A hw, Recording.outcome_andThen, ← hb, (recordBody_flatten A w b _).2, hb, Function.run, hw.inputs,
    hw.output]
  rfl

/-- A verified function performs the same stores from all registers, as the machine does, and
fails on its data only. -/
theorem Function.record_eq {fn : Function} {f : Nat} (hverify : verifyBody f fn = .ok ()) {memory : Memory α}
    (hcells : fn.HasCells cells memory.size) {registers : Registers α} (hfit : registers.Fit fn) :
    fn.record A registers cells memory = fn.record A (.zero A fn) cells memory ∧
      (fn.record A registers cells memory).outcome = fn.run A cells memory ∧
      (∀ e, fn.run A cells memory = .error e → e.OfData) ∧ ∀ m, fn.run A cells memory = .ok m → m.size = memory.size := by
  obtain ⟨w, hof, hw⟩ := hcells.wiring
  obtain ⟨b, hb⟩ := exists_flatten_of_verifyBody hverify
  have hsized : ∀ {r : Registers α}, r.Fit fn → Frame.Sized fn memory.size ⟨r.ints, r.floats, memory⟩ :=
    fun h => ⟨h.ints, h.floats, rfl⟩
  have hstart : Recording.Agrees fn memory.size {} (.silent (.ok ⟨registers.ints, registers.floats, memory⟩))
      (.silent (.ok ⟨(Registers.zero A fn).ints, (Registers.zero A fn).floats, memory⟩)) := by
    refine ⟨rfl, .ok ⟨hsized hfit, hsized (Registers.zero_fit A fn), rfl, fun hx => ?_, fun hx => ?_⟩⟩ <;>
      simp [Function.InScope, Scopes.Visible] at hx
  obtain ⟨scopes, hvisit⟩ := (recorder_lockstep A w hw).body hverify hb hstart
  rw [(recordBody_flatten A w b _).1, (recordBody_flatten A w b _).1, hb] at hvisit
  have hdrop := hvisit.of_ok.drop
  rw [← fn.outcome_record A hverify hof, fn.record_wired A hof, fn.record_wired A hof]
  exact ⟨hdrop.1, congrArg Recording.outcome hdrop.1, hdrop.2⟩

/-- Verified functions, one after the other. -/
theorem recordFunctions_eq {fns : List Function} (hverify : ∀ fn ∈ fns, ∃ f, verifyBody f fn = .ok ()) {memory : Memory α}
    (hcells : ∀ fn ∈ fns, fn.HasCells cells memory.size) {registers : List (Registers α)}
    (hfit : List.Forall₂ (fun fn r => r.Fit fn) fns registers) :
    recordFunctions A cells (fns.zip registers) memory =
        recordFunctions A cells (fns.zip (fns.map (Registers.zero A))) memory ∧
      (recordFunctions A cells (fns.zip registers) memory).outcome =
        fns.foldlM (fun memory fn => fn.run A cells memory) memory ∧
      ∀ e, fns.foldlM (fun memory fn => fn.run A cells memory) memory = .error e → e.OfData := by
  induction hfit generalizing memory with
  | nil => exact ⟨rfl, rfl, nofun⟩
  | @cons fn r fns registers hfit hrest ih =>
    obtain ⟨⟨f, hfn⟩, hfns⟩ := List.forall_mem_cons.1 hverify
    obtain ⟨hcell, hcells⟩ := List.forall_mem_cons.1 hcells
    obtain ⟨heq, -, hfault, hsize⟩ := fn.record_eq A hfn hcell hfit
    have hzero := (fn.record_eq A hfn hcell (Registers.zero_fit A fn)).2.1
    simp only [List.map_cons, List.zip_cons_cons, recordFunctions, Recording.outcome_andThen, List.foldlM_cons, heq, hzero]
    cases hrun : fn.run A cells memory with
    | error e =>
      rw [hrun] at hzero
      refine ⟨by simp [Recording.andThen, hzero], rfl, ?_⟩
      rintro _ ⟨⟩
      exact hfault e hrun
    | ok m =>
      rw [hrun] at hzero
      rw [← hsize m hrun] at hcells
      obtain ⟨hrec, hrest⟩ := ih hfns hcells
      exact ⟨by simp [Recording.andThen, hzero, hrec], hrest⟩

/-- Runs a program, each function from registers of its own, and lists the stores. -/
def Program.record (p : Program) (registers : List (Registers α)) (cells : List Nat) (memory : Memory α) :
    Recording α (Memory α) := recordFunctions A cells (p.functions.zip registers) memory

section
variable {p : Program} (hvalid : p.Valid) {memory : Memory α}
  (hcells : ∀ b < p.buffers.length, ∃ c, cells[b]? = some c ∧ c < memory.size)
include hvalid

theorem Program.Valid.verified {fn : Function} (hfn : fn ∈ p.functions) : ∃ f, verifyBody f fn = .ok () := by
  obtain ⟨f, hf⟩ := List.mem_iff_getElem?.1 hfn
  exact ⟨f, (hvalid.functions hf).body⟩

include hcells

theorem Program.Valid.hasCells {fn : Function} (hfn : fn ∈ p.functions) : fn.HasCells cells memory.size := by
  intro b hb
  obtain ⟨f, hf⟩ := List.mem_iff_getElem?.1 hfn
  have hallowed := hvalid.functions hf
  refine hcells b ?_
  rcases List.mem_cons.1 hb with rfl | hb
  · obtain ⟨-, buffer, hbuffer, -⟩ := hallowed.output
    exact (List.getElem?_eq_some_iff.1 hbuffer).1
  · obtain ⟨-, buffer, hbuffer, -⟩ := hallowed.inputs b hb
    exact (List.getElem?_eq_some_iff.1 hbuffer).1

/-- A valid program fails on its data only. -/
theorem Program.Valid.run_ofData {e : Fault} (he : p.run A cells memory = .error e) : e.OfData := by
  have hzero : List.Forall₂ (fun fn (r : Registers α) => r.Fit fn) p.functions (p.functions.map (Registers.zero A)) := by
    rw [List.forall₂_map_right_iff, List.forall₂_same]
    exact fun fn _ => Registers.zero_fit A fn
  exact (recordFunctions_eq A (fun fn => hvalid.verified) (fun fn => hvalid.hasCells hcells) hzero).2.2 e he

end

end

/-- A verified program closes its loops, fails on its data only, performs the same stores
whatever its registers hold at first, and reads no register that the current turn of the loops
around its definition has not written. -/
theorem Program.run_safe (p : Program) (hverify : p.verify = .ok ()) {α : Type} (A : Arith α) (cells : List Nat)
    (memory : Memory α) (hcells : cells.length = p.buffers.length) (hmemory : ∀ c ∈ cells, c < memory.size) :
    (∀ e, p.run A cells memory = .error e → e = .overflow ∨ e = .division ∨ e = .element) ∧
    (∀ registers registers' : List (Registers α), List.Forall₂ (fun fn r => r.Fit fn) p.functions registers →
      List.Forall₂ (fun fn r => r.Fit fn) p.functions registers' →
      p.record A registers cells memory = p.record A registers' cells memory ∧
        (p.record A registers cells memory).outcome = p.run A cells memory) ∧
    ∀ fn ∈ p.functions,
      (∀ before range stride behind, fn.code = before ++ .loop range stride :: behind →
        ∃ body rest, behind = body ++ .close :: rest ∧ Balanced body ∧ splitLoop 0 behind = some (body, rest)) ∧
      ∃ b : Block, b.flatten = fn.code ∧ ∀ {w : Wiring} {n : Nat} {s : Frame α}, w.Within fn n → s.Sized fn n →
        (b.visit (.tracker A w) 0 ⟨s, {}⟩).map Tracked.frame = runBody A w fn.code s := by
  have hvalid := Program.verify_eq_ok_iff.1 hverify
  have hcells : ∀ b < p.buffers.length, ∃ c, cells[b]? = some c ∧ c < memory.size := fun b hb =>
    ⟨cells[b], List.getElem?_eq_getElem (hcells ▸ hb), hmemory _ (List.getElem_mem (hcells ▸ hb))⟩
  have hrecord := fun registers (hfit : List.Forall₂ (fun fn (r : Registers α) => r.Fit fn) p.functions registers) =>
    recordFunctions_eq A (fun fn => hvalid.verified) (fun fn => hvalid.hasCells hcells) hfit
  refine ⟨fun e he => hvalid.run_ofData A hcells he, fun registers registers' hfit hfit' => ?_, fun fn h => ?_⟩
  · exact ⟨(hrecord _ hfit).1.trans (hrecord _ hfit').1.symm, (hrecord _ hfit).2.1⟩
  · obtain ⟨f, hf⟩ := hvalid.verified h
    obtain ⟨b, hb⟩ := exists_flatten_of_verifyBody hf
    refine ⟨fun before range stride behind hcode => ?_, b, hb, fun hw hs => visit_tracker A _ hf hw hb hs⟩
    obtain ⟨body, rest, rfl, hbal⟩ := b.exists_close (hb.trans hcode)
    exact ⟨body, rest, rfl, hbal, splitLoop_close hbal rest⟩

/-- Doubles three elements of buffers that have two. -/
def overrun : Program where
  functions := [⟨[.loop 3 1, .load 0 0, .binary .add 1 1, .store 0 2, .close], [0], 1⟩]
  buffers := [⟨.leaf 0 true, 2⟩, ⟨.scratch 0, 2⟩]
  output := some 1

theorem run_safe_overrun :
    overrun.verify = .ok () ∧ overrun.run .double [0, 1] #[#[1, 2], #[0, 0]] = .error .element ∧
      overrun.record .double [⟨#[7, 7, 7, 7, 7], #[8, 8, 8, 8, 8]⟩] [0, 1] #[#[1, 2], #[0, 0]] =
        overrun.record .double [⟨#[0, 1, 2, 3, 4], #[5, 6, 7, 8, 9]⟩] [0, 1] #[#[1, 2], #[0, 0]] := by
  have hverify : overrun.verify = .ok () := by decide
  have hsafe := overrun.run_safe hverify .double [0, 1] #[#[1, 2], #[0, 0]] rfl (by decide)
  exact ⟨hverify, rfl, (hsafe.2.1 _ _ (.cons ⟨rfl, rfl⟩ .nil) (.cons ⟨rfl, rfl⟩ .nil)).1⟩

end TensorLoom
