import TensorLoom.Proofs.Program.Scope
/-
# Structured code

Code whose loops balance is the flattening of a `Block`: plain instructions, and loops
around blocks. The body verifier is one pass over flat code; what it accepts is exactly
the structured code in which every operand names an earlier value of the right kind that
its instruction lies in the scope of (`verifyBody_eq_ok_iff`).
-/

namespace TensorLoom

/-- A sequence of statements, each a plain instruction or a loop around such a sequence. -/
inductive Block where
  | done
  | plain (i : Instr) (hplain : i.Plain) (rest : Block)
  | loop (range stride : Nat) (hrange : 0 < range) (body rest : Block)

namespace Block

def flatten : Block → List Instr
  | done => []
  | plain i _ rest => i :: rest.flatten
  | loop range stride _ body rest => .loop range stride :: (body.flatten ++ .close :: rest.flatten)

theorem balanced (b : Block) : Balanced b.flatten := by
  induction b with
  | done => exact .nil
  | plain i hplain rest ih => exact .plain hplain ih
  | loop range stride hrange body rest ihbody ihrest => exact .loop ihbody ihrest

/-- The plain instruction `i` stands at position `v`, directly in the block inside the loops
whose headers `path` lists, the innermost first. The code itself starts at `pos` inside the
loops `outer`. -/
inductive Stands : (outer : List Nat) → (pos : Nat) → Block → (path : List Nat) → (v : Nat) → Instr → Prop
  | here {outer pos i hplain rest} : Stands outer pos (plain i hplain rest) outer pos i
  | next {outer pos i hplain rest path v j} : Stands outer (pos + 1) rest path v j →
    Stands outer pos (plain i hplain rest) path v j
  | inside {outer pos range stride hrange body rest path v j} : Stands (pos :: outer) (pos + 1) body path v j →
    Stands outer pos (loop range stride hrange body rest) path v j
  | after {outer pos range stride hrange body rest path v j} :
    Stands outer (pos + 1 + body.flatten.length + 1) rest path v j →
    Stands outer pos (loop range stride hrange body rest) path v j

/-- Every operand names an instruction that comes earlier, produces a value of the kind and
lies directly in the same block or in one around it, or it names the header of a loop around
it; every load names an input. -/
structure WellScoped (b : Block) (inputs : Nat) : Prop where
  operands : ∀ {path v i}, b.Stands [] 0 path v i → ∀ {x kind}, (x, kind) ∈ i.operands → x < v ∧
    ((∃ path' j, b.Stands [] 0 path' x j ∧ path' <:+ path ∧ j.resultKind = some kind) ∨ (x ∈ path ∧ kind = .int))
  loads : ∀ {path v n offset}, b.Stands [] 0 path v (.load n offset) → n < inputs

/-! ## Where instructions stand -/

section
variable {c body rest : Block} {outer path : List Nat} {pos v : Nat} {i j : Instr}

/-- A block holds positions of its own range, behind headers of its own range. -/
theorem Stands.bounds (h : Stands outer pos c path v j) :
    pos ≤ v ∧ v < pos + c.flatten.length ∧ ∃ inner, path = inner ++ outer ∧ ∀ x ∈ inner, pos ≤ x ∧ x < v := by
  induction h with
  | here => exact ⟨Nat.le_refl _, by simp [flatten], [], rfl, by simp⟩
  | next _ ih =>
    obtain ⟨hle, hlt, inner, hpath, hinner⟩ := ih
    simp only [flatten, List.length_cons]
    refine ⟨by omega, by omega, inner, hpath, fun x hx => ?_⟩
    have := hinner x hx
    omega
  | @inside outer pos _ _ _ _ _ _ _ _ _ ih =>
    obtain ⟨hle, hlt, inner, hpath, hinner⟩ := ih
    simp only [flatten, List.length_cons, List.length_append]
    refine ⟨by omega, by omega, inner ++ [pos], by simp [hpath], fun x hx => ?_⟩
    rcases List.mem_append.1 hx with hx | hx
    · have := hinner x hx
      omega
    · rw [List.mem_singleton.1 hx]
      omega
  | after _ ih =>
    obtain ⟨hle, hlt, inner, hpath, hinner⟩ := ih
    simp only [flatten, List.length_cons, List.length_append]
    refine ⟨by omega, by omega, inner, hpath, fun x hx => ?_⟩
    have := hinner x hx
    omega

theorem Stands.le (h : Stands outer pos c path v j) : pos ≤ v := h.bounds.1

theorem Stands.suffix (h : Stands outer pos c path v j) : outer <:+ path := by
  obtain ⟨-, -, inner, hpath, -⟩ := h.bounds
  exact ⟨inner, hpath.symm⟩

/-- A header that is not one of the loops around the code stands in it. -/
theorem Stands.le_of_mem_path (h : Stands outer pos c path v j) {x : Nat} (hx : x ∈ path) : x ∈ outer ∨ pos ≤ x := by
  obtain ⟨-, -, inner, rfl, hinner⟩ := h.bounds
  rcases List.mem_append.1 hx with hx | hx
  · exact .inr (hinner x hx).1
  · exact .inl hx

end

/-! ## Scoping, block by block -/

/-- The values of the code that an instruction at `v` inside the loops `path` is in the scope of. -/
def Names (c : Block) (outer : List Nat) (pos : Nat) (path : List Nat) (v x : Nat) (kind : ValueKind) :
    Prop :=
  x < v ∧ ((∃ path' j, c.Stands outer pos path' x j ∧ path' <:+ path ∧ j.resultKind = some kind) ∨
    (x ∈ path ∧ x ∉ outer ∧ kind = .int))

/-- Scoping of a piece of code that may also use the values of `usable`. -/
structure Scoped (inputs : Nat) (outer : List Nat) (pos : Nat) (usable : Nat → ValueKind → Prop) (c : Block) :
    Prop where
  operands : ∀ {path v i}, c.Stands outer pos path v i → ∀ {x kind}, (x, kind) ∈ i.operands →
    usable x kind ∨ c.Names outer pos path v x kind
  loads : ∀ {path v n offset}, c.Stands outer pos path v (.load n offset) → n < inputs

theorem wellScoped_iff_scoped {b : Block} {inputs : Nat} :
    b.WellScoped inputs ↔ Scoped inputs [] 0 (fun _ _ => False) b := by
  constructor
  · intro h
    exact ⟨fun hi x kind ho => .inr (by simpa [Names] using h.operands hi ho), h.loads⟩
  · intro h
    exact ⟨fun hi x kind ho => by simpa [Names] using h.operands hi ho, h.loads⟩

section
variable {inputs : Nat} {outer : List Nat} {pos : Nat} {usable : Nat → ValueKind → Prop}

theorem scoped_done : Scoped inputs outer pos usable done := ⟨nofun, nofun⟩

/-- What an instruction defines can be used in the rest of its block. -/
theorem names_plain {i : Instr} {hplain : i.Plain} {rest : Block} {path : List Nat} {v x : Nat} {j : Instr}
    {kind : ValueKind} (h : Stands outer (pos + 1) rest path v j) :
    (plain i hplain rest).Names outer pos path v x kind ↔
      (x = pos ∧ i.resultKind = some kind) ∨ rest.Names outer (pos + 1) path v x kind := by
  have hle := h.le
  constructor
  · rintro ⟨hlt, ⟨path', j', hx, hpath, hkind⟩ | hheader⟩
    · cases hx with
      | here => exact .inl ⟨rfl, hkind⟩
      | next hx => exact .inr ⟨hlt, .inl ⟨path', j', hx, hpath, hkind⟩⟩
    · exact .inr ⟨hlt, .inr hheader⟩
  · rintro (⟨rfl, hkind⟩ | ⟨hlt, ⟨path', j', hx, hpath, hkind⟩ | hheader⟩)
    · exact ⟨by omega, .inl ⟨outer, i, .here, h.suffix, hkind⟩⟩
    · exact ⟨hlt, .inl ⟨path', j', .next hx, hpath, hkind⟩⟩
    · exact ⟨hlt, .inr hheader⟩

theorem scoped_plain {i : Instr} {hplain : i.Plain} {rest : Block} :
    Scoped inputs outer pos usable (plain i hplain rest) ↔
      (∀ x kind, (x, kind) ∈ i.operands → usable x kind) ∧ (∀ n offset, i = .load n offset → n < inputs) ∧
        Scoped inputs outer (pos + 1) (fun x kind => usable x kind ∨ (x = pos ∧ i.resultKind = some kind)) rest := by
  constructor
  · intro h
    refine ⟨fun x kind ho => ?_, ?_, ⟨fun hj x kind ho => ?_, fun hj => h.loads (.next hj)⟩⟩
    · rcases h.operands .here ho with husable | ⟨hlt, ⟨path', j, hx, -⟩ | ⟨hmem, hnot, -⟩⟩
      · exact husable
      · exact absurd hx.le (Nat.not_le.2 hlt)
      · exact absurd hmem hnot
    · rintro n offset rfl
      exact h.loads .here
    · rw [or_assoc, ← names_plain hj]
      exact h.operands (.next hj) ho
  · rintro ⟨hops, hload, hrest⟩
    refine ⟨fun hj x kind ho => ?_, fun hj => ?_⟩
    · cases hj with
      | here => exact .inl (hops x kind ho)
      | next hj =>
        rw [names_plain hj, ← or_assoc]
        exact hrest.operands hj ho
    · cases hj with
      | here => exact hload _ _ rfl
      | next hj => exact hrest.loads hj

/-- Inside a loop its header can be used. -/
theorem names_inside {range stride : Nat} {hrange : 0 < range} {body rest : Block} {path : List Nat} {v x : Nat}
    {j : Instr} {kind : ValueKind} (h : Stands (pos :: outer) (pos + 1) body path v j) (houter : ∀ x ∈ outer, x < pos) :
    (loop range stride hrange body rest).Names outer pos path v x kind ↔
      (x = pos ∧ kind = .int) ∨ body.Names (pos :: outer) (pos + 1) path v x kind := by
  obtain ⟨hle, hlt', -⟩ := h.bounds
  constructor
  · rintro ⟨hlt, ⟨path', j', hx, hpath, hkind⟩ | ⟨hmem, hnot, hkind⟩⟩
    · cases hx with
      | inside hx => exact .inr ⟨hlt, .inl ⟨path', j', hx, hpath, hkind⟩⟩
      | after hx =>
        have := hx.le
        omega
    · by_cases hpos : x = pos
      · exact .inl ⟨hpos, hkind⟩
      · exact .inr ⟨hlt, .inr ⟨hmem, by simp [hpos, hnot], hkind⟩⟩
  · rintro (⟨rfl, hkind⟩ | ⟨hlt, ⟨path', j', hx, hpath, hkind⟩ | ⟨hmem, hnot, hkind⟩⟩)
    · refine ⟨by omega, .inr ⟨h.suffix.subset (List.mem_cons_self ..), fun hmem => ?_, hkind⟩⟩
      exact Nat.lt_irrefl _ (houter _ hmem)
    · exact ⟨hlt, .inl ⟨path', j', .inside hx, hpath, hkind⟩⟩
    · exact ⟨hlt, .inr ⟨hmem, fun h => hnot (List.mem_cons_of_mem _ h), hkind⟩⟩

/-- Behind a loop nothing of it can be used. -/
theorem names_after {range stride : Nat} {hrange : 0 < range} {body rest : Block} {path : List Nat} {v x : Nat}
    {j : Instr} {kind : ValueKind} (h : Stands outer (pos + 1 + body.flatten.length + 1) rest path v j)
    (houter : ∀ x ∈ outer, x < pos) :
    (loop range stride hrange body rest).Names outer pos path v x kind ↔
      rest.Names outer (pos + 1 + body.flatten.length + 1) path v x kind := by
  constructor
  · rintro ⟨hlt, ⟨path', j', hx, hpath, hkind⟩ | hheader⟩
    · cases hx with
      | inside hx =>
        -- the header of the loop would be that of a loop around the later instruction
        have hmem : pos ∈ path := hpath.subset (hx.suffix.subset (List.mem_cons_self ..))
        rcases h.le_of_mem_path hmem with hmem | hle
        · exact absurd (houter pos hmem) (Nat.lt_irrefl _)
        · omega
      | after hx => exact ⟨hlt, .inl ⟨path', j', hx, hpath, hkind⟩⟩
    · exact ⟨hlt, .inr hheader⟩
  · rintro ⟨hlt, ⟨path', j', hx, hpath, hkind⟩ | hheader⟩
    · exact ⟨hlt, .inl ⟨path', j', .after hx, hpath, hkind⟩⟩
    · exact ⟨hlt, .inr hheader⟩

theorem scoped_loop {range stride : Nat} {hrange : 0 < range} {body rest : Block} (houter : ∀ x ∈ outer, x < pos) :
    Scoped inputs outer pos usable (loop range stride hrange body rest) ↔
      Scoped inputs (pos :: outer) (pos + 1) (fun x kind => usable x kind ∨ (x = pos ∧ kind = .int)) body ∧
        Scoped inputs outer (pos + 1 + body.flatten.length + 1) usable rest := by
  constructor
  · intro h
    refine ⟨⟨fun hj x kind ho => ?_, fun hj => h.loads (.inside hj)⟩,
      ⟨fun hj x kind ho => ?_, fun hj => h.loads (.after hj)⟩⟩
    · rw [or_assoc, ← names_inside hj houter]
      exact h.operands (.inside hj) ho
    · rw [← names_after hj houter]
      exact h.operands (.after hj) ho
  · rintro ⟨hbody, hrest⟩
    refine ⟨fun hj x kind ho => ?_, fun hj => ?_⟩
    · cases hj with
      | inside hj =>
        rw [names_inside hj houter, ← or_assoc]
        exact hbody.operands hj ho
      | after hj =>
        rw [names_after hj houter]
        exact hrest.operands hj ho
    · cases hj with
      | inside hj => exact hbody.loads hj
      | after hj => exact hrest.loads hj

end

end Block

/-! ## The verifier -/

section
variable {f : Nat} {fn : Function} {pos : Nat} {scopes : Scopes}

/-- The scopes show the value, and it is of the kind. -/
def Function.InScope (fn : Function) (scopes : Scopes) (x : Nat) (kind : ValueKind) : Prop :=
  scopes.Visible x ∧ (fn.code[x]?).bind Instr.resultKind = some kind

theorem checkOperand_eq_ok_iff {x : Nat} {kind : ValueKind} :
    checkOperand f fn pos scopes (x, kind) = .ok () ↔ x < pos ∧ fn.InScope scopes x kind := by
  constructor
  · intro h
    simp only [checkOperand] at h
    split_ifs at h with hlt hkind hvis
    exact ⟨Nat.not_le.1 hlt, hvis, not_not.1 hkind⟩
  · rintro ⟨hlt, hvis, hkind⟩
    exact checkOperand_eq_ok hlt hkind hvis

/-- The scopes behind a plain instruction. -/
def Instr.defineIn (i : Instr) (pos : Nat) (scopes : Scopes) : Scopes :=
  if i.resultKind.isSome then scopes.define pos else scopes

theorem Instr.defineIn_outer (i : Instr) : (i.defineIn pos scopes).outer = scopes.outer := by
  unfold defineIn
  split <;> rfl

theorem Instr.visible_defineIn {i : Instr} {x : Nat} :
    (i.defineIn pos scopes).Visible x ↔ (x = pos ∧ i.resultKind.isSome) ∨ scopes.Visible x := by
  by_cases h : i.resultKind.isSome <;> simp [defineIn, h, visible_define]

theorem checkInstr_plain_eq_ok_iff {i : Instr} (hplain : i.Plain) {scopes' : Scopes} :
    checkInstr f fn pos i scopes = .ok scopes' ↔
      (∀ x kind, (x, kind) ∈ i.operands → x < pos ∧ fn.InScope scopes x kind) ∧
        (∀ n offset, i = .load n offset → n < fn.inputs.length) ∧ scopes' = i.defineIn pos scopes := by
  have hops : i.operands.forM (checkOperand f fn pos scopes) = .ok () ↔
      ∀ x kind, (x, kind) ∈ i.operands → x < pos ∧ fn.InScope scopes x kind := by
    rw [forM_eq_ok, Prod.forall]
    simp only [checkOperand_eq_ok_iff]
  rw [← hops]
  unfold checkInstr
  cases i.operands.forM (checkOperand f fn pos scopes) with
  | error e => simp [bind, Except.bind]
  | ok =>
    cases i with
    | loop => exact hplain.elim
    | close => exact hplain.elim
    | load n offset =>
      by_cases hn : fn.inputs.length ≤ n
      · simp [hn, bind, Except.bind, throw, throwThe, MonadExceptOf.throw, Nat.not_lt.2 hn]
      · simp [hn, Nat.not_le.1 hn, Instr.defineIn, Instr.resultKind, bind, Except.bind, pure, Except.pure, eq_comm]
    | _ => simp [Instr.defineIn, Instr.resultKind, bind, Except.bind, pure, Except.pure, eq_comm]

theorem checkInstr_loop_eq_ok_iff {range stride : Nat} {scopes' : Scopes} :
    checkInstr f fn pos (.loop range stride) scopes = .ok scopes' ↔ 0 < range ∧ scopes' = scopes.enter pos := by
  by_cases hrange : range = 0 <;>
    simp [checkInstr, Instr.operands, hrange, Nat.pos_iff_ne_zero, bind, Except.bind, pure, Except.pure, throw, throwThe,
      MonadExceptOf.throw, eq_comm]

theorem checkInstr_close_eq_ok_iff {scopes' : Scopes} :
    checkInstr f fn pos .close scopes = .ok scopes' ↔ scopes.leave? = some scopes' := by
  cases h : scopes.leave? <;>
    simp [checkInstr, Instr.operands, h, bind, Except.bind, pure, Except.pure, throw, throwThe, MonadExceptOf.throw]

theorem checkFrom_cons_eq_ok_iff {i : Instr} {code : List Instr} :
    checkFrom f fn pos (i :: code) scopes = .ok () ↔
      ∃ scopes', checkInstr f fn pos i scopes = .ok scopes' ∧ checkFrom f fn (pos + 1) code scopes' = .ok () := by
  rw [checkFrom, bind_eq_ok]

/-- What an instruction defines is in scope behind it. -/
theorem inScope_defineIn {i : Instr} (hi : fn.code[pos]? = some i) {x : Nat} {kind : ValueKind} :
    fn.InScope (i.defineIn pos scopes) x kind ↔ fn.InScope scopes x kind ∨ (x = pos ∧ i.resultKind = some kind) := by
  rw [Function.InScope, Function.InScope, Instr.visible_defineIn]
  constructor
  · rintro ⟨⟨rfl, -⟩ | hvis, hkind⟩
    · exact .inr ⟨rfl, by simpa [hi] using hkind⟩
    · exact .inl ⟨hvis, hkind⟩
  · rintro (⟨hvis, hkind⟩ | ⟨rfl, hkind⟩)
    · exact ⟨.inr hvis, hkind⟩
    · exact ⟨.inl ⟨rfl, by simp [hkind]⟩, by simpa [hi] using hkind⟩

/-- A header is in scope in its loop. -/
theorem inScope_enter {range stride : Nat} (hi : fn.code[pos]? = some (.loop range stride)) {x : Nat} {kind : ValueKind} :
    fn.InScope (scopes.enter pos) x kind ↔ fn.InScope scopes x kind ∨ (x = pos ∧ kind = .int) := by
  rw [Function.InScope, Function.InScope, visible_enter]
  constructor
  · rintro ⟨rfl | hvis, hkind⟩
    · exact .inr ⟨rfl, by simpa [hi, Instr.resultKind, eq_comm] using hkind⟩
    · exact .inl ⟨hvis, hkind⟩
  · rintro (⟨hvis, hkind⟩ | ⟨rfl, rfl⟩)
    · exact ⟨.inr hvis, hkind⟩
    · exact ⟨.inl rfl, by simp [hi, Instr.resultKind]⟩

/-- Accepted code is structured: each open loop is closed, and one more block follows each
closing instruction. -/
theorem exists_flatten_of_checkFrom {code : List Instr} (h : checkFrom f fn pos code scopes = .ok ()) :
    ∃ (b : Block) (after : List Block), after.length = scopes.outer.length ∧
      code = b.flatten ++ after.flatMap fun c => .close :: c.flatten := by
  induction code generalizing pos scopes with
  | nil =>
    rw [checkFrom] at h
    split_ifs at h with houter
    exact ⟨.done, [], by simp [houter], rfl⟩
  | cons i code ih =>
    obtain ⟨scopes', hi, hcode⟩ := checkFrom_cons_eq_ok_iff.1 h
    obtain ⟨b, after, hlen, rfl⟩ := ih hcode
    by_cases hplain : i.Plain
    · obtain ⟨-, -, rfl⟩ := (checkInstr_plain_eq_ok_iff hplain).1 hi
      rw [i.defineIn_outer] at hlen
      exact ⟨.plain i hplain b, after, hlen, rfl⟩
    · cases i with
      | loop range stride =>
        obtain ⟨hrange, rfl⟩ := checkInstr_loop_eq_ok_iff.1 hi
        -- the block behind the loop is the first of those behind its body
        obtain ⟨c, after, rfl⟩ := List.exists_cons_of_length_eq_add_one hlen
        refine ⟨.loop range stride hrange b c, after, by simpa [Scopes.enter] using hlen, by simp [Block.flatten]⟩
      | close =>
        have hleave := checkInstr_close_eq_ok_iff.1 hi
        refine ⟨.done, b :: after, ?_, by simp [Block.flatten]⟩
        cases houter : scopes.outer with
        | nil => simp [Scopes.leave?, houter] at hleave
        | cons block outer =>
          obtain rfl : (⟨block, outer⟩ : Scopes) = scopes' := by simpa [Scopes.leave?, houter] using hleave
          simpa using hlen
      | _ => exact absurd trivial hplain

/-- The verifier accepts a block exactly if it is scoped, and goes on with the blocks around it. -/
theorem checkFrom_flatten (c : Block) (outer : List Nat) (before behind : List Instr)
    (hcode : fn.code = before ++ (c.flatten ++ behind)) (hpos : before.length = pos) (houter : ∀ x ∈ outer, x < pos)
    (hbound : ∀ x : Nat, scopes.Visible x → x < pos) :
    ∃ scopes', scopes'.outer = scopes.outer ∧ ∀ rest, checkFrom f fn pos (c.flatten ++ rest) scopes = .ok () ↔
      c.Scoped fn.inputs.length outer pos (fn.InScope scopes) ∧
        checkFrom f fn (pos + c.flatten.length) rest scopes' = .ok () := by
  induction c generalizing pos scopes outer before behind with
  | done => exact ⟨scopes, rfl, fun rest => by simp [Block.flatten, Block.scoped_done]⟩
  | plain i hplain rest ih =>
    have hi : fn.code[pos]? = some i := by simp [hcode, ← hpos, Block.flatten]
    have hbound' : ∀ x : Nat, (i.defineIn pos scopes).Visible x → x < pos + 1 := by
      intro x hx
      rcases Instr.visible_defineIn.1 hx with ⟨rfl, -⟩ | hx
      · exact Nat.lt_succ_self _
      · exact Nat.lt_succ_of_lt (hbound x hx)
    have huse : (fun x kind => fn.InScope scopes x kind ∨ (x = pos ∧ i.resultKind = some kind)) =
        fn.InScope (i.defineIn pos scopes) := by
      funext x kind
      exact propext (inScope_defineIn hi).symm
    obtain ⟨scopes', hscopes', hrest⟩ := ih outer (before ++ [i]) behind
      (by simp [hcode, Block.flatten]) (by simp [hpos]) (fun x hx => Nat.lt_succ_of_lt (houter x hx)) hbound'
    refine ⟨scopes', hscopes'.trans i.defineIn_outer, fun code => ?_⟩
    have hops : (∀ x kind, (x, kind) ∈ i.operands → x < pos ∧ fn.InScope scopes x kind) ↔
        ∀ x kind, (x, kind) ∈ i.operands → fn.InScope scopes x kind :=
      ⟨fun h x kind ho => (h x kind ho).2, fun h x kind ho => ⟨hbound x (h x kind ho).1, h x kind ho⟩⟩
    have hlen : pos + (Block.plain i hplain rest).flatten.length = pos + 1 + rest.flatten.length := by
      simp only [Block.flatten, List.length_cons]
      omega
    rw [hlen, Block.flatten, List.cons_append, checkFrom_cons_eq_ok_iff, Block.scoped_plain, huse]
    simp only [checkInstr_plain_eq_ok_iff hplain, hops, and_assoc, exists_and_left, exists_eq_left, hrest]
  | loop range stride hrange body rest ihbody ihrest =>
    have hi : fn.code[pos]? = some (.loop range stride) := by simp [hcode, ← hpos, Block.flatten]
    have hbound' : ∀ x : Nat, (scopes.enter pos).Visible x → x < pos + 1 := by
      intro x hx
      rcases visible_enter.1 hx with rfl | hx
      · exact Nat.lt_succ_self _
      · exact Nat.lt_succ_of_lt (hbound x hx)
    have huse : (fun x kind => fn.InScope scopes x kind ∨ (x = pos ∧ kind = .int)) = fn.InScope (scopes.enter pos) := by
      funext x kind
      exact propext (inScope_enter hi).symm
    obtain ⟨inner, hinner, hbody⟩ := ihbody (pos :: outer) (before ++ [.loop range stride])
      (.close :: (rest.flatten ++ behind)) (by simp [hcode, Block.flatten]) (by simp [hpos])
      (by simpa using fun x hx => Nat.lt_succ_of_lt (houter x hx)) hbound'
    have hpos' : (before ++ Instr.loop range stride :: (body.flatten ++ [Instr.close])).length =
        pos + 1 + body.flatten.length + 1 := by
      simp only [List.length_append, List.length_cons, List.length_nil]
      omega
    obtain ⟨scopes', hscopes', hrest⟩ := ihrest outer (before ++ .loop range stride :: (body.flatten ++ [.close])) behind
      (by simp [hcode, Block.flatten]) hpos'
      (fun x hx => by have := houter x hx; omega) (fun x hx => by have := hbound x hx; omega)
    refine ⟨scopes', hscopes', fun code => ?_⟩
    -- the body's blocks end with the loop, so the rest is read in the scopes of its header
    have hleave : inner.leave? = some scopes := by
      rw [Scopes.leave?, hinner]
      rfl
    have hlen : pos + (Block.loop range stride hrange body rest).flatten.length =
        pos + 1 + body.flatten.length + 1 + rest.flatten.length := by
      simp only [Block.flatten, List.length_cons, List.length_append]
      omega
    rw [hlen, Block.flatten, List.cons_append, List.append_assoc, List.cons_append, checkFrom_cons_eq_ok_iff,
      Block.scoped_loop houter, huse]
    simp only [checkInstr_loop_eq_ok_iff, hrange, true_and, exists_eq_left, hbody, checkFrom_cons_eq_ok_iff,
      checkInstr_close_eq_ok_iff, hleave, Option.some.injEq, exists_eq_left', hrest, and_assoc]

theorem exists_flatten_of_verifyBody {f : Nat} {fn : Function} (h : verifyBody f fn = .ok ()) :
    ∃ b : Block, b.flatten = fn.code := by
  rw [verifyBody_eq] at h
  obtain ⟨b, after, hlen, hcode⟩ := exists_flatten_of_checkFrom h
  obtain rfl : after = [] := List.eq_nil_of_length_eq_zero hlen
  exact ⟨b, by simp [hcode]⟩

/-- The body verifier accepts exactly the structured, well-scoped code. -/
theorem verifyBody_eq_ok_iff (f : Nat) (fn : Function) :
    verifyBody f fn = .ok () ↔ ∃ b : Block, b.flatten = fn.code ∧ b.WellScoped fn.inputs.length := by
  have hblock : ∀ b : Block, b.flatten = fn.code →
      (verifyBody f fn = .ok () ↔ b.WellScoped fn.inputs.length) := by
    intro b hb
    have hwhole : fn.code = [] ++ (b.flatten ++ []) := by simp [hb]
    have hempty : ∀ x : Nat, Scopes.Visible {} x → x < 0 := by simp [Scopes.Visible]
    obtain ⟨scopes', hscopes', hverify⟩ := checkFrom_flatten (f := f) b [] [] [] hwhole
      List.length_nil (by simp) hempty
    have hnone : fn.InScope {} = fun _ _ => False := by
      funext x kind
      simp [Function.InScope, Scopes.Visible]
    have hend : checkFrom f fn (0 + b.flatten.length) [] scopes' = .ok () := by
      rw [checkFrom, if_pos hscopes']
    have hiff := hverify []
    rw [List.append_nil, hb, hnone, ← Block.wellScoped_iff_scoped] at hiff
    rw [verifyBody_eq, hiff]
    exact ⟨fun h => h.1, fun h => ⟨h, hb ▸ hend⟩⟩
  constructor
  · intro h
    obtain ⟨b, hb⟩ := exists_flatten_of_verifyBody h
    exact ⟨b, hb, (hblock b hb).1 h⟩
  · rintro ⟨b, hb, hscoped⟩
    exact (hblock b hb).2 hscoped

end

end TensorLoom
