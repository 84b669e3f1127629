import TensorLoom.Kernel
import TensorLoom.Proofs.Machine.Safety
import TensorLoom.Proofs.Machine.Trace
/-
# Runs side by side

Two runs of a verified function, over two arithmetics and two memories, perform
corresponding stores and fault alike where what they read corresponds (`Simulates.record`).
For the offsets nothing has to correspond but the lengths of the buffers: they depend neither
on elements nor on where the buffers lie (`Simulates.lengths`).
-/

namespace TensorLoom

/-- Any fault is as good as any other. -/
def anyFault : Fault → Prop := fun _ => True

theorem matches_self {α : Type} (x : Except Fault α) : Matches anyFault Eq x x := by
  cases x with
  | ok a => exact .ok rfl
  | error e => exact .fault trivial

namespace Memory

variable {α : Type}

/-- Element number `offset` of a cell. -/
def read (memory : Memory α) (cell : Nat) (offset : Int) : Except Fault α :=
  match memory[cell]? with
  | some contents => elementAt contents offset
  | none => .error .buffer

/-- Overwrites element number `offset` of a cell. -/
def write (memory : Memory α) (cell : Nat) (offset : Int) (a : α) : Except Fault (Memory α) :=
  match memory[cell]? with
  | none => .error .buffer
  | some contents =>
    if offset < 0 ∨ contents.size ≤ offset.toNat then .error .element
    else .ok (memory.modify cell (·.setIfInBounds offset.toNat a))

end Memory

theorem Frame.write_eq {α : Type} (s : Frame α) (cell : Nat) (offset : Int) (a : α) :
    s.write cell offset a = (s.memory.write cell offset a).map fun memory => { s with memory := memory } := by
  unfold Frame.write Memory.write
  cases s.memory[cell]? with
  | none => rfl
  | some contents => by_cases h : offset < 0 ∨ contents.size ≤ offset.toNat <;> simp [h, Except.map]

/-! ## Simulation -/

section
variable {α β : Type}

/-- Elements of two runs are related by `E`, and their memories by `M`: operations keep
elements related, corresponding inputs yield related elements, and memories stay related
when related elements are stored in the outputs. -/
structure Simulates (A : Arith α) (B : Arith β) (w w' : Wiring) (E : α → β → Prop) (M : Memory α → Memory β → Prop) :
    Prop where
  lit : ∀ x, E (A.lit x) (B.lit x)
  unary : ∀ op {a b}, E a b → E (A.unary op a) (B.unary op b)
  binary : ∀ op {a a' b b'}, E a b → E a' b' → E (A.binary op a a') (B.binary op b b')
  fold : ∀ op {a a' b b'}, E a b → E a' b' → E (A.fold op a a') (B.fold op b b')
  read : ∀ {memory memory'}, M memory memory' → ∀ i : Nat, Option.Rel
    (fun c c' => ∀ k, Matches anyFault E (memory.read c k) (memory'.read c' k)) w.inputs[i]? w'.inputs[i]?
  write : ∀ {memory memory'}, M memory memory' → ∀ k {a b}, E a b →
    Matches anyFault M (memory.write w.output k a) (memory'.write w'.output k b)

/-- The frames have the same integers, related elements and related memories. -/
structure Frame.Alike (E : α → β → Prop) (M : Memory α → Memory β → Prop) (s : Frame α) (t : Frame β) : Prop where
  ints : s.ints = t.ints
  floats : ∀ x : Nat, Option.Rel E s.floats[x]? t.floats[x]?
  memory : M s.memory t.memory

/-- Stores of related elements at the same offset. -/
def StoredAlike (E : α → β → Prop) (x : Nat × Int × α) (y : Nat × Int × β) : Prop := x.2.1 = y.2.1 ∧ E x.2.2 y.2.2

/-- The stores so far are alike, and so is what is to come. -/
structure Recording.Alike (E : α → β → Prop) (M : Memory α → Memory β → Prop) (r : Recording α (Frame α))
    (q : Recording β (Frame β)) : Prop where
  stores : List.Forall₂ (StoredAlike E) r.stores q.stores
  outcome : Matches anyFault (Frame.Alike E M) r.outcome q.outcome

variable {A : Arith α} {B : Arith β} {w w' : Wiring} {E : α → β → Prop} {M : Memory α → Memory β → Prop}

namespace Frame.Alike

variable {s : Frame α} {t : Frame β}

theorem int (h : s.Alike E M t) (x : Nat) : Matches anyFault Eq (s.int x) (t.int x) := by
  rw [Frame.int, Frame.int, h.ints]
  exact matches_self _

theorem float (h : s.Alike E M t) (x : Nat) : Matches anyFault E (s.float x) (t.float x) := by
  have hx := h.floats x
  unfold Frame.float
  generalize s.floats[x]? = a, t.floats[x]? = b at hx ⊢
  cases hx with
  | none => exact .fault trivial
  | some hab => exact .ok hab

theorem setInt (h : s.Alike E M t) (x : Nat) (z : Int) : Matches anyFault (Alike E M) (s.setInt x z) (t.setInt x z) := by
  rw [Frame.setInt, Frame.setInt, h.ints]
  split
  · exact .ok ⟨rfl, h.floats, h.memory⟩
  · exact .fault trivial

theorem floats_lt (h : s.Alike E M t) (x : Nat) : x < s.floats.size ↔ x < t.floats.size := by
  have hx := h.floats x
  rw [← Nat.not_le, ← Nat.not_le, ← Array.getElem?_eq_none_iff, ← Array.getElem?_eq_none_iff]
  generalize s.floats[x]? = a, t.floats[x]? = b at hx ⊢
  cases hx <;> simp

theorem setFloat (h : s.Alike E M t) (x : Nat) {a : α} {b : β} (hab : E a b) :
    Matches anyFault (Alike E M) (s.setFloat x a) (t.setFloat x b) := by
  rw [Frame.setFloat, Frame.setFloat]
  by_cases hx : x < t.floats.size
  · rw [if_pos ((h.floats_lt x).2 hx), if_pos hx]
    refine .ok ⟨h.ints, fun y => ?_, h.memory⟩
    by_cases hxy : x = y
    · subst hxy
      simpa [hx, (h.floats_lt x).2 hx] using hab
    · simpa [Array.getElem?_setIfInBounds_ne hxy] using h.floats y
  · rw [if_neg (mt (h.floats_lt x).1 hx), if_neg hx]
    exact .fault trivial

end Frame.Alike

/-- One instruction on both sides. -/
theorem Simulates.act (h : Simulates A B w w' E M) {s : Frame α} {t : Frame β} (hst : s.Alike E M t) {i : Instr}
    (hplain : i.Plain) (pos : Nat) :
    Matches anyFault (Frame.Alike E M) (TensorLoom.act A w pos i s) (TensorLoom.act B w' pos i t) := by
  cases i with
  | loop => exact hplain.elim
  | close => exact hplain.elim
  | int value => exact hst.setInt pos value
  | arith op lhs rhs =>
    refine (hst.int lhs).bind ?_
    rintro a _ rfl
    refine (hst.int rhs).bind ?_
    rintro b _ rfl
    refine (matches_self (op.eval a b)).bind ?_
    rintro z _ rfl
    exact hst.setInt pos z
  | load input offset =>
    have hread := h.read hst.memory input
    simp only [TensorLoom.act]
    generalize w.inputs[input]? = c, w'.inputs[input]? = c' at hread ⊢
    cases hread with
    | none => exact .fault trivial
    | some hread =>
      refine (hst.int offset).bind ?_
      rintro k _ rfl
      exact (hread k).bind fun a b hab => hst.setFloat pos hab
  | store offset value =>
    refine (hst.int offset).bind ?_
    rintro k _ rfl
    refine (hst.float value).bind fun a b hab => ?_
    rw [Frame.write_eq, Frame.write_eq]
    exact (h.write hst.memory k hab).bind fun _ _ hm => .ok ⟨hst.ints, hst.floats, hm⟩
  | imm value => exact hst.setFloat pos (h.lit value)
  | unary op x => exact (hst.float x).bind fun _ _ hab => hst.setFloat pos (h.unary op hab)
  | binary op lhs rhs =>
    exact (hst.float lhs).bind fun _ _ hab => (hst.float rhs).bind fun _ _ hab' => hst.setFloat pos (h.binary op hab hab')
  | accumulate op acc x =>
    exact (hst.float acc).bind fun _ _ hab => (hst.float x).bind fun _ _ hab' => hst.setFloat acc (h.fold op hab hab')

theorem Recording.Alike.andThen {r : Recording α (Frame α)} {q : Recording β (Frame β)} (h : r.Alike E M q)
    {f : Frame α → Recording α (Frame α)} {g : Frame β → Recording β (Frame β)}
    (hfg : ∀ s t, s.Alike E M t → (f s).Alike E M (g t)) : (r.andThen f).Alike E M (q.andThen g) := by
  obtain ⟨stores, x⟩ := r
  obtain ⟨stores', y⟩ := q
  obtain ⟨hstores, hout⟩ := h
  simp only at hstores hout
  cases hout with
  | ok hst =>
    obtain ⟨hnew, hout'⟩ := hfg _ _ hst
    exact ⟨List.rel_append hstores hnew, hout'⟩
  | fault he => exact ⟨hstores, .fault he⟩

theorem Simulates.recordAct (h : Simulates A B w w' E M) {s : Frame α} {t : Frame β} (hst : s.Alike E M t) {i : Instr}
    (hplain : i.Plain) (pos : Nat) : (recordAct A w pos i s).Alike E M (recordAct B w' pos i t) := by
  have hstored : List.Forall₂ (StoredAlike E) (i.stored w s) (i.stored w' t) := by
    cases i with
    | store offset value =>
      have hint := (hst.int offset).eq
      have hfloat := hst.float value
      simp only [Instr.stored, hint]
      generalize t.int offset = k, s.float value = a, t.float value = b at hfloat ⊢
      cases k with
      | error e => exact .nil
      | ok k =>
        cases hfloat with
        | ok hab => exact .cons ⟨rfl, hab⟩ .nil
        | fault => exact .nil
    | _ => exact .nil
  have hact := h.act hst hplain pos
  unfold TensorLoom.recordAct
  generalize TensorLoom.act A w pos i s = x, TensorLoom.act B w' pos i t = y at hact ⊢
  cases hact with
  | ok hst' => exact ⟨hstored, .ok hst'⟩
  | fault he => exact ⟨.nil, .fault he⟩

theorem Simulates.lockstep (h : Simulates A B w w' E M) (fn : Function) :
    Lockstep fn anyFault (fun _ => Recording.Alike E M) (.recorder A w) (.recorder B w') where
  act hplain _ _ _ hr := .ok (hr.andThen fun _ _ hst => h.recordAct hst hplain _)
  enter _ hr := .ok (hr.andThen fun _ _ hst => ⟨.nil, hst.setInt _ _⟩)
  leave _ hr := .ok hr

/-- Fresh registers. -/
theorem Simulates.start (h : Simulates A B w w' E M) (n : Nat) {memory : Memory α} {memory' : Memory β}
    (hm : M memory memory') : Frame.Alike E M ⟨Array.replicate n 0, Array.replicate n (A.lit 0.0), memory⟩
      ⟨Array.replicate n 0, Array.replicate n (B.lit 0.0), memory'⟩ := by
  refine ⟨rfl, fun x => ?_, hm⟩
  simp only [Array.getElem?_replicate]
  split
  · exact .some (h.lit 0.0)
  · exact .none

/-- Two runs of a verified function. -/
theorem Simulates.record (h : Simulates A B w w' E M) {fn : Function} {f : Nat} (hverify : verifyBody f fn = .ok ())
    {cells cells' : List Nat} (hw : w.Of fn cells) (hw' : w'.Of fn cells') {memory : Memory α} {memory' : Memory β}
    (hm : M memory memory') :
    List.Forall₂ (StoredAlike E) (fn.record A (.zero A fn) cells memory).stores
        (fn.record B (.zero B fn) cells' memory').stores ∧
      Matches anyFault M (fn.run A cells memory) (fn.run B cells' memory') := by
  obtain ⟨b, hb⟩ := exists_flatten_of_verifyBody hverify
  have hstart : Frame.Alike E M ⟨(Registers.zero A fn).ints, (Registers.zero A fn).floats, memory⟩
      ⟨(Registers.zero B fn).ints, (Registers.zero B fn).floats, memory'⟩ := h.start _ hm
  obtain ⟨-, hbody⟩ := (h.lockstep fn).body hverify hb (s := .silent (.ok _)) (t := .silent (.ok _)) ⟨.nil, .ok hstart⟩
  rw [(recordBody_flatten A w b _).1, (recordBody_flatten B w' b _).1, hb] at hbody
  rw [← fn.outcome_record A hverify hw, ← fn.outcome_record B hverify hw', fn.record_wired A hw, fn.record_wired B hw']
  generalize recordBody A w fn.code _ = r, recordBody B w' fn.code _ = q at hbody ⊢
  obtain ⟨stores, x⟩ := r
  obtain ⟨stores', y⟩ := q
  obtain ⟨hstores, hout⟩ := hbody.of_ok
  simp only at hstores hout
  cases hout with
  | ok hst => exact ⟨by simpa [Recording.andThen, Recording.silent] using hstores, .ok hst.memory⟩
  | fault he => exact ⟨hstores, .fault he⟩

/-- The machine that lists its stores. -/
def Interpretation.tracer {α : Type} (A : Arith α) (w : Wiring) (code : List Instr) : Interpretation (Traced α) :=
  ⟨traceAct A w code, traceTurn, .ok⟩

/-- Two runs of a verified function store at the same offsets inside the same turns. -/
theorem Simulates.trace (h : Simulates A B w w' E M) {fn : Function} {f : Nat} (hverify : verifyBody f fn = .ok ())
    {cells cells' : List Nat} (hw : w.Of fn cells) (hw' : w'.Of fn cells') {memory : Memory α} {memory' : Memory β}
    (hm : M memory memory') :
    Matches anyFault (fun r q => M r.1 q.1 ∧ r.2 = q.2) (fn.trace A cells memory) (fn.trace B cells' memory') := by
  obtain ⟨b, hb⟩ := exists_flatten_of_verifyBody hverify
  have hlock : Lockstep fn anyFault (fun _ (t : Traced α) (u : Traced β) => t.frame.Alike E M u.frame ∧ t.stores = u.stores)
      (.tracer A w fn.code) (.tracer B w' fn.code) := by
    refine ⟨fun {pos i _ t u} hplain _ _ _ htu => ?_, fun {pos _ _ k _ t u} _ htu => ?_, fun _ htu => .ok htu⟩
    · have hstores : i.storesAt fn.code pos t.frame = i.storesAt fn.code pos u.frame := by
        cases i <;> simp only [Instr.storesAt, htu.1.ints]
      have hact := h.act htu.1 hplain pos
      simp only [Interpretation.tracer, traceAct]
      generalize TensorLoom.act A w pos i t.frame = x, TensorLoom.act B w' pos i u.frame = y at hact ⊢
      cases hact with
      | ok hst => exact .ok ⟨hst, by rw [hstores, htu.2]⟩
      | fault he => exact .fault he
    · have hturn : Matches anyFault (Frame.Alike E M) (turn pos k t.frame) (turn pos k u.frame) := htu.1.setInt _ _
      simp only [Interpretation.tracer, traceTurn]
      generalize turn pos k t.frame = x, turn pos k u.frame = y at hturn ⊢
      cases hturn with
      | ok hst => exact .ok ⟨hst, htu.2⟩
      | fault he => exact .fault he
  obtain ⟨-, hbody⟩ := hlock.body hverify hb (s := ⟨_, []⟩) (t := ⟨_, []⟩) ⟨h.start fn.code.length hm, rfl⟩
  rw [← b.walk_flatten (.tracer A w fn.code) rfl (Nat.le_refl _), ← b.walk_flatten (.tracer B w' fn.code) rfl (Nat.le_refl _),
    hb] at hbody
  unfold Function.trace
  rw [hw.inputs, hw.output, hw'.inputs, hw'.output]
  exact hbody.bind fun _ _ htu => .ok ⟨htu.1.memory, htu.2⟩

/-- Corresponding inputs are in corresponding cells. -/
theorem Wiring.Of.inputs_rel {fn : Function} {cells cells' : List Nat} (hw : w.Of fn cells) (hw' : w'.Of fn cells')
    {R : Nat → Nat → Prop} (h : ∀ b ∈ fn.inputs, ∀ c c', cells[b]? = some c → cells'[b]? = some c' → R c c') (i : Nat) :
    Option.Rel R w.inputs[i]? w'.inputs[i]? := by
  cases hb : fn.inputs[i]? with
  | none =>
    have hle := List.getElem?_eq_none_iff.1 hb
    rw [List.getElem?_eq_none (length_of_mapM hw.inputs ▸ hle),
      List.getElem?_eq_none (length_of_mapM hw'.inputs ▸ hle)]
    exact .none
  | some b =>
    obtain ⟨c, hc, hcell⟩ := getElem?_of_mapM hw.inputs hb
    obtain ⟨c', hc', hcell'⟩ := getElem?_of_mapM hw'.inputs hb
    rw [hc, hc']
    exact .some (h b (List.mem_of_getElem? hb) c c' (cellOf_eq_ok.1 hcell) (cellOf_eq_ok.1 hcell'))

end

/-! ## Buffers of the same lengths -/

/-- Both are there. -/
def both {α β : Type} : α → β → Prop := fun _ _ => True

section
variable {α β : Type} {w w' : Wiring}

/-- Cells of one length, if there are any. -/
theorem Memory.cell_cases {memory : Memory α} {memory' : Memory β} {c c' : Nat}
    (h : memory.lengths c = memory'.lengths c') :
    (memory[c]? = none ∧ memory'[c']? = none) ∨
      ∃ contents contents', memory[c]? = some contents ∧ memory'[c']? = some contents' ∧ contents.size = contents'.size := by
  unfold Memory.lengths at h
  cases hs : memory[c]? <;> cases ht : memory'[c']? <;> simp_all

theorem Memory.read_matches {memory : Memory α} {memory' : Memory β} {c c' : Nat} (h : memory.lengths c = memory'.lengths c')
    (k : Int) : Matches anyFault both (memory.read c k) (memory'.read c' k) := by
  rcases cell_cases h with ⟨hc, hc'⟩ | ⟨contents, contents', hc, hc', hsize⟩
  · simp only [read, hc, hc']
    exact .fault trivial
  · simp only [read, hc, hc', elementAt]
    split
    · exact .fault trivial
    · by_cases hk : k.toNat < contents'.size
      · rw [Array.getElem?_eq_getElem hk, Array.getElem?_eq_getElem (hsize ▸ hk)]
        exact .ok trivial
      · rw [Array.getElem?_eq_none (Nat.not_lt.1 hk), Array.getElem?_eq_none (hsize ▸ Nat.not_lt.1 hk)]
        exact .fault trivial

/-- What is written into cells of one length goes through on both sides or on none. -/
theorem Memory.write_matches {memory : Memory α} {memory' : Memory β} {c c' : Nat}
    (h : memory.lengths c = memory'.lengths c') (k : Int) (a : α) (b : β) :
    Matches anyFault (fun m m' => m = memory.modify c (·.setIfInBounds k.toNat a) ∧
      m' = memory'.modify c' (·.setIfInBounds k.toNat b)) (memory.write c k a) (memory'.write c' k b) := by
  rcases cell_cases h with ⟨hc, hc'⟩ | ⟨contents, contents', hc, hc', hsize⟩
  · simp only [write, hc, hc']
    exact .fault trivial
  · simp only [write, hc, hc', hsize]
    split
    · exact .fault trivial
    · exact .ok ⟨rfl, rfl⟩

/-- Where buffers have the same lengths, runs read and write at the same offsets. -/
theorem Simulates.lengths (A : Arith α) (B : Arith β) {lengths lengths' : Nat → Option Nat}
    (hin : ∀ i : Nat, Option.Rel (fun c c' => lengths c = lengths' c') w.inputs[i]? w'.inputs[i]?)
    (hout : lengths w.output = lengths' w'.output) :
    Simulates A B w w' both fun memory memory' => memory.lengths = lengths ∧ memory'.lengths = lengths' where
  lit _ := trivial
  unary _ _ _ _ := trivial
  binary _ _ _ _ _ _ _ := trivial
  fold _ _ _ _ _ _ _ := trivial
  read := by
    rintro memory memory' ⟨rfl, rfl⟩ i
    have hi := hin i
    generalize w.inputs[i]? = c, w'.inputs[i]? = c' at hi ⊢
    cases hi with
    | none => exact .none
    | some hc => exact .some (Memory.read_matches hc)
  write := by
    rintro memory memory' ⟨rfl, rfl⟩ k a b -
    refine (Memory.write_matches hout k a b).mono ?_
    rintro m m' ⟨rfl, rfl⟩
    exact ⟨Memory.lengths_modify .., Memory.lengths_modify ..⟩

/-- Two placements of a function's buffers in which they have the same lengths. -/
theorem Function.simulates_lengths {fn : Function} (A : Arith α) (B : Arith β) {cells cells' : List Nat} {memory : Memory α}
    {memory' : Memory β} (hcells : ∀ b ∈ fn.output :: fn.inputs, ∃ c c', cells[b]? = some c ∧ cells'[b]? = some c' ∧
      memory.lengths c = memory'.lengths c') :
    ∃ w w' : Wiring, w.Of fn cells ∧ w'.Of fn cells' ∧
      Simulates A B w w' both fun m m' => m.lengths = memory.lengths ∧ m'.lengths = memory'.lengths := by
  obtain ⟨w, hw⟩ := Wiring.exists_of fun b hb => (hcells b hb).imp fun c ⟨_, hc, _⟩ => hc
  obtain ⟨w', hw'⟩ : ∃ w' : Wiring, w'.Of fn cells' := Wiring.exists_of fun b hb => by
    obtain ⟨_, c', _, hc', _⟩ := hcells b hb
    exact ⟨c', hc'⟩
  have hlengths : ∀ b ∈ fn.output :: fn.inputs, ∀ c c', cells[b]? = some c → cells'[b]? = some c' →
      memory.lengths c = memory'.lengths c' := by
    intro b hb c c' hc hc'
    obtain ⟨d, d', hd, hd', heq⟩ := hcells b hb
    rwa [Option.some.inj (hd.symm.trans hc), Option.some.inj (hd'.symm.trans hc')] at heq
  exact ⟨w, w', hw, hw', Simulates.lengths A B
    (hw.inputs_rel hw' fun b hb => hlengths b (List.mem_cons_of_mem _ hb))
    (hlengths _ List.mem_cons_self _ _ (cellOf_eq_ok.1 hw.output) (cellOf_eq_ok.1 hw'.output))⟩

/-- Two runs of a verified function over buffers of the same lengths. -/
theorem Function.run_alike {fn : Function} {f : Nat} (hverify : verifyBody f fn = .ok ()) (A : Arith α) (B : Arith β)
    (cells cells' : List Nat) (memory : Memory α) (memory' : Memory β)
    (hcells : ∀ b ∈ fn.output :: fn.inputs, ∃ c c', cells[b]? = some c ∧ cells'[b]? = some c' ∧
      memory.lengths c = memory'.lengths c') :
    List.Forall₂ (StoredAlike both) (fn.record A (.zero A fn) cells memory).stores
        (fn.record B (.zero B fn) cells' memory').stores ∧
      Matches anyFault (fun m m' => m.lengths = memory.lengths ∧ m'.lengths = memory'.lengths) (fn.run A cells memory)
        (fn.run B cells' memory') := by
  obtain ⟨w, w', hw, hw', hsim⟩ := Function.simulates_lengths A B hcells
  exact hsim.record hverify hw hw' ⟨rfl, rfl⟩

end

/-- One element only; nothing depends on it. -/
def Arith.blank : Arith Unit := ⟨fun _ => (), fun _ _ => (), fun _ _ _ => (), fun _ _ _ => ()⟩

namespace Program

/-- The buffers of a program, each in the cell of its number. -/
def blank (p : Program) : Memory Unit := (p.buffers.map fun buffer => Array.replicate buffer.len ()).toArray

/-- The buffers have their lengths in memory. -/
structure SizedIn {α : Type} (p : Program) (cells : List Nat) (memory : Memory α) : Prop where
  cell : ∀ {b : Nat} {buffer : Buffer}, p.buffers[b]? = some buffer →
    ∃ c, cells[b]? = some c ∧ memory.lengths c = some buffer.len

/-- Blank buffers have the lengths of the program's buffers. -/
theorem SizedIn.lengths_blank {α : Type} {p : Program} {cells : List Nat} {memory : Memory α} (h : p.SizedIn cells memory)
    {b : Nat} (hb : b < p.buffers.length) :
    ∃ c c', (List.range p.buffers.length)[b]? = some c ∧ cells[b]? = some c' ∧ p.blank.lengths c = memory.lengths c' := by
  obtain ⟨c, hc, hlen⟩ := h.cell (List.getElem?_eq_getElem hb)
  refine ⟨b, c, List.getElem?_range hb, hc, ?_⟩
  rw [hlen]
  simp [Memory.lengths, blank, List.getElem?_eq_getElem hb]

/-- A function runs over buffers of their lengths as it does over blank ones. -/
theorem SizedIn.run_blank {α : Type} {p : Program} {cells : List Nat} {memory : Memory α} (h : p.SizedIn cells memory)
    {fn : Function} {f : Nat} (hverify : verifyBody f fn = .ok ()) (hpresent : ∀ b ∈ fn.output :: fn.inputs, b < p.buffers.length)
    (A : Arith α) :
    List.Forall₂ (StoredAlike both) (fn.record .blank (.zero .blank fn) (List.range p.buffers.length) p.blank).stores
        (fn.record A (.zero A fn) cells memory).stores ∧
      Matches anyFault (fun _ memory' => memory'.lengths = memory.lengths)
        (fn.run .blank (List.range p.buffers.length) p.blank) (fn.run A cells memory) := by
  have halike := Function.run_alike hverify .blank A (List.range p.buffers.length) cells p.blank memory fun b hb =>
    h.lengths_blank (hpresent b hb)
  exact ⟨halike.1, halike.2.mono fun hst => hst.2⟩

/-- It stores in the same order, too. -/
theorem SizedIn.trace_blank {α : Type} {p : Program} {cells : List Nat} {memory : Memory α} (h : p.SizedIn cells memory)
    {fn : Function} {f : Nat} (hverify : verifyBody f fn = .ok ()) (hpresent : ∀ b ∈ fn.output :: fn.inputs, b < p.buffers.length)
    (A : Arith α) :
    Matches anyFault (fun r q => r.2 = q.2) (fn.trace .blank (List.range p.buffers.length) p.blank)
      (fn.trace A cells memory) := by
  obtain ⟨w, w', hw, hw', hsim⟩ := Function.simulates_lengths .blank A fun b hb => h.lengths_blank (hpresent b hb)
  exact (hsim.trace hverify hw hw' ⟨rfl, rfl⟩).mono fun hst => hst.2

end Program

end TensorLoom
