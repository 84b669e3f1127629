import TensorLoom.Proofs.Machine.Stores
import TensorLoom.Proofs.Program.Order
/-
# Programs run again

A function stores at the same offsets in every run (`Program.SizedIn.offsets`). So what an
earlier run has left in scratch is overwritten before anyone reads it, and two runs of a
valid program from the same contents of the leaves, shared in the same way, leave the same
behind in all buffers, if scratch was the same at first where its writer never stores
(`Program.Prepared.run`).
-/

namespace TensorLoom

variable {α : Type}

/-! ## Functions -/

/-- Inputs hold the same elements, and the outputs have one length. -/
structure Wiring.SameIn (w w' : Wiring) (memory memory' : Memory α) : Prop where
  inputs : ∀ i : Nat, Option.Rel (fun c c' => memory[c]? = memory'[c']?) w.inputs[i]? w'.inputs[i]?
  output : memory.lengths w.output = memory'.lengths w'.output

/-- Runs that read the same elements store the same, if the outputs are among the inputs alike. -/
theorem Simulates.same (A : Arith α) {w w' : Wiring}
    (hshared : ∀ i : Nat, Option.Rel (fun c c' => c = w.output ↔ c' = w'.output) w.inputs[i]? w'.inputs[i]?) :
    Simulates A A w w' Eq (w.SameIn w') where
  lit _ := rfl
  unary _ _ _ h := h ▸ rfl
  binary _ _ _ _ _ h h' := h ▸ h' ▸ rfl
  fold _ _ _ _ _ h h' := h ▸ h' ▸ rfl
  read := by
    intro memory memory' hm i
    have hi := hm.inputs i
    generalize w.inputs[i]? = c, w'.inputs[i]? = c' at hi ⊢
    cases hi with
    | none => exact .none
    | some hc =>
      refine .some fun k => ?_
      rw [Memory.read, Memory.read, hc]
      exact matches_self _
  write := by
    rintro memory memory' hm k a _ rfl
    refine (Memory.write_matches hm.output k a a).mono ?_
    rintro m m' ⟨rfl, rfl⟩
    refine ⟨fun i => ?_, ?_⟩
    · have hi := hm.inputs i
      have hs := hshared i
      generalize w.inputs[i]? = c, w'.inputs[i]? = c' at hi hs ⊢
      cases hi with
      | none => exact .none
      | @some c c' hc =>
        have hiff : c = w.output ↔ c' = w'.output := by
          cases hs with
          | some h => exact h
        refine .some ?_
        simp only [Array.getElem?_modify, eq_comm (a := w.output), eq_comm (a := w'.output), hiff, hc]
    · rw [Memory.lengths_modify, Memory.lengths_modify]
      exact hm.output

/-- Two runs that read the same elements make the same stores, or the same fault. -/
theorem Simulates.run_same {A : Arith α} {w w' : Wiring} {M : Memory α → Memory α → Prop} (h : Simulates A A w w' Eq M)
    {fn : Function} {f : Nat} (hverify : verifyBody f fn = .ok ()) {cells cells' : List Nat} (hw : w.Of fn cells)
    (hw' : w'.Of fn cells') {memory memory' : Memory α} (hm : M memory memory') :
    Matches anyFault
      (fun m m' => m = memory.modify w.output (overwrite (fn.record A (.zero A fn) cells memory).stores) ∧
        m' = memory'.modify w'.output (overwrite (fn.record A (.zero A fn) cells memory).stores))
      (fn.run A cells memory) (fn.run A cells' memory') := by
  obtain ⟨hstores, hruns⟩ := h.record hverify hw hw' hm
  have hrun : ∀ m, fn.run A cells memory = .ok m → _ := fun m => fn.run_memory hverify hw
  have hrun' : ∀ m, fn.run A cells' memory' = .ok m → _ := fun m => fn.run_memory hverify hw'
  rw [← overwrite_congr hstores] at hrun'
  generalize fn.run A cells memory = x, fn.run A cells' memory' = y at hruns hrun hrun' ⊢
  cases hruns with
  | fault he => exact .fault he
  | ok => exact .ok ⟨hrun _ rfl, hrun' _ rfl⟩

namespace Program

variable {p : Program} {cells cells' : List Nat} {start start' memory memory' : Memory α} {k : Nat} {fn : Function}

/-- The offsets at which a function stores. -/
def offsets (p : Program) (fn : Function) : List Nat :=
  TensorLoom.offsets (fn.record .blank (.zero .blank fn) (List.range p.buffers.length) p.blank).stores

theorem SizedIn.offsets (h : p.SizedIn cells memory) {f : Nat} (hverify : verifyBody f fn = .ok ())
    (hpresent : ∀ b ∈ fn.output :: fn.inputs, b < p.buffers.length) (A : Arith α) :
    TensorLoom.offsets (fn.record A (.zero A fn) cells memory).stores = p.offsets fn :=
  (offsets_eq (h.run_blank hverify hpresent A).1).symm

/-! ## Programs -/

/-- The contents of a buffer. -/
def bufferIn (cells : List Nat) (memory : Memory α) (b : Nat) : Option (Array α) := (cells[b]?).bind fun c => memory[c]?

/-- Element number `i` of a buffer. -/
def elementIn (cells : List Nat) (memory : Memory α) (b i : Nat) : Option α :=
  (bufferIn cells memory b).bind fun contents => contents[i]?

/-- The buffer is a leaf, or scratch that one of the first `k` functions writes. -/
def Settled (p : Program) (k b : Nat) : Prop := ∃ buffer, p.buffers[b]? = some buffer ∧ ∀ q, buffer.source = .scratch q → q < k

/-- Buffers have their lengths, and scratch shares its cell with nothing. -/
structure Laid (p : Program) (cells : List Nat) (memory : Memory α) : Prop extends p.SizedIn cells memory where
  alone : ∀ {b b' q len : Nat}, p.buffers[b]? = some ⟨.scratch q, len⟩ → b' < p.buffers.length → cells[b']? = cells[b]? → b' = b

/-- Two memories to run a program in. Leaves hold the same and share cells in the same way,
and scratch holds the same where its writer does not store. -/
structure Prepared (p : Program) (cells cells' : List Nat) (start start' : Memory α) : Prop where
  left : p.Laid cells start
  right : p.Laid cells' start'
  shared : ∀ {b b' : Nat}, b < p.buffers.length → b' < p.buffers.length →
    (cells[b]? = cells[b']? ↔ cells'[b]? = cells'[b']?)
  leaf : ∀ {b : Nat}, p.IsLeaf b → bufferIn cells start b = bufferIn cells' start' b
  scratch : ∀ {b q len i : Nat} {fn : Function}, p.buffers[b]? = some ⟨.scratch q, len⟩ → p.functions[q]? = some fn →
    i ∉ p.offsets fn → elementIn cells start b i = elementIn cells' start' b i

/-- What no function changes: the lengths, the cells of no buffer, and scratch where its writer
does not store. -/
structure Spares (p : Program) (cells : List Nat) (start memory : Memory α) : Prop where
  lengths : memory.lengths = start.lengths
  other : ∀ {c : Nat}, (∀ b : Nat, cells[b]? ≠ some c) → memory[c]? = start[c]?
  scratch : ∀ {b q len i : Nat} {fn : Function}, p.buffers[b]? = some ⟨.scratch q, len⟩ → p.functions[q]? = some fn →
    i ∉ p.offsets fn → elementIn cells memory b i = elementIn cells start b i

/-- After `k` functions on both sides, settled buffers hold the same. -/
structure Reruns (p : Program) (cells cells' : List Nat) (start start' : Memory α) (k : Nat) (memory memory' : Memory α) :
    Prop where
  left : p.Spares cells start memory
  right : p.Spares cells' start' memory'
  settled : ∀ {b : Nat}, p.Settled k b → bufferIn cells memory b = bufferIn cells' memory' b

section
variable {b c : Nat}

theorem bufferIn_of_cell (hc : cells[b]? = some c) : bufferIn cells memory b = memory[c]? := by
  rw [bufferIn, hc]
  rfl

/-- Nothing but the output of function `k` is settled by it. -/
theorem Valid.settled_succ (h : p.Valid) (hfn : p.functions[k]? = some fn) (hb : p.Settled (k + 1) b) :
    p.Settled k b ∨ b = fn.output := by
  obtain ⟨⟨source, len⟩, hb, hq⟩ := hb
  cases source with
  | leaf n linked => exact .inl ⟨_, hb, nofun⟩
  | scratch q =>
    rcases Nat.lt_succ_iff_lt_or_eq.1 (hq q rfl) with hlt | rfl
    · exact .inl ⟨_, hb, by rintro _ ⟨⟩; exact hlt⟩
    · obtain ⟨fn', hfn', hout⟩ := h.owners hb
      obtain rfl := Option.some.inj (hfn.symm.trans hfn')
      exact .inr hout.symm

/-- In the end all buffers are settled. -/
theorem Valid.settled (h : p.Valid) (hb : b < p.buffers.length) : p.Settled p.functions.length b := by
  obtain ⟨⟨source, len⟩, hb⟩ : ∃ buffer, p.buffers[b]? = some buffer := ⟨_, List.getElem?_eq_getElem hb⟩
  refine ⟨_, hb, ?_⟩
  rintro q rfl
  obtain ⟨fn, hfn, -⟩ := h.owners hb
  exact (List.getElem?_eq_some_iff.1 hfn).1

theorem Spares.sized (h : p.Spares cells start memory) (hlaid : p.Laid cells start) : p.SizedIn cells memory :=
  ⟨fun hb => h.lengths ▸ hlaid.cell hb⟩

theorem Spares.step (h : p.Spares cells start memory) (hlaid : p.Laid cells start) (hvalid : p.Valid)
    (hfn : p.functions[k]? = some fn) (hc : cells[fn.output]? = some c) {stores : List (Nat × Int × α)}
    (hoffsets : TensorLoom.offsets stores = p.offsets fn) : p.Spares cells start (memory.modify c (overwrite stores)) := by
  refine ⟨by rw [Memory.lengths_overwrite, h.lengths], fun {d} hd => ?_, fun {b q len i fn'} hb hfn' hi => ?_⟩
  · have hne : c ≠ d := by
      rintro rfl
      exact hd _ hc
    rw [Array.getElem?_modify, if_neg hne]
    exact h.other hd
  · rw [← h.scratch hb hfn' hi]
    obtain ⟨d, hd, -⟩ := hlaid.cell hb
    rw [elementIn, elementIn, bufferIn_of_cell hd, bufferIn_of_cell hd, Array.getElem?_modify]
    split
    · rename_i hcd
      -- the output is this scratch buffer, and the function its writer
      have hout := hlaid.alone hb ((hvalid.functions hfn).present List.mem_cons_self) (hc.trans (hcd ▸ hd.symm))
      obtain rfl := (hvalid.ordered.owned hb).2 hfn hout
      obtain rfl := Option.some.inj (hfn.symm.trans hfn')
      rw [← hoffsets] at hi
      cases memory[d]? with
      | none => rfl
      | some contents => exact getElem?_overwrite hi contents
    · rfl

end

/-- Before function `k` runs its outputs are the same where it does not store. -/
theorem Reruns.output_eq (h : p.Reruns cells cells' start start' k memory memory')
    (hprepared : p.Prepared cells cells' start start') (hvalid : p.Valid) (hfn : p.functions[k]? = some fn) {i : Nat}
    (hi : i ∉ p.offsets fn) : elementIn cells memory fn.output i = elementIn cells' memory' fn.output i := by
  obtain ⟨-, ⟨source, len⟩, hb, hq⟩ := (hvalid.functions hfn).output
  cases source with
  | leaf n linked => rw [elementIn, elementIn, h.settled ⟨_, hb, nofun⟩]
  | scratch q =>
    obtain rfl := hq q rfl
    rw [h.left.scratch hb hfn hi, h.right.scratch hb hfn hi, hprepared.scratch hb hfn hi]

/-- Both sides have cells for a function, and who shares its output's cell on the one side shares
it on the other. -/
theorem Prepared.wirings (h : p.Prepared cells cells' start start') (hallowed : p.Allowed k fn) :
    ∃ w w' : Wiring, w.Of fn cells ∧ w'.Of fn cells' ∧
      ∀ {b c c' : Nat}, b < p.buffers.length → cells[b]? = some c → cells'[b]? = some c' → (c = w.output ↔ c' = w'.output) := by
  have hcell : ∀ b ∈ fn.output :: fn.inputs, ∃ c, cells[b]? = some c := fun b hb =>
    (h.left.cell (List.getElem?_eq_getElem (hallowed.present hb))).imp fun _ hc => hc.1
  have hcell' : ∀ b ∈ fn.output :: fn.inputs, ∃ c, cells'[b]? = some c := fun b hb =>
    (h.right.cell (List.getElem?_eq_getElem (hallowed.present hb))).imp fun _ hc => hc.1
  obtain ⟨w, hw⟩ := Wiring.exists_of hcell
  obtain ⟨w', hw'⟩ := Wiring.exists_of hcell'
  refine ⟨w, w', hw, hw', fun {b c c'} hb hc hc' => ?_⟩
  have hiff := h.shared hb (hallowed.present List.mem_cons_self)
  rwa [hc, hc', cellOf_eq_ok.1 hw.output, cellOf_eq_ok.1 hw'.output, Option.some.injEq, Option.some.injEq] at hiff

/-- Before function `k` runs it finds the same elements on both sides. -/
theorem Reruns.sameIn (h : p.Reruns cells cells' start start' k memory memory')
    (hprepared : p.Prepared cells cells' start start') (hallowed : p.Allowed k fn) {w w' : Wiring} (hw : w.Of fn cells)
    (hw' : w'.Of fn cells') : w.SameIn w' memory memory' := by
  refine ⟨hw.inputs_rel hw' fun b hb c c' hc hc' => ?_, ?_⟩
  · rw [← bufferIn_of_cell hc, ← bufferIn_of_cell hc']
    exact h.settled (hallowed.inputs b hb).2
  · have hbuffer := List.getElem?_eq_getElem (hallowed.present List.mem_cons_self)
    obtain ⟨c, hc, hlen⟩ := hprepared.left.cell hbuffer
    obtain ⟨c', hc', hlen'⟩ := hprepared.right.cell hbuffer
    rw [Option.some.inj ((cellOf_eq_ok.1 hw.output).symm.trans hc),
      Option.some.inj ((cellOf_eq_ok.1 hw'.output).symm.trans hc'), h.left.lengths, h.right.lengths, hlen, hlen']

/-- One function on both sides. -/
theorem Reruns.step (h : p.Reruns cells cells' start start' k memory memory') (hprepared : p.Prepared cells cells' start start')
    (hvalid : p.Valid) (hfn : p.functions[k]? = some fn) (A : Arith α) :
    Matches anyFault (p.Reruns cells cells' start start' (k + 1)) (fn.run A cells memory) (fn.run A cells' memory') := by
  have hallowed := hvalid.functions hfn
  have hpresent : ∀ b ∈ fn.output :: fn.inputs, b < p.buffers.length := fun b hb => hallowed.present hb
  have hsized := h.left.sized hprepared.left
  have hsized' := h.right.sized hprepared.right
  have hoffsets := hsized.offsets hallowed.body hpresent A
  obtain ⟨w, w', hw, hw', hshared⟩ := hprepared.wirings hallowed
  have hout := cellOf_eq_ok.1 hw.output
  have hout' := cellOf_eq_ok.1 hw'.output
  have hsim := Simulates.same A (hw.inputs_rel hw' fun b hb _ _ => hshared (hpresent b (List.mem_cons_of_mem _ hb)))
  refine (hsim.run_same hallowed.body hw hw' (h.sameIn hprepared hallowed hw hw')).mono ?_
  rintro _ _ ⟨rfl, rfl⟩
  refine ⟨h.left.step hprepared.left hvalid hfn hout hoffsets, h.right.step hprepared.right hvalid hfn hout' hoffsets, ?_⟩
  intro b hb
  obtain ⟨buffer, hbuffer, -⟩ := id hb
  obtain ⟨c, hc, hlen⟩ := hsized.cell hbuffer
  obtain ⟨c', hc', hlen'⟩ := hsized'.cell hbuffer
  have hiff := hshared (List.getElem?_eq_some_iff.1 hbuffer).1 hc hc'
  rw [bufferIn_of_cell hc, bufferIn_of_cell hc', Array.getElem?_modify, Array.getElem?_modify]
  by_cases hcw : c = w.output
  · obtain rfl := hcw
    obtain rfl := hiff.1 rfl
    obtain ⟨contents, hcontents, hsize⟩ := Option.map_eq_some_iff.1 hlen
    obtain ⟨contents', hcontents', hsize'⟩ := Option.map_eq_some_iff.1 hlen'
    rw [if_pos rfl, if_pos rfl, hcontents, hcontents', Option.map_some, Option.map_some]
    refine congrArg some (overwrite_eq (hsize.trans hsize'.symm) fun i hi => ?_)
    have hsame := h.output_eq hprepared hvalid hfn (hoffsets ▸ hi)
    rwa [elementIn, elementIn, bufferIn_of_cell hout, bufferIn_of_cell hout', hcontents, hcontents'] at hsame
  · rw [if_neg (Ne.symm hcw), if_neg (Ne.symm (mt hiff.2 hcw)), ← bufferIn_of_cell hc, ← bufferIn_of_cell hc']
    rcases hvalid.settled_succ hfn hb with hsettled | rfl
    · exact h.settled hsettled
    · exact absurd (Option.some.inj (hc.symm.trans hout)) hcw

/-- Functions from number `k` on, on both sides. -/
theorem Reruns.steps (h : p.Reruns cells cells' start start' k memory memory') (hprepared : p.Prepared cells cells' start start')
    (hvalid : p.Valid) (A : Arith α) {fns : List Function} (hfns : ∀ i : Nat, fns[i]? = p.functions[k + i]?) :
    Matches anyFault (p.Reruns cells cells' start start' (k + fns.length))
      (fns.foldlM (fun memory fn => fn.run A cells memory) memory)
      (fns.foldlM (fun memory fn => fn.run A cells' memory) memory') := by
  induction fns generalizing k memory memory' with
  | nil => exact .ok h
  | cons fn fns ih =>
    rw [List.foldlM_cons, List.foldlM_cons, List.length_cons, Nat.add_comm fns.length, ← Nat.add_assoc]
    refine (h.step hprepared hvalid (hfns 0).symm A).bind fun m m' hm => ih hm fun i => ?_
    rw [Nat.add_assoc, Nat.add_comm 1, ← hfns (i + 1)]
    rfl

/-- A program run in two memories leaves the same in all buffers, or faults in both. -/
theorem Prepared.run (h : p.Prepared cells cells' start start') (hvalid : p.Valid) (A : Arith α) :
    Matches anyFault
      (fun memory memory' => p.Spares cells start memory ∧ p.Spares cells' start' memory' ∧
        ∀ b < p.buffers.length, bufferIn cells memory b = bufferIn cells' memory' b)
      (p.run A cells start) (p.run A cells' start') := by
  have hstart : p.Reruns cells cells' start start' 0 start start' := by
    refine ⟨⟨rfl, fun _ => rfl, fun _ _ _ => rfl⟩, ⟨rfl, fun _ => rfl, fun _ _ _ => rfl⟩, ?_⟩
    rintro b ⟨⟨source, len⟩, hb, hq⟩
    cases source with
    | leaf n linked => exact h.leaf ⟨n, linked, len, hb⟩
    | scratch q => exact absurd (hq q rfl) (Nat.not_lt_zero q)
  have hfns : ∀ i : Nat, p.functions[i]? = p.functions[0 + i]? := fun i => by rw [Nat.zero_add]
  have hsteps := hstart.steps h hvalid A hfns
  rw [Nat.zero_add] at hsteps
  exact hsteps.mono fun hm => ⟨hm.left, hm.right, fun b hb => hm.settled (hvalid.settled hb)⟩

end Program

end TensorLoom
