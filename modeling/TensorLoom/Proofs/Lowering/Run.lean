import TensorLoom.Proofs.Lowering.Draft
import TensorLoom.Proofs.Program.Order
/-
# Running lowered programs

A sound program that passes the verifier runs, wherever its buffers lie as long as those
that are written lie alone. Afterwards every buffer that a function writes holds the value
of the function's node, taken at the contents of the leaves before the run, and nothing
else has changed (`Sound.run`).
-/

namespace TensorLoom

variable {α : Type}

/-- The buffers of a program in memory: leaves hold their contents, scratch has its length,
and no other buffer lies in the cell of one that is written. -/
structure Program.Placed (p : Program) (leaves : Leaves α) (cells : List Nat) (memory : Memory α) : Prop where
  leaf : ∀ {b n len : Nat} {linked : Bool}, p.buffers[b]? = some ⟨.leaf n linked, len⟩ →
    ∃ c, cells[b]? = some c ∧ memory[c]? = some (leaves n) ∧ (leaves n).size = len
  scratch : ∀ {b f len : Nat}, p.buffers[b]? = some ⟨.scratch f, len⟩ →
    ∃ c old, cells[b]? = some c ∧ memory[c]? = some old ∧ old.size = len
  alone : ∀ {f b c : Nat} {fn : Function}, p.functions[f]? = some fn → cells[fn.output]? = some c → cells[b]? = some c →
    b = fn.output

namespace Lowering

/-- What the memory holds after the first `k` functions. -/
structure After (g : Graph) (A : Arith α) (leaves : Leaves α) (p : Program) (nodes cells : List Nat) (start : Memory α)
    (k : Nat) (memory : Memory α) : Prop where
  size : memory.size = start.size
  written : ∀ {f id c : Nat} {fn : Function}, f < k → p.functions[f]? = some fn → nodes[f]? = some id →
    cells[fn.output]? = some c → memory[c]? = some (g.value A.toAlgebra leaves id).toArray
  other : ∀ {c : Nat}, (∀ f < k, ∀ fn, p.functions[f]? = some fn → cells[fn.output]? ≠ some c) → memory[c]? = start[c]?

section
variable {g : Graph} {A : Arith α} {leaves : Leaves α} {l : Lowering} {nodes cells : List Nat} {start memory : Memory α}

/-- A sound program is wired as the verifier demands. -/
theorem Sound.wired (hs : Sound g l nodes) : l.program.Wired where
  present fn hfn b hb := by
    obtain ⟨f, hf⟩ := List.mem_iff_getElem?.1 hfn
    obtain ⟨id, hid⟩ := hs.exists_node hf
    obtain ⟨hok, hwrites⟩ := hs.functions hf hid
    rcases List.mem_cons.1 hb with rfl | hb
    · rcases hwrites with ⟨len, hbuffer⟩ | ⟨n, linked, len, hbuffer, -⟩ <;> exact (List.getElem?_eq_some_iff.1 hbuffer).1
    · obtain ⟨n, hn⟩ := hok.inputs b hb
      exact Program.owner?_lt hn
  owned {b q len} hb := by
    obtain ⟨fn, -, hfn, hout, -⟩ := hs.scratch hb
    refine ⟨⟨fn, hfn, hout⟩, fun {k fn'} hfn' hout' => ?_⟩
    obtain ⟨id, hid⟩ := hs.exists_node hfn'
    rcases (hs.functions hfn' hid).2 with ⟨len', hbuffer⟩ | ⟨n, linked, len', hbuffer, -⟩ <;> rw [hout', hb] at hbuffer <;>
      cases hbuffer
    rfl
  behind {k b q len fn} hfn hb hbuffer := by
    obtain ⟨id, hid⟩ := hs.exists_node hfn
    obtain ⟨n, hn⟩ := (hs.functions hfn hid).1.inputs b hb
    rw [Program.owner?_scratch _ hbuffer] at hn
    have hlt := (List.getElem?_eq_some_iff.1 hn).1
    rw [List.length_take] at hlt
    omega

theorem Sound.verified (hs : Sound g l nodes) {k : Nat} {fn : Function} (hfn : l.program.functions[k]? = some fn) :
    verifyBody k fn = .ok () := by
  obtain ⟨id, hid⟩ := hs.exists_node hfn
  exact (hs.functions hfn hid).1.verified k

/-- A sound program with a result is valid unless a leaf is used after it was overwritten. -/
theorem Sound.valid (hs : Sound g l nodes) {out : Nat} (hout : l.program.output = some out)
    (hlt : out < l.program.buffers.length)
    (huntouched : ∀ {k : Nat} {fn : Function}, l.program.functions[k]? = some fn →
      (∀ b ∈ fn.inputs, l.program.Untouched k b) ∧ l.program.Untouched k fn.output) : l.program.Valid := by
  have hordered : l.program.Ordered := by
    refine ⟨hs.wired, ⟨out, hout, hlt⟩, ?_⟩
    rintro u f b ⟨hbehind, hleaf, ⟨fn, hfn, hwrites⟩, ⟨fn', hfn', hb⟩⟩
    rcases List.mem_cons.1 hb with rfl | hb
    · exact (huntouched hfn').2 hleaf u hbehind fn hfn hwrites
    · exact (huntouched hfn').1 b hb hleaf u hbehind fn hfn hwrites
  exact hordered.valid hs.verified

/-- A buffer that functions read holds its node until it is overwritten. -/
theorem After.holds (hg : g.WellFormed) (hs : Sound g l nodes) (hp : l.program.Placed leaves cells start) {k : Nat}
    (h : After g A leaves l.program nodes cells start k memory) {b n : Nat}
    (hb : l.program.owner? (nodes.take k) b = some n) (huntouched : l.program.Untouched k b) :
    ∃ c, cells[b]? = some c ∧ memory[c]? = some (g.value A.toAlgebra leaves n).toArray := by
  rcases Program.owner?_cases hb with ⟨linked, len, hleaf⟩ | ⟨f, len, hscratch, hf⟩
  · obtain ⟨c, hc, hmem, hsize⟩ := hp.leaf hleaf
    obtain ⟨-, hlen, node, hn, hisLeaf⟩ := hs.leaf hleaf
    refine ⟨c, hc, ?_⟩
    have hvalue : g.value A.toAlgebra leaves n = (leaves n).toList :=
      hg.value_leaf A.toAlgebra leaves hn hisLeaf (by rw [hsize, hlen, Graph.shapeAt_of_node? hn])
    rw [h.other fun f hf fn hfn hcell => ?_, hmem, hvalue, Array.toArray_toList]
    exact huntouched ⟨n, linked, len, hleaf⟩ f hf fn hfn (hp.alone hfn hcell hc).symm
  · obtain ⟨fn, id, hfn, hout, hid, -⟩ := hs.scratch hscratch
    obtain ⟨c, old, hc, -⟩ := hp.scratch hscratch
    rw [List.getElem?_take] at hf
    split at hf
    · rename_i hlt
      exact ⟨c, hc, h.written hlt hfn hf (hout ▸ hc)⟩
    · cases hf

/-- One more function runs. -/
theorem After.step (hg : g.WellFormed) (hs : Sound g l nodes) (hvalid : l.program.Valid)
    (hp : l.program.Placed leaves cells start) {k : Nat} (h : After g A leaves l.program nodes cells start k memory)
    {fn : Function} (hfn : l.program.functions[k]? = some fn) :
    ∃ memory', fn.run A cells memory = .ok memory' ∧ After g A leaves l.program nodes cells start (k + 1) memory' := by
  obtain ⟨id, hid⟩ := hs.exists_node hfn
  obtain ⟨hok, hwrites⟩ := hs.functions hfn hid
  have hallowed := hvalid.functions hfn
  -- the output has not been written yet, and has the size of the node
  obtain ⟨c, old, hc, hold, hsize⟩ : ∃ c old, cells[fn.output]? = some c ∧ start[c]? = some old ∧
      old.size = Shape.size (g.shapeAt id) := by
    rcases hwrites with ⟨len, hb⟩ | ⟨n, linked, len, hb, hshape⟩
    · obtain ⟨c, old, hc, hold, hsize⟩ := hp.scratch hb
      obtain ⟨-, id', -, -, hid', hlen⟩ := hs.scratch hb
      obtain rfl : id = id' := Option.some.inj (hid.symm.trans hid')
      exact ⟨c, old, hc, hold, hsize.trans hlen⟩
    · obtain ⟨c, hc, hold, hsize⟩ := hp.leaf hb
      obtain ⟨-, hlen, -⟩ := hs.leaf hb
      exact ⟨c, _, hc, hold, by rw [hsize, hlen, hshape]⟩
  have hfresh : memory[c]? = start[c]? := h.other fun f hf fn' hfn' hcell =>
    hvalid.output_ne hf hfn' hfn (hp.alone hfn hc hcell)
  have hlt : c < memory.size := (Array.getElem?_eq_some_iff.1 (hfresh.trans hold)).1
  obtain ⟨_, htrace, -⟩ := hok.computes A leaves cells memory c old (fun b hb => by
    obtain ⟨n, hn⟩ := hok.inputs b hb
    obtain ⟨c', hc', hmem⟩ := h.holds hg hs hp hn (hallowed.inputs b hb).1
    exact ⟨c', n, hc', Program.owner?_of_take hn, hmem, fun heq => hp.alone hfn hc (heq ▸ hc')⟩) hc (hfresh.trans hold) hsize
  refine ⟨_, Function.run_of_trace htrace, by rw [Array.size_setIfInBounds, h.size],
    fun {f id' c' fn'} hf hfn' hid' hc' => ?_, fun {c'} hc' => ?_⟩
  · rcases Nat.lt_succ_iff_lt_or_eq.1 hf with hf | rfl
    · have hne : c ≠ c' := by
        rintro rfl
        exact hvalid.output_ne hf hfn' hfn (hp.alone hfn hc hc')
      rw [Array.getElem?_setIfInBounds_ne hne]
      exact h.written hf hfn' hid' hc'
    · obtain rfl : fn = fn' := Option.some.inj (hfn.symm.trans hfn')
      obtain rfl : c = c' := Option.some.inj (hc.symm.trans hc')
      obtain rfl : id = id' := Option.some.inj (hid.symm.trans hid')
      rw [Array.getElem?_setIfInBounds_self_of_lt hlt]
  · have hne : c ≠ c' := fun heq => hc' k (Nat.lt_succ_self k) fn hfn (heq ▸ hc)
    rw [Array.getElem?_setIfInBounds_ne hne]
    exact h.other fun f hf fn' hfn' => hc' f (Nat.lt_succ_of_lt hf) fn' hfn'

/-- The functions from number `k` on run one after the other. -/
theorem After.steps (hg : g.WellFormed) (hs : Sound g l nodes) (hvalid : l.program.Valid)
    (hp : l.program.Placed leaves cells start) (fns : List Function) {k : Nat}
    (hfns : ∀ i, fns[i]? = l.program.functions[k + i]?) (h : After g A leaves l.program nodes cells start k memory) :
    ∃ memory', fns.foldlM (fun memory fn => fn.run A cells memory) memory = .ok memory' ∧
      After g A leaves l.program nodes cells start (k + fns.length) memory' := by
  induction fns generalizing k memory with
  | nil => exact ⟨memory, rfl, h⟩
  | cons fn fns ih =>
    obtain ⟨memory₁, hrun₁, h₁⟩ := h.step hg hs hvalid hp (hfns 0).symm
    have hrest : ∀ i, fns[i]? = l.program.functions[k + 1 + i]? := fun i => by
      rw [Nat.add_assoc, Nat.add_comm 1 i, ← hfns, List.getElem?_cons_succ]
    obtain ⟨memory₂, hrun₂, h₂⟩ := ih hrest h₁
    refine ⟨memory₂, ?_, ?_⟩
    · rw [List.foldlM_cons, hrun₁]
      exact hrun₂
    · rw [List.length_cons, Nat.add_comm fns.length 1, ← Nat.add_assoc]
      exact h₂

theorem Sound.run (hg : g.WellFormed) (hs : Sound g l nodes) (hvalid : l.program.Valid)
    (hp : l.program.Placed leaves cells start) :
    ∃ memory, l.program.run A cells start = .ok memory ∧
      After g A leaves l.program nodes cells start l.program.functions.length memory := by
  have hstart : After g A leaves l.program nodes cells start 0 start :=
    ⟨rfl, fun hf => absurd hf (Nat.not_lt_zero _), fun _ => rfl⟩
  have h := hstart.steps hg hs hvalid hp l.program.functions fun i => by rw [Nat.zero_add]
  rwa [Nat.zero_add] at h

end

end Lowering

end TensorLoom
