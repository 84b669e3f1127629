import TensorLoom.Proofs.Lowering.Simultaneous
import TensorLoom.Proofs.Machine.Simulation
/-
# Lowered code stays in bounds

Where code reads and writes, and which integers it computes, does not depend on elements
or on where the buffers lie: two runs over buffers of the same lengths fault alike
(`Function.run_alike`). So what is known about functions over one arithmetic and one
placement, that they run through, holds over all (`performSteps_inBounds`).
-/

namespace TensorLoom

namespace Lowering

variable {g : Graph} {l : Lowering} {nodes : List Nat}

theorem Sound.lengths (hs : Sound g l nodes) {b n : Nat} (hb : l.program.owner? nodes b = some n) :
    ∃ buffer, l.program.buffers[b]? = some buffer ∧ buffer.len = Shape.size (g.shapeAt n) := by
  rcases Program.owner?_cases hb with ⟨linked, len, hbuffer⟩ | ⟨f, len, hbuffer, hf⟩
  · exact ⟨_, hbuffer, (hs.leaf hbuffer).2.1⟩
  · obtain ⟨fn, id, -, -, hid, hlen⟩ := hs.scratch hbuffer
    exact ⟨_, hbuffer, by rw [hlen, Option.some.inj (hid.symm.trans hf)]⟩

/-- Blank memory holds the value of every node, for all values look alike. -/
theorem Sound.blank (hs : Sound g l nodes) {b n : Nat} (hb : l.program.owner? nodes b = some n) :
    l.program.blank[b]? = some (g.value Arith.blank.toAlgebra (fun _ => #[]) n).toArray := by
  obtain ⟨buffer, hbuffer, hlen⟩ := hs.lengths hb
  have hcell : l.program.blank[b]? = some (Array.replicate buffer.len ()) := by
    simp [Program.blank, hbuffer]
  rw [hcell, hlen]
  refine congrArg some (Array.ext (by simp [Graph.length_value]) fun i _ _ => rfl)

/-- Every function runs over blank memory, and stores each element of its output in order. -/
theorem Sound.trace_blank (hs : Sound g l nodes) {f : Nat} {fn : Function} (hfn : l.program.functions[f]? = some fn) :
    ∃ buffer memory stores, l.program.buffers[fn.output]? = some buffer ∧
      fn.trace .blank (List.range l.program.buffers.length) l.program.blank = .ok (memory, stores) ∧
      InOrder buffer.len stores := by
  obtain ⟨id, hid⟩ := hs.exists_node hfn
  obtain ⟨hok, hwrites⟩ := hs.functions hfn hid
  have hcell : ∀ {b n : Nat}, l.program.owner? nodes b = some n → (List.range l.program.buffers.length)[b]? = some b :=
    fun hb => List.getElem?_range (Program.owner?_lt hb)
  obtain ⟨n, hout, hshape⟩ : ∃ n, l.program.owner? nodes fn.output = some n ∧ g.shapeAt n = g.shapeAt id := by
    rcases hwrites with ⟨len, hb⟩ | ⟨n, linked, len, hb, hshape⟩
    · exact ⟨id, (Program.owner?_scratch nodes hb).trans hid, rfl⟩
    · exact ⟨n, Program.owner?_leaf nodes hb, hshape⟩
  obtain ⟨buffer, hbuffer, hlen⟩ := hs.lengths hout
  obtain ⟨stores, htrace, horder⟩ := hok.computes .blank (fun _ => #[]) (List.range l.program.buffers.length)
    l.program.blank fn.output _
    (fun b hb => by
      obtain ⟨m, hm⟩ := hok.inputs b hb
      have hm := Program.owner?_of_take hm
      exact ⟨b, m, hcell hm, hm, hs.blank hm, fun h => h⟩)
    (hcell hout) (hs.blank hout) (by simp [Graph.length_value, hshape])
  rw [← hshape, ← hlen] at horder
  exact ⟨buffer, _, stores, hbuffer, htrace, horder⟩

/-- Every function runs over buffers of their lengths, and leaves the lengths as they are. -/
theorem Sound.run_inBounds (hs : Sound g l nodes) {α : Type} (A : Arith α) {cells : List Nat} {memory : Memory α}
    (hcells : l.program.SizedIn cells memory) {fn : Function} (hfn : fn ∈ l.program.functions) :
    ∃ memory', fn.run A cells memory = .ok memory' ∧ memory'.lengths = memory.lengths := by
  obtain ⟨f, hf⟩ := List.mem_iff_getElem?.1 hfn
  obtain ⟨_, memory', _, _, htrace, _⟩ := hs.trace_blank hf
  have hrun := Function.run_of_trace htrace
  have halike := (hcells.run_blank (hs.verified hf) (hs.wired.present fn hfn) A).2
  rw [hrun] at halike
  generalize fn.run A cells memory = x at halike
  cases halike with
  | ok h => exact ⟨_, rfl, h⟩

/-- So do all functions, one after the other. -/
theorem Sound.run_program (hs : Sound g l nodes) {α : Type} (A : Arith α) {cells : List Nat} {memory : Memory α}
    (hcells : l.program.SizedIn cells memory) :
    ∃ memory', l.program.run A cells memory = .ok memory' ∧ memory'.lengths = memory.lengths := by
  -- function by function, the lengths being those of the start
  have hfold : ∀ (fns : List Function) (m : Memory α), (∀ fn ∈ fns, fn ∈ l.program.functions) → m.lengths = memory.lengths →
      ∃ m', fns.foldlM (fun memory fn => fn.run A cells memory) m = .ok m' ∧ m'.lengths = memory.lengths := by
    intro fns
    induction fns with
    | nil => exact fun m _ hm => ⟨m, rfl, hm⟩
    | cons fn fns ih =>
      intro m hfns hm
      obtain ⟨hfn, hfns⟩ := List.forall_mem_cons.1 hfns
      have hcells' : l.program.SizedIn cells m := ⟨fun hb => hm ▸ hcells.cell hb⟩
      obtain ⟨m₁, hrun₁, h₁⟩ := hs.run_inBounds A hcells' hfn
      obtain ⟨m₂, hrun₂, h₂⟩ := ih m₁ hfns (h₁.trans hm)
      refine ⟨m₂, ?_, h₂⟩
      rw [List.foldlM_cons, hrun₁]
      exact hrun₂
  exact hfold l.program.functions memory (fun _ h => h) rfl

end Lowering

/-- Whatever steps a program is built by, it runs through over buffers of their declared
lengths, wherever they lie and whatever they hold: every offset is in its buffer, and every
integer operation has a result. -/
theorem performSteps_inBounds {g : Graph} (hg : g.Built)
    (hsmall : g.SizesBelow 9223372036854775808)
    (steps : List Lowering.Step) :
    ∃ reports l, Session.performSteps g {} steps = .ok (reports, l) ∧
      ∀ {α : Type} (A : Arith α) (cells : List Nat) (memory : Memory α),
        (∀ {b : Nat} {buffer : Buffer}, l.program.buffers[b]? = some buffer →
          ∃ c, cells[b]? = some c ∧ memory.lengths c = some buffer.len) →
        ∃ memory', l.program.run A cells memory = .ok memory' ∧ memory'.lengths = memory.lengths := by
  obtain ⟨reports, l, nodes, hrun, hs, -⟩ := Lowering.performSteps_ok hg.wellFormed
    (hsmall.counts (by decide)) (Lowering.sound_empty g) steps
  exact ⟨reports, l, hrun, fun A cells memory hcells => hs.run_program A ⟨hcells⟩⟩

/-- All four buffers of the program lie in one cell. -/
theorem performSteps_inBounds_shared :
    ∃ reports l memory, Session.performSteps twoWeights {} twoUpdates = .ok (reports, l) ∧
      l.program.run Arith.natural [0, 0, 0, 0] #[#[1, 2, 3, 4]] = .ok memory ∧ memory.lengths 0 = some 4 := by
  have hcheck : (match Session.performSteps twoWeights {} twoUpdates with
    | .ok (_, l) => l.program.buffers.map Buffer.len == [4, 4, 4, 4]
    | .error _ => false) = true := by decide +kernel
  obtain ⟨reports, l, hrun, hinBounds⟩ := performSteps_inBounds twoWeights_built twoWeights_small twoUpdates
  rw [hrun] at hcheck
  have hlens : l.program.buffers.map Buffer.len = [4, 4, 4, 4] := by simpa using hcheck
  obtain ⟨memory, hmemory, hlengths⟩ := hinBounds Arith.natural [0, 0, 0, 0] #[#[1, 2, 3, 4]] fun {b buffer} hb => by
    have hlen := congrArg (·[b]?) hlens
    simp only [List.getElem?_map, hb, Option.map_some] at hlen
    have hlt : b < 4 := (List.getElem?_eq_some_iff.1 hlen.symm).1
    interval_cases b <;> exact ⟨0, rfl, hlen.symm⟩
  exact ⟨reports, l, memory, hrun, hmemory, by rw [hlengths]; rfl⟩

end TensorLoom
