import TensorLoom.Proofs.Lowering.InBounds
/-
# Lowered functions store in order

Every function of a lowered program is loops around one store, and the strides of the
loops are those of their ranges. So a call stores every element of the output exactly
once, from the first to the last, where the open loops put it
(`performSteps_storesInOrder`). Over operands in place that is part of what it means to
compute a node; it carries over to all contents because offsets do not depend on them.
-/

namespace TensorLoom

namespace Lowering

variable {g : Graph} {l : Lowering} {nodes : List Nat}

/-- Every function stores the elements of its output in order, over buffers of their lengths. -/
theorem Sound.trace_inOrder (hs : Sound g l nodes) {fn : Function} (hfn : fn ∈ l.program.functions) :
    ∃ buffer, l.program.buffers[fn.output]? = some buffer ∧
      ∀ {α : Type} (A : Arith α) {cells : List Nat} {memory : Memory α}, l.program.SizedIn cells memory →
        ∃ memory' stores, fn.trace A cells memory = .ok (memory', stores) ∧ InOrder buffer.len stores := by
  obtain ⟨f, hf⟩ := List.mem_iff_getElem?.1 hfn
  obtain ⟨buffer, _, stores, hbuffer, htrace, horder⟩ := hs.trace_blank hf
  refine ⟨buffer, hbuffer, fun {α} A {cells memory} hcells => ?_⟩
  have halike := hcells.trace_blank (hs.verified hf) (hs.wired.present fn hfn) A
  rw [htrace] at halike
  generalize fn.trace A cells memory = x at halike
  cases halike with
  | @ok _ q heq =>
    obtain ⟨memory', _⟩ := q
    obtain rfl : stores = _ := heq
    exact ⟨memory', stores, rfl, horder⟩

end Lowering

/-- Whatever steps a program is built by, one execution of a function performs as many stores
as its output has elements, number `k` at offset `k`; and that offset is the sum, over the
loops open there, of index times stride. -/
theorem performSteps_storesInOrder {g : Graph} (hg : g.Built)
    (hsmall : g.SizesBelow 9223372036854775808)
    (steps : List Lowering.Step) :
    ∃ reports l, Session.performSteps g {} steps = .ok (reports, l) ∧
      ∀ fn ∈ l.program.functions, ∃ buffer, l.program.buffers[fn.output]? = some buffer ∧
        ∀ {α : Type} (A : Arith α) (cells : List Nat) (memory : Memory α),
          (∀ {b : Nat} {buffer : Buffer}, l.program.buffers[b]? = some buffer →
            ∃ c, cells[b]? = some c ∧ memory.lengths c = some buffer.len) →
          ∃ memory' stores, fn.run A cells memory = .ok memory' ∧ fn.trace A cells memory = .ok (memory', stores) ∧
            stores.length = buffer.len ∧
            ∀ {k : Nat} {store : StoreAt}, stores[k]? = some store → store.offset = k ∧ store.offset = store.strided := by
  obtain ⟨reports, l, nodes, hrun, hs, -⟩ := Lowering.performSteps_ok hg.wellFormed
    (hsmall.counts (by decide)) (Lowering.sound_empty g) steps
  refine ⟨reports, l, hrun, fun fn hfn => ?_⟩
  obtain ⟨buffer, hbuffer, htraces⟩ := hs.trace_inOrder hfn
  refine ⟨buffer, hbuffer, fun A cells memory hcells => ?_⟩
  obtain ⟨memory', stores, htrace, horder⟩ := htraces A ⟨hcells⟩
  refine ⟨memory', stores, Function.run_of_trace htrace, htrace, horder.length, fun hstore => ?_⟩
  obtain ⟨hoffset, hstrided⟩ := horder.store hstore
  exact ⟨hoffset, hoffset.trans hstrided.symm⟩

/-- A cube, summed along its middle axis, which stays with extent 1. -/
def middleSums : Graph := ⟨[⟨.input, [2, 2, 2]⟩, ⟨.reduce .sum 0 [1] true, [2, 1, 2]⟩]⟩

theorem middleSums_built : middleSums.Built := .call (.reduce .sum 0 [1] true) (.call (.input [2, 2, 2]) .empty rfl) rfl

/-- The sums are stored one after the other. -/
theorem performSteps_storesInOrder_middleSums :
    ∃ reports l fn memory' stores, Session.performSteps middleSums {} [.output 1] = .ok (reports, l) ∧
      fn ∈ l.program.functions ∧
      fn.trace Arith.natural [0, 1] #[#[1, 2, 3, 4, 5, 6, 7, 8], #[0, 0, 0, 0]] = .ok (memory', stores) ∧
      stores.length = 4 ∧
      ∀ {k : Nat} {store : StoreAt}, stores[k]? = some store → store.offset = k ∧ store.offset = store.strided := by
  have hsmall : middleSums.SizesBelow 9223372036854775808 := by
    intro id hid
    have hlt : id < 2 := hid
    interval_cases id <;> decide
  have hcheck : (Session.performSteps middleSums {} [.output 1]).toOption.any (fun r =>
      r.2.program.buffers.map Buffer.len == [8, 4] && r.2.program.functions.map Function.output == [1]) = true := by
    decide +kernel
  obtain ⟨reports, l, hrun, hfunctions⟩ := performSteps_storesInOrder middleSums_built hsmall [.output 1]
  rw [hrun] at hcheck
  obtain ⟨hlens, houtputs⟩ : l.program.buffers.map Buffer.len = [8, 4] ∧ l.program.functions.map Function.output = [1] := by
    simpa [Except.toOption] using hcheck
  obtain ⟨fn, hfns, hout⟩ : ∃ fn, l.program.functions = [fn] ∧ fn.output = 1 := by
    simpa [List.map_eq_cons_iff] using houtputs
  have hfn : fn ∈ l.program.functions := by simp [hfns]
  have hlen : ∀ {b : Nat} {buffer : Buffer}, l.program.buffers[b]? = some buffer → [8, 4][b]? = some buffer.len := by
    intro b buffer hb
    rw [← hlens, List.getElem?_map, hb, Option.map_some]
  obtain ⟨buffer, hbuffer, htraces⟩ := hfunctions fn hfn
  obtain ⟨memory', stores, -, htrace, hcount, hstores⟩ := htraces Arith.natural [0, 1]
    #[#[1, 2, 3, 4, 5, 6, 7, 8], #[0, 0, 0, 0]] fun {b buffer} hb => by
      have hlt : b < 2 := (List.getElem?_eq_some_iff.1 (hlen hb)).1
      interval_cases b
      · exact ⟨0, rfl, hlen hb⟩
      · exact ⟨1, rfl, hlen hb⟩
  have hfour : 4 = buffer.len := by simpa [hout] using hlen hbuffer
  exact ⟨reports, l, fn, memory', stores, hrun, hfn, htrace, hcount.trans hfour.symm, hstores⟩

end TensorLoom
