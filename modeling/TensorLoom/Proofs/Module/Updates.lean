import TensorLoom.Proofs.Machine.Accesses
import TensorLoom.Proofs.Module.Execute
/-
# Leaves that are updated in place

The verifier keeps functions away from a leaf that was updated before them, but it tells leaves
apart by their buffers, and two of these may be bound to one storage. So a function loads
from a storage that an earlier one has updated only through another buffer that shares it,
and everywhere else it loads what the storage held before the execution
(`Module.loads_before_updates`). Sharing does make the difference
(`Module.loads_shared_update`).
-/

namespace TensorLoom

variable {α : Type}

namespace Program

/-- The buffer is that of a leaf, which is bound to the storage. -/
def LiesIn (p : Program) (st : Store α) (b : BufferId) (s : StorageId) : Prop :=
  ∃ n linked len, p.buffers[b]? = some ⟨.leaf n linked, len⟩ ∧ st.bound? n = some s

/-- Two buffers are bound to one storage. -/
def Shares (p : Program) (st : Store α) (b b' : BufferId) : Prop := b ≠ b' ∧ ∃ s, p.LiesIn st b s ∧ p.LiesIn st b' s

theorem LiesIn.isLeaf {p : Program} {st : Store α} {b : BufferId} {s : StorageId} (h : p.LiesIn st b s) : p.IsLeaf b := by
  obtain ⟨n, linked, len, hb, -⟩ := h
  exact ⟨n, linked, len, hb⟩

end Program

namespace Module

section
variable {m : Module α} {st : Store α} {held : List StorageId} {storages : List (Option StorageId)}

/-- What lies among the storages is a leaf. -/
theorem Resolved.liesIn (h : m.Resolved st held storages) {b c : Nat} (hc : (cells st storages)[b]? = some c)
    (hlt : c < st.contents.size) : m.program.LiesIn st b c := by
  have hb : b < m.program.buffers.length := h.length_cells ▸ (List.getElem?_eq_some_iff.1 hc).1
  obtain ⟨⟨source, len⟩, hbuffer⟩ : ∃ buffer, m.program.buffers[b]? = some buffer := ⟨_, List.getElem?_eq_getElem hb⟩
  cases source with
  | scratch f =>
    have heq : c = st.contents.size + b := Option.some.inj (hc.symm.trans (h.cell_scratch hbuffer))
    omega
  | leaf n linked =>
    obtain ⟨s, hstorage, hbound, -⟩ := h.leaf hbuffer
    obtain rfl : c = s := Option.some.inj (hc.symm.trans (getElem?_cells hstorage))
    exact ⟨n, linked, len, hbuffer, hbound⟩

/-- Behind a function that stores in a storage, others come to it through other buffers. -/
theorem Resolved.shares (h : m.Resolved st held storages) (hvalid : m.program.Valid) {x y : Nat × Int × Touch α}
    (hx : m.program.Issues (cells st storages) 0 x) (hy : m.program.Issues (cells st storages) 0 y)
    (hstores : x.2.2.stores = true) (hloads : y.2.2.stores = false) (hlt : x.2.2.function < y.2.2.function) (hcell : x.1 = y.1)
    (hs : x.1 < st.contents.size) : m.program.Shares st x.2.2.buffer y.2.2.buffer := by
  obtain ⟨fn, hfn, -, hbuffer, hc⟩ := hx.through
  obtain ⟨fn', hfn', -, hbuffer', hc'⟩ := hy.through
  rw [hstores, if_pos rfl] at hbuffer
  rw [hloads, if_neg Bool.false_ne_true] at hbuffer'
  have hlies := h.liesIn hc hs
  refine ⟨fun heq => ?_, x.1, hlies, hcell ▸ h.liesIn hc' (hcell ▸ hs)⟩
  exact hvalid.ordered.apart
    ⟨hlt, hlies.isLeaf, ⟨fn, hfn, hbuffer.symm⟩, ⟨fn', hfn', List.mem_cons_of_mem _ (heq ▸ hbuffer')⟩⟩

/-- A buffer that is not shared with one that was stored in, and is not the function's output,
lies in a storage that nothing was stored in. -/
theorem Resolved.ne_cell (h : m.Resolved st held storages) (hvalid : m.program.Valid) {x y : Nat × Int × Touch α}
    (hx : m.program.Issues (cells st storages) 0 x) (hy : m.program.Issues (cells st storages) 0 y)
    (hstores : x.2.2.stores = true) (hloads : y.2.2.stores = false) (hle : x.2.2.function ≤ y.2.2.function)
    (hs : y.1 < st.contents.size) (hother : ∀ fn, m.program.functions[y.2.2.function]? = some fn → fn.output ≠ y.2.2.buffer)
    (hunshared : ¬ m.program.Shares st x.2.2.buffer y.2.2.buffer) : x.1 ≠ y.1 := by
  intro hcell
  rcases Nat.lt_or_eq_of_le hle with hlt | heq
  · exact hunshared (h.shares hvalid hx hy hstores hloads hlt hcell (hcell ▸ hs))
  · -- both accesses are of one function
    obtain ⟨fn, hfn, -, hbuffer, hc⟩ := hx.through
    obtain ⟨fn', hfn', -, -, hc'⟩ := hy.through
    rw [hstores, if_pos rfl] at hbuffer
    have hne : x.2.2.buffer ≠ y.2.2.buffer := hbuffer ▸ hother fn (heq ▸ hfn)
    exact hunshared ⟨hne, y.1, hcell ▸ h.liesIn hc (hcell ▸ hs), h.liesIn hc' hs⟩

/-- A function loads from a storage that an earlier one has stored in only through a buffer that
shares it with the updated one. A function that is not itself the update loads what was there
before the execution from every buffer that is not shared with an updated one. -/
theorem loads_before_updates (hverify : m.program.verify = .ok ()) (A : Arith α) (hresolve : m.resolve st held = .ok storages) :
    let run := m.program.observe A (cells st storages) (st.contents ++ m.scratch)
    (m.Interpreted A → m.execute st held = run.outcome.map fun memory => (.ok (), m.after st memory)) ∧
    (∀ (i j c : Nat) (k k' : Int) (t t' : Touch α), i < j → run.stores[i]? = some (c, k, t) → run.stores[j]? = some (c, k', t') →
      t.stores = true → t'.stores = false → t.function < t'.function → c < st.contents.size →
      m.program.Shares st t.buffer t'.buffer) ∧
    ∀ (c : Nat) (k : Int) (t : Touch α), (c, k, t) ∈ run.stores → t.stores = false → c < st.contents.size →
      (∀ fn, m.program.functions[t.function]? = some fn → fn.output ≠ t.buffer) →
      (∀ f fn, f ≤ t.function → m.program.functions[f]? = some fn → ¬ m.program.Shares st fn.output t.buffer) →
      elementAt (st.values c) k = .ok t.element := by
  have hvalid := Program.verify_eq_ok_iff.1 hverify
  have hresolved := resolve_eq_ok hresolve
  obtain ⟨hout, hobs, hord⟩ := hvalid.observe (A := A) hresolved.length_cells (st.contents ++ m.scratch)
  refine ⟨?_, ?_, ?_⟩
  · intro hkernel
    rw [execute_eq hresolve, hkernel]
    exact congrArg (Except.map _) hout.symm
  · rintro i j c k k' t t' - hi hj hstores hloads hlt hs
    have hx := hobs.each _ (List.mem_of_getElem? hi)
    have hy := hobs.each _ (List.mem_of_getElem? hj)
    exact hresolved.shares hvalid hx hy hstores hloads hlt rfl hs
  · intro c k t hmem hloads hs hother hunshared
    obtain ⟨before, behind, hlog⟩ := List.append_of_mem hmem
    have hread := hobs.faithful _ _ _ _ _ hlog hloads
    -- nothing before this load has stored in the cell
    have hkept : ∀ x ∈ before, x.2.2.stores = true → x.1 ≠ c := by
      intro x hx hstores
      rw [hlog] at hord
      have hle := (List.pairwise_append.1 hord).2.2 x hx (c, k, t) List.mem_cons_self
      have hissued := hobs.each x (hlog ▸ List.mem_append_left _ hx)
      obtain ⟨fn, hfn, -, hbuffer, -⟩ := hissued.through
      rw [hstores, if_pos rfl] at hbuffer
      exact hresolved.ne_cell hvalid hissued (hobs.each _ hmem) hstores hloads hle hs hother
        (hbuffer ▸ hunshared _ fn hle hfn)
    rwa [Memory.read, getElem?_replay hkept, Array.getElem?_append_left hs, getElem?_contents hs] at hread

end

/-- A leaf is doubled in place, and then another one is copied. -/
def updateFirst : Program where
  functions := [
    ⟨[.loop 1 1, .int 0, .load 0 1, .binary .add 2 2, .int 0, .store 4 3, .close], [0], 0⟩,
    ⟨[.loop 1 1, .int 0, .load 0 1, .int 0, .store 3 2, .close], [1], 2⟩]
  buffers := [⟨.leaf 0 true, 1⟩, ⟨.leaf 1 true, 1⟩, ⟨.scratch 1, 1⟩]
  output := some 2

/-- The module of `updateFirst`, with scratch that is all zeros. -/
def updater : Module Float := ⟨updateFirst, .machine .double updateFirst, #[#[], #[], #[0.0]], [none, none, none]⟩

/-- Both leaves are bound to the one storage. -/
def oneStorage : Store Float := { contents := #[#[1.0]], names := [("t", 0)], bindings := [(0, 0), (1, 0)] }

/-- The copy loads what the update has stored, and not what was there before. -/
theorem loads_shared_update :
    let run := updateFirst.observe .double [0, 0, 3] (oneStorage.contents ++ updater.scratch)
    updateFirst.verify = .ok () ∧ updater.resolve oneStorage [] = .ok [some 0, some 0, none] ∧
    cells oneStorage [some 0, some 0, none] = [0, 0, 3] ∧
    (∃ t t', run.stores[1]? = some (0, 0, t) ∧ run.stores[2]? = some (0, 0, t') ∧ t.stores = true ∧ t'.stores = false ∧
      t.function = 0 ∧ t'.function = 1 ∧ elementAt (oneStorage.values 0) 0 = .ok 1.0 ∧ t'.element = 2.0) ∧
    ∃ m' st', updater.execute oneStorage [] = .ok (.ok (), m', st') ∧ m'.output = #[2.0] := by
  refine ⟨by decide, by decide, by decide, ⟨_, _, rfl, rfl, rfl, rfl, rfl, rfl, rfl, ?_⟩, _, _, rfl, ?_⟩
  · decide +kernel
  · decide +kernel

/-- The leaves are bound to storages of their own. -/
def twoCells : Store Float :=
  { contents := #[#[1.0], #[5.0]], names := [("t", 0), ("u", 1)], bindings := [(0, 0), (1, 1)] }

/-- The copy loads what was there before where the leaves do not share a storage. -/
theorem loads_before_updates_apart :
    updateFirst.verify = .ok () ∧
    updater.resolve twoCells [] = .ok [some 0, some 1, none] ∧
    (1, 0, ⟨1, 1, false, 5.0⟩) ∈ (updateFirst.observe .double (cells twoCells [some 0, some 1, none])
      (twoCells.contents ++ updater.scratch)).stores ∧
    elementAt (twoCells.values 1) 0 = .ok 5.0 := by
  have hverify : updateFirst.verify = .ok () := by decide
  have hresolve : updater.resolve twoCells [] = .ok [some 0, some 1, none] := by decide
  have hloads := (loads_before_updates hverify .double hresolve).2.2
  have hmem : (1, 0, ⟨1, 1, false, 5.0⟩) ∈ (updateFirst.observe .double (cells twoCells [some 0, some 1, none])
      (twoCells.contents ++ updater.scratch)).stores := List.mem_of_getElem? (i := 2) rfl
  refine ⟨hverify, hresolve, hmem, hloads 1 0 ⟨1, 1, false, 5.0⟩ hmem rfl (by decide) ?_ ?_⟩
  · rintro fn ⟨⟩
    decide
  · -- the buffers of the two leaves lie in different storages, and the third is no leaf
    rintro f fn hf hfn ⟨-, s, ⟨n, linked, len, hb, hbound⟩, n', linked', len', hb', hbound'⟩
    cases hb'
    cases hbound'
    rcases Nat.le_one_iff_eq_zero_or_eq_one.1 hf with rfl | rfl <;> cases hfn <;> cases hb
    cases hbound

end Module

end TensorLoom
