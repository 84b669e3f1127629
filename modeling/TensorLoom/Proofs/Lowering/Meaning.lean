import Mathlib.Tactic.IntervalCases
import TensorLoom.Proofs.Lowering.Request
import TensorLoom.Proofs.Module.Execute
/-
# Lowering keeps the meaning of graphs

The program of a node leaves the value of the node in its result and changes no storage
(`lower_value`).
-/

namespace TensorLoom

variable {α : Type}

/-- Every leaf of the graph is bound to a live storage of its length that nobody holds. -/
def Store.Binds (st : Store α) (g : Graph) (held : List StorageId) : Prop :=
  ∀ {n : Nat} {node : Node}, g.node? n = some node → node.kind.isLeaf = true →
    ∃ s, st.bound? n = some s ∧ (st.values s).size = Shape.size node.shape ∧ s ∉ held

namespace Lowering

variable {g : Graph} {l : Lowering} {nodes : List Nat}

theorem sound_empty (g : Graph) : Sound g {} [] := by
  constructor <;> simp

theorem Sound.canRun (hs : Sound g l nodes) {m : Module α} (hm : m.program = l.program) {st : Store α}
    {held : List StorageId} (h : st.Binds g held) : m.CanRun st held := by
  intro b n len linked hb
  obtain ⟨hlinked, hlen, node, hn, hleaf⟩ := hs.leaf (hm ▸ hb)
  rw [hlen, Graph.shapeAt_of_node? hn]
  exact ⟨hlinked, h hn hleaf⟩

/-- A leaf that the program overwrites was assigned a node. -/
theorem Sound.assigns (hs : Sound g l nodes) {n : Nat} (h : l.program.Overwrites n) : ∃ v, Assigns l.program nodes n v := by
  obtain ⟨fn, hfn, linked, len, hb⟩ := h
  obtain ⟨f, hf⟩ := List.mem_iff_getElem?.1 hfn
  obtain ⟨v, hv⟩ := hs.exists_node hf
  exact ⟨v, f, fn, linked, len, hf, hv, hb⟩

end Lowering

/-- The contents of a result in scratch. -/
theorem Module.output_eq {m : Module α} {b f len : Nat} {contents : Array α} (hout : m.program.output = some b)
    (hb : m.program.buffers[b]? = some ⟨.scratch f, len⟩) (h : m.scratch[b]? = some contents) : m.output = contents := by
  simp [Module.output, hout, Module.buffer?, hb, h]

/-- An execution that overwrites no leaf leaves the store as it was. -/
theorem Module.Executed.store_eq {g : Graph} {A : Arith α} {nodes : List Nat} {m m' : Module α} {st st' : Store α}
    (h : Module.Executed g A nodes m st m' st') (hnone : ∀ n, ¬ m.program.Overwrites n) : st' = st := by
  obtain ⟨contents', names', bindings'⟩ := st'
  obtain ⟨contents, names, bindings⟩ := st
  obtain rfl : names' = names := h.names
  obtain rfl : bindings' = bindings := h.bindings
  obtain rfl : contents' = contents := Array.ext_getElem? fun s => h.other fun n hn => absurd hn (hnone n)
  rfl

/-- No buffer is touched where no leaf is overwritten. -/
theorem Program.untouched_of_kept {p : Program} (h : ∀ n, ¬ p.Overwrites n) (k b : Nat) : p.Untouched k b := by
  rintro ⟨n, linked, len, hb⟩ j - fn hfn rfl
  exact h n ⟨fn, List.mem_of_getElem? hfn, linked, len, hb⟩

namespace Lowering

variable {g : Graph} {l : Lowering} {id b : Nat} {node : Node}

theorem output_of_nodeFunction (hn : g.node? id = some node) (hrun : (nodeFunction g id).run {} = .ok (b, l)) :
    ∃ l', (output g id).runOn {} = .ok (.ok b, l') ∧ l'.program = { l.program with output := some b } := by
  unfold output
  rw [StepM.runOn_bind_ok (StepM.runOn_requestNode hn {})]
  cases hleaf : node.kind.isLeaf with
  | true =>
    simp only [if_true]
    rw [StepM.runOn_bind_ok (StepM.runOn_lower hrun)]
    exact ⟨_, rfl, rfl⟩
  | false =>
    have hmaterialize : (materialize g id).runOn {} = .ok (.ok b, { l with placed := (id, b) :: l.placed }) := by
      have hget : (getThe Lowering : StepM Lowering).runOn {} = .ok (.ok {}, {}) := rfl
      unfold materialize
      rw [StepM.runOn_bind_ok (StepM.runOn_requestNode hn {}), StepM.runOn_bind_ok hget]
      simp only [List.lookup_nil, hleaf, Bool.false_eq_true, if_false]
      rw [StepM.runOn_bind_ok (StepM.runOn_lower hrun)]
      rfl
    simp only [Bool.false_eq_true, if_false]
    rw [StepM.runOn_bind_ok hmaterialize]
    exact ⟨_, rfl, rfl⟩

/-- Lowering a node emits its function into an empty program and names what it writes as the
result. No function writes a leaf, so the verifier is content. -/
theorem lower_run (hg : g.WellFormed) {root : Nat} (hroot : root < g.length)
    (hcounts : g.CountsBelow 9223372036854775808 root) :
    ∃ b l nodes f len, (nodeFunction g root).run {} = .ok (b, l) ∧
      lower g root = .ok (.ok { l.program with output := some b }) ∧ Sound g l nodes ∧ (∀ n, ¬ l.program.Overwrites n) ∧
      ({ l.program with output := some b } : Program).Valid ∧ l.program.buffers[b]? = some ⟨.scratch f, len⟩ ∧
      nodes[f]? = some root := by
  obtain ⟨node, hn⟩ := Graph.exists_node? hroot
  obtain ⟨b, l, nodes, f, len, hrun, hs, hgrows, hb, howner⟩ := nodeFunction_run hg hroot hcounts (sound_empty g)
  obtain ⟨l', hstep, hprogram⟩ := output_of_nodeFunction hn hrun
  have hnone : ∀ n, ¬ l.program.Overwrites n := by
    rintro n ⟨fn, hfn, linked, len, hleaf⟩
    obtain ⟨k, hk⟩ := List.mem_iff_getElem?.1 hfn
    rcases hgrows.appended hk with hk | ⟨len', hscratch⟩
    · simp at hk
    · cases hleaf.symm.trans hscratch
  have hvalid : ({ l.program with output := some b } : Program).Valid :=
    (hs.setOutput b).valid rfl (List.getElem?_eq_some_iff.1 hb).1 fun _ =>
      ⟨fun b _ => Program.untouched_of_kept hnone _ b, Program.untouched_of_kept hnone _ _⟩
  refine ⟨b, l, nodes, f, len, hrun, ?_, hs, hnone, hvalid, hb, (Program.owner?_scratch nodes hb).symm.trans howner⟩
  have hstep' : (Step.output root).runOn g {} = .ok (.ok b, l') := hstep
  have hverify : l'.program.verify = .ok () := hprogram ▸ Program.verify_eq_ok_iff.2 hvalid
  rw [lower, hstep', ← hprogram]
  simp [bind, Except.bind, pure, Except.pure, Lowering.finish, hverify, Except.mapError]

end Lowering

/-- Every node of a graph that was built is lowered to a program. A run of it leaves in the
result the value of the node at the contents of the leaves, and changes no storage. -/
theorem lower_value {g : Graph} (hg : g.Built) {root : Nat} (hroot : root < g.length)
    (hcounts : g.CountsBelow 9223372036854775808 root) :
    ∃ p, lower g root = .ok (.ok p) ∧ ∀ {α : Type} (A : Arith α) (m : Module α) (st : Store α) (held : List StorageId),
      m.program = p → m.Interpreted A → m.Fits → st.Binds g held →
      ∃ m', m.execute st held = .ok (.ok (), m', st) ∧ m'.output = (g.value A.toAlgebra st.leaves root).toArray := by
  have hwf := hg.wellFormed
  obtain ⟨b, l, nodes, f, len, -, hlower, hs, hnone, hvalid, hb, hf⟩ := Lowering.lower_run hwf hroot hcounts
  refine ⟨_, hlower, fun A m st held hm hkernel hfits hbinds => ?_⟩
  have hs' := hs.setOutput b
  obtain ⟨m', st', hexecute, h⟩ := Module.execute_ok hwf hs' hvalid hm hfits (hs'.canRun hm hbinds)
    (fun hover => absurd (hm ▸ hover) (hnone _)) hkernel
  obtain rfl := h.store_eq (hm ▸ hnone)
  have hout : m'.program.output = some b := by rw [h.program, hm]
  have hb' : m.program.buffers[b]? = some ⟨.scratch f, len⟩ := by rw [hm, hb]
  exact ⟨m', hexecute, Module.output_eq hout (h.program.symm ▸ hb') (h.scratch hb' hf)⟩

/-- Natural numbers; every literal is zero. -/
def Arith.natural : Arith Nat where
  lit _ := 0
  unary _ a := a
  binary
    | .mul, a, b => a * b
    | _, a, b => a + b
  fold _ a b := a + b

/-- A square matrix, transposed, with its columns multiplied by the sums of its rows. -/
def scaledColumns : Graph :=
  ⟨[⟨.input, [2, 2]⟩, ⟨.reduce .sum 0 [1] false, [2]⟩, ⟨.permute 0 [1, 0], [2, 2]⟩, ⟨.binary .mul 2 1, [2, 2]⟩]⟩

theorem scaledColumns_built : scaledColumns.Built :=
  .call (.binary .mul 2 1) (.call (.permute 0 [1, 0]) (.call (.reduce .sum 0 [1] false)
    (.call (.input [2, 2]) .empty rfl) rfl) rfl) rfl

/-- One storage, bound to node 0. -/
def oneStorage : Store Nat := { contents := #[#[1, 2, 3, 4]], names := [("x", 0)], bindings := [(0, 0)] }

theorem lower_value_scaledColumns :
    ∃ p m m', lower scaledColumns 3 = .ok (.ok p) ∧ Module.create Arith.natural p (.machine Arith.natural p) = .ok m ∧
      m.execute oneStorage [] = .ok (.ok (), m', oneStorage) ∧ m'.output = #[3, 21, 6, 28] := by
  have hcounts : scaledColumns.CountsBelow 9223372036854775808 3 := by
    intro x hx
    have hle := scaledColumns_built.wellFormed.dependsOn_le hx
    interval_cases x <;> decide
  have hbinds : oneStorage.Binds scaledColumns [] := by
    intro n node hn hleaf
    have hlt : n < 4 := Graph.node?_lt hn
    interval_cases n
    · cases hn
      exact ⟨0, rfl, rfl, by simp⟩
    all_goals
      cases hn
      cases hleaf
  have hcreate : ((lower scaledColumns 3).toOption.bind (·.toOption)).any
      (fun p => (Module.create Arith.natural p (.machine Arith.natural p)).isOk) = true := by decide +kernel
  obtain ⟨p, hp, hrun⟩ := lower_value scaledColumns_built (by decide) hcounts
  rw [hp] at hcreate
  obtain ⟨m, hm⟩ : ∃ m, Module.create Arith.natural p (.machine Arith.natural p) = .ok m := exists_eq_ok hcreate
  obtain ⟨hprogram, hfits⟩ := Module.create_fits hm
  obtain ⟨m', hexecute, hout⟩ :=
    hrun Arith.natural m oneStorage [] hprogram (Module.create_interpreted hm) hfits hbinds
  exact ⟨p, m, m', hp, hm, hexecute, hout.trans (by decide)⟩

end TensorLoom
