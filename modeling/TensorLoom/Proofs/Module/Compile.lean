import TensorLoom.CompiledGraph
import TensorLoom.Proofs.Graph.Append
import TensorLoom.Proofs.Lowering.Meaning
/-
# Compiling programs

A valid program becomes a module unless one of its scratch buffers is larger than any
storage (`Module.create_ok_or_fault`), and a program that was lowered has such a buffer only
if the graph has such a node (`Sound.overlarge`).
-/

namespace TensorLoom

theorem Extend.runOn_answer {ε β : Type} {r : Except Fault (Except ε β)} {b : β} (h : r = .ok (.ok b)) (g : Graph) :
    (Extend.answer r).runOn g = .ok (.ok b, g) := by
  rw [h]
  rfl

/-- A module is created unless one of its scratch buffers is larger than any storage. -/
theorem Module.create_ok_or_fault {α : Type} (A : Arith α) (p : Program) (k : Kernel α) :
    (∃ m, create A p k = .ok m) ∨ create A p k = .error .allocation ∧
      ∃ (b f len : Nat), p.buffers[b]? = some ⟨.scratch f, len⟩ ∧ largestStorage < len := by
  unfold create
  rcases mapM_ok_or_error (fun b => if b.source.isLeaf then .ok #[] else allocate b.len (A.lit 0.0)) p.buffers with
    ⟨scratch, hscratch⟩ | ⟨⟨source, len⟩, hmem, fault, hfault, herror⟩
  · rw [hscratch]
    exact .inl ⟨_, rfl⟩
  · rw [herror]
    obtain ⟨b, hb⟩ := List.mem_iff_getElem?.1 hmem
    cases source with
    | leaf n linked => cases hfault
    | scratch f =>
      simp only [Source.isLeaf, Bool.false_eq_true, if_false, allocate] at hfault
      split at hfault
      · cases hfault
      · rename_i hlen
        cases hfault
        exact .inr ⟨rfl, b, f, len, hb, Nat.not_le.1 hlen⟩

theorem compile_machine {α : Type} (A : Arith α) {p : Program} (hvalid : p.Valid) :
    compile A p (.machine A) = (Module.create A p (.machine A p)).map .ok := by
  have hverify : p.verify = .ok () := Program.verify_eq_ok_iff.2 hvalid
  rw [compile, hverify]
  cases hcreate : Module.create A p (.machine A p) <;> simp [Backend.machine, bind, Except.bind, hcreate] <;> rfl

/-- Whatever backend compiles it, a program becomes a module that is created of it and of the
kernel that the backend makes of it. -/
theorem create_of_compile {α : Type} {A : Arith α} {p : Program} {backend : Backend α} {m : Module α}
    (h : compile A p backend = .ok (.ok m)) :
    ∃ k, backend.lower p = .ok (.ok k) ∧ Module.create A p k = .ok m := by
  unfold compile at h
  split at h
  · cases h
  · obtain ⟨answer, hlower, h⟩ := bind_eq_ok.1 h
    cases answer with
    | error e => cases h
    | ok k =>
      obtain ⟨m', hcreate, hm⟩ := bind_eq_ok.1 h
      cases hm
      exact ⟨k, hlower, hcreate⟩

namespace Lowering

variable {g : Graph} {l : Lowering} {nodes : List Nat}

theorem complete_eq_ok {β : Type} {steps : StepM β} {b : β} (hrun : steps.runOn {} = .ok (.ok b, l)) (hvalid : l.program.Valid) :
    complete steps = .ok (.ok (b, l.program)) := by
  have hrun' : steps.run.run {} = .ok (.ok b, l) := hrun
  have hverify : l.program.verify = .ok () := Program.verify_eq_ok_iff.2 hvalid
  rw [complete, hrun']
  simp [bind, Except.bind, pure, Except.pure, Lowering.finish, hverify, Except.mapError, Except.map]

/-- Scratch is too large only where the nodes of the graph that was extended are. -/
theorem Sound.overlarge (hs : Sound g l nodes) {g₀ : Graph}
    (hcounts : ∀ {n : Nat}, 1 < n → g₀.SizesBelow n → ∀ id, g.CountsBelow n id) {b f len : Nat}
    (hb : l.program.buffers[b]? = some ⟨.scratch f, len⟩) (hlen : largestStorage < len) :
    ∃ x < g₀.length, largestStorage < Shape.size (g₀.shapeAt x) := by
  by_contra hnone
  have hsmall : g₀.SizesBelow (largestStorage + 1) := by
    intro x hx
    by_contra hlarge
    exact hnone ⟨x, hx, Nat.not_lt.1 hlarge⟩
  obtain ⟨fn, id, -, -, -, rfl⟩ := hs.scratch hb
  have hle := (hcounts (by decide) hsmall id).self
  omega

end Lowering

end TensorLoom
