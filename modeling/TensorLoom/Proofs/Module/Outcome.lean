import TensorLoom.Proofs.Lowering.Leaves
import TensorLoom.Proofs.Module.History
/-
# What an execution answers

Storages are looked up for all leaf buffers before the first of them is taken. So an
execution is refused for the first leaf without a live storage, or else for the first whose
storage somebody holds; and lengths are never wrong where leaves are bound to storages of
their length (`Module.resolve_eq`).
-/

namespace TensorLoom

section
variable {α : Type}

/-- No live storage is bound to the leaf. -/
def Store.lacks (st : Store α) (n : NodeId) : Bool := (st.bound? n).isNone

/-- The storage of the leaf is held by somebody. -/
def Store.busy (st : Store α) (held : List StorageId) (n : NodeId) : Bool := (st.bound? n).any (· ∈ held)

/-- Why the program cannot run: the first leaf in the buffer table without a live storage, or
else the first whose storage is held. -/
def Program.refusal? (p : Program) (st : Store α) (held : List StorageId) : Option ExecuteError :=
  ((p.leaves.find? st.lacks).map .unbound).or ((p.leaves.find? (st.busy held)).map .busy)

theorem Program.refusal?_ne_sizeMismatch {p : Program} {st : Store α} {held : List StorageId} {n : NodeId} {expected found : Nat} :
    p.refusal? st held ≠ some (.sizeMismatch n expected found) := by
  unfold Program.refusal?
  cases p.leaves.find? st.lacks <;> simp

namespace Module

variable {st : Store α} {held : List StorageId}

/-- The storage of a leaf buffer. -/
def storage? (st : Store α) (b : Buffer) : Option StorageId := b.leaf?.bind st.bound?

/-- The storage of every buffer, or the first leaf without one. -/
theorem mapM_storageOf {buffers : List Buffer} (hlinked : ∀ b ∈ buffers, ∀ n linked, b.source = .leaf n linked → linked = true) :
    buffers.mapM (storageOf st) =
      match (buffers.filterMap Buffer.leaf?).find? st.lacks with
      | some n => .error (.unbound n)
      | none => .ok (buffers.map (storage? st)) := by
  induction buffers with
  | nil => rfl
  | cons b buffers ih =>
    obtain ⟨hb, hbuffers⟩ := List.forall_mem_cons.1 hlinked
    obtain ⟨source, len⟩ := b
    rw [List.mapM_cons, ih hbuffers]
    cases source with
    | scratch f =>
      show _ = match (buffers.filterMap Buffer.leaf?).find? st.lacks with | some n => _ | none => _
      cases (buffers.filterMap Buffer.leaf?).find? st.lacks <;> rfl
    | leaf n linked =>
      obtain rfl := hb n linked rfl
      have hleaves : (⟨.leaf n true, len⟩ :: buffers).filterMap Buffer.leaf? = n :: buffers.filterMap Buffer.leaf? := rfl
      rw [hleaves, List.find?_cons]
      cases hbound : st.bound? n with
      | none => simp [storageOf, Store.lacks, hbound, bind, Except.bind]
      | some s =>
        have hstorage : storage? st ⟨.leaf n true, len⟩ = some s := hbound
        simp only [storageOf, Store.lacks, hbound, if_true, Option.isNone_some, List.map_cons, hstorage]
        cases (buffers.filterMap Buffer.leaf?).find? st.lacks <;> rfl

/-- Where the leaves are bound to storages of their lengths, the first that is held. -/
theorem forM_checkStorage {buffers : List Buffer} (hbound : ∀ b ∈ buffers, ∀ n, b.leaf? = some n → st.lacks n = false)
    (hsize : ∀ b ∈ buffers, ∀ n s, b.leaf? = some n → st.bound? n = some s → (st.values s).size = b.len) :
    ((buffers.zip (buffers.map (storage? st))).forM fun x => checkStorage st held x.1 x.2) =
      match (buffers.filterMap Buffer.leaf?).find? (st.busy held) with
      | some n => .error (.busy n)
      | none => .ok () := by
  induction buffers with
  | nil => rfl
  | cons b buffers ih =>
    obtain ⟨hb, hbuffers⟩ := List.forall_mem_cons.1 hbound
    obtain ⟨hb', hbuffers'⟩ := List.forall_mem_cons.1 hsize
    have ih := ih hbuffers hbuffers'
    obtain ⟨source, len⟩ := b
    show (checkStorage st held _ _ >>= fun _ => (buffers.zip (buffers.map (storage? st))).forM _) = _
    rw [ih]
    cases source with
    | scratch f => rfl
    | leaf n linked =>
      have hleaves : (⟨.leaf n linked, len⟩ :: buffers).filterMap Buffer.leaf? = n :: buffers.filterMap Buffer.leaf? := rfl
      obtain ⟨s, hs⟩ : ∃ s, st.bound? n = some s := by
        have hlacks := hb n rfl
        simpa [Store.lacks, Option.isSome_iff_exists] using hlacks
      have hstorage : storage? st ⟨.leaf n linked, len⟩ = some s := hs
      rw [hleaves, List.find?_cons]
      by_cases hheld : s ∈ held
      · simp [checkStorage, hstorage, Store.busy, hs, hheld, bind, Except.bind]
      · simp [checkStorage, hstorage, Store.busy, hs, hheld, hb' n s rfl hs, bind, Except.bind]

/-- The run of the kernel on the storages of the leaves. -/
def runAt (m : Module α) (st : Store α) : Except Fault (Memory α) :=
  m.kernel.run (cells st (m.program.buffers.map (storage? st))) (st.contents ++ m.scratch)

section
variable {m : Module α}

/-- Which storages an execution takes, or which leaf it is refused for. -/
theorem resolve_eq (hlinked : ∀ b ∈ m.program.buffers, ∀ n linked, b.source = .leaf n linked → linked = true)
    (hsize : ∀ b ∈ m.program.buffers, ∀ n s, b.leaf? = some n → st.bound? n = some s → (st.values s).size = b.len) :
    m.resolve st held = (m.program.refusal? st held).elim (.ok (m.program.buffers.map (storage? st))) .error := by
  unfold resolve
  rw [mapM_storageOf hlinked, Program.refusal?, Program.leaves]
  cases hlacks : (m.program.buffers.filterMap Buffer.leaf?).find? st.lacks with
  | some n => rfl
  | none =>
    have hbound : ∀ b ∈ m.program.buffers, ∀ n, b.leaf? = some n → st.lacks n = false := fun b hb n hn => by
      simpa using List.find?_eq_none.1 hlacks n (List.mem_filterMap.2 ⟨b, hb, hn⟩)
    show (((m.program.buffers.zip (m.program.buffers.map (storage? st))).forM fun x => checkStorage st held x.1 x.2) >>=
      fun _ => _) = _
    rw [forM_checkStorage hbound hsize]
    cases (m.program.buffers.filterMap Buffer.leaf?).find? (st.busy held) <;> rfl

end

end Module

end

end TensorLoom
