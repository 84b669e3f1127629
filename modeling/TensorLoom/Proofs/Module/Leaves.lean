import TensorLoom.Proofs.Module.Execute
/-
# Stores between executions

Whatever happens to a store, names refer to storages that exist (`Store.Step.wellFormed`).
Of the rest of a store an execution sees only what the leaves of its program hold and which
of them share a storage (`Program.SameLeaves`).
-/

namespace TensorLoom

variable {α : Type}

namespace Store

/-- Names refer to storages that exist. -/
structure WellFormed (st : Store α) : Prop where
  names : ∀ x ∈ st.names, x.2 < st.contents.size

/-- What can happen to a store outside executions. -/
inductive Step : Store α → Store α → Prop
  | create (st : Store α) (name : String) (values : Array α) : Step st (st.create name values)
  | share {st : Store α} {name : String} {s : StorageId} (name' : String) : st.find? name = some s → Step st (st.setName name' s)
  | drop (st : Store α) (name : String) : Step st (st.drop name)
  | set {st st' : Store α} {s : StorageId} {i : Nat} {a : α} : st.set s i a = .ok st' → Step st st'
  | copy {st st' : Store α} {s : StorageId} {values : Array α} : st.copyFrom s values = .ok st' → Step st st'
  | bind {st st' : Store α} {leaf : LeafHandle} {s : StorageId} : st.bind leaf s = .ok st' → Step st st'
  | unbind (st : Store α) (leaf : NodeId) : Step st (st.unbind leaf)

section
variable {st st' : Store α}

theorem WellFormed.bound (h : st.WellFormed) {n s : Nat} (hbound : st.bound? n = some s) : s < st.contents.size := by
  obtain ⟨-, hlive⟩ := Option.filter_eq_some_iff.1 hbound
  obtain ⟨x, hx, hs⟩ := List.any_eq_true.1 hlive
  exact (beq_iff_eq.1 hs) ▸ h.names x hx

theorem WellFormed.setName (h : st.WellFormed) (name : String) {s : StorageId} (hs : s < st.contents.size) :
    (st.setName name s).WellFormed := by
  refine ⟨fun x hx => ?_⟩
  rcases List.mem_cons.1 hx with rfl | hx
  · exact hs
  · exact h.names x (List.mem_of_mem_filter hx)

theorem WellFormed.setValues (h : st.WellFormed) (s : StorageId) (values : Array α) : (st.setValues s values).WellFormed := by
  refine ⟨fun x hx => ?_⟩
  rw [Store.setValues, Array.size_setIfInBounds]
  exact h.names x hx

theorem Step.wellFormed (h : Step st st') (hst : st.WellFormed) : st'.WellFormed := by
  cases h with
  | create name values =>
    have hpushed : WellFormed { st with contents := st.contents.push values } := by
      refine ⟨fun x hx => ?_⟩
      rw [Array.size_push]
      exact Nat.lt_succ_of_lt (hst.names x hx)
    exact hpushed.setName name (by simp)
  | share name' hs =>
    obtain ⟨before, behind, hnames, -⟩ := List.lookup_eq_some_iff.1 hs
    exact hst.setName name' (hst.names _ (hnames ▸ List.mem_append_right _ List.mem_cons_self))
  | drop name => exact ⟨fun x hx => hst.names x (List.mem_of_mem_filter hx)⟩
  | set hset =>
    unfold Store.set at hset
    split at hset
    · cases hset
      exact hst.setValues ..
    · cases hset
  | copy hcopy =>
    unfold Store.copyFrom at hcopy
    split at hcopy
    · cases hcopy
      exact hst.setValues ..
    · cases hcopy
  | bind hbind =>
    simp only [Store.bind] at hbind
    split at hbind
    · cases hbind
      exact ⟨hst.names⟩
    · cases hbind
  | unbind leaf => exact ⟨hst.names⟩

end

end Store

/-! ## Leaves of a program -/

/-- The node is a leaf of the program. -/
def Program.HasLeaf (p : Program) (n : Nat) : Prop :=
  ∃ (b : Nat) (linked : Bool) (len : Nat), p.buffers[b]? = some ⟨.leaf n linked, len⟩

/-- The leaves of the program hold the same in both stores, and share storages in the same
way. -/
structure Program.SameLeaves (p : Program) (st st' : Store α) : Prop where
  contents : ∀ {n : Nat}, p.HasLeaf n → (st.bound? n).map st.values = (st'.bound? n).map st'.values
  shared : ∀ {n n' : Nat}, p.HasLeaf n → p.HasLeaf n' → (st.bound? n = st.bound? n' ↔ st'.bound? n = st'.bound? n')

/-- What an execution leaves alone in a store. -/
structure Program.LeavesBe (p : Program) (st st' : Store α) : Prop where
  names : st'.names = st.names
  bindings : st'.bindings = st.bindings
  size : st'.contents.size = st.contents.size
  other : ∀ {s : Nat}, (∀ n, p.HasLeaf n → st.bound? n ≠ some s) → st'.contents[s]? = st.contents[s]?

namespace Program

variable {p : Program} {st st' st'' : Store α}

theorem SameLeaves.refl (p : Program) (st : Store α) : p.SameLeaves st st := ⟨fun _ => rfl, fun _ _ => .rfl⟩

theorem LeavesBe.bound (h : p.LeavesBe st st') (n : Nat) : st'.bound? n = st.bound? n := by
  have hlive : st'.live = st.live := by
    funext s
    rw [Store.live, Store.live, h.names]
  rw [Store.bound?, Store.bound?, h.bindings, hlive]

theorem LeavesBe.wellFormed (h : p.LeavesBe st st') (hst : st.WellFormed) : st'.WellFormed := by
  refine ⟨fun x hx => ?_⟩
  rw [h.size]
  exact hst.names x (h.names ▸ hx)

/-- Outside the leaves there is nothing in which stores can differ. -/
theorem SameLeaves.eq (h : p.SameLeaves st' st'') (h' : p.LeavesBe st st') (h'' : p.LeavesBe st st'') : st' = st'' := by
  have hcontents : st'.contents = st''.contents := by
    apply Array.ext_getElem?
    intro s
    by_cases hs : ∃ n, p.HasLeaf n ∧ st.bound? n = some s
    · obtain ⟨n, hn, hbound⟩ := hs
      have hvalues := h.contents hn
      rw [h'.bound, h''.bound, hbound] at hvalues
      by_cases hlt : s < st.contents.size
      · rw [Module.getElem?_contents (h'.size ▸ hlt), Module.getElem?_contents (h''.size ▸ hlt)]
        exact hvalues
      · rw [Array.getElem?_eq_none (h'.size ▸ Nat.not_lt.1 hlt), Array.getElem?_eq_none (h''.size ▸ Nat.not_lt.1 hlt)]
    · rw [h'.other fun n hn hbound => hs ⟨n, hn, hbound⟩, h''.other fun n hn hbound => hs ⟨n, hn, hbound⟩]
  have hnames := h'.names.trans h''.names.symm
  have hbindings := h'.bindings.trans h''.bindings.symm
  cases st'
  cases st''
  simp_all

end Program

end TensorLoom
