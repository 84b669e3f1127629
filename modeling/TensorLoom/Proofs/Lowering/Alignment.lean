import Mathlib.Data.List.ProdSigma
import TensorLoom.Lowering.Basic
import TensorLoom.Proofs.Lowering.Draft
/-
# Where an update reads its leaf

An update may run in place only if the inlined value reads the leaf at no other element
than the one being written. `Reached` says which elements of which nodes the inlined value
of an element needs. The search that decides about a copy finds exactly what a walk over it
comes to (`readsElsewhere_iff`), so it misses none of them (`reached_leaf`).
-/

namespace TensorLoom

namespace Lowering

/-- The elements of nodes that are computed inline for element `at` of `value`. Nodes in a
buffer are not looked into. -/
inductive Reached (g : Graph) (placed : List (NodeId × BufferId)) (value : Nat) (start : List Nat) : Nat → List Nat → Prop
  | start : Reached g placed value start value start
  | inline {id x : Nat} {is js : List Nat} : Reached g placed value start id is → placed.lookup id = none →
    g.Inlines id is x js → Reached g placed value start x js

theorem inlined_operands {g : Graph} {node : Node} {a b : Bool} {y : Nat} (h : (y, b) ∈ inlined g a node) :
    y ∈ node.kind.operands := by
  obtain ⟨kind, shape⟩ := node
  cases kind <;> simp [inlined, Kind.operands] at h ⊢ <;> tauto

theorem length_inlined (g : Graph) (a : Bool) (node : Node) : (inlined g a node).length ≤ 2 := by
  obtain ⟨kind, shape⟩ := node
  cases kind <;> simp [inlined]

/-! ## The search for other reads -/

/-- What the search puts on its stack for a pair that it has not seen. -/
def opened (g : Graph) (placed : List (NodeId × BufferId)) (leaf : Nat) (x : Nat × Bool) : List (Nat × Bool) :=
  if x.1 = leaf ∨ (placed.lookup x.1).isSome then [] else (g.node? x.1).elim [] (inlined g x.2)

section
variable {g : Graph} {placed : List (NodeId × BufferId)} {leaf value fuel : Nat} {stack seen : List (Nat × Bool)}

theorem length_opened (g : Graph) (placed : List (NodeId × BufferId)) (leaf : Nat) (x : Nat × Bool) :
    (opened g placed leaf x).length ≤ 2 := by
  unfold opened
  split
  · exact Nat.zero_le 2
  · cases g.node? x.1 with
    | none => exact Nat.zero_le 2
    | some node => exact length_inlined g x.2 node

theorem mem_opened {x y : Nat × Bool} : y ∈ opened g placed leaf x ↔
    x.1 ≠ leaf ∧ placed.lookup x.1 = none ∧ ∃ node, g.node? x.1 = some node ∧ y ∈ inlined g x.2 node := by
  unfold opened
  by_cases hx : x.1 = leaf
  · simp [hx]
  · cases hplaced : placed.lookup x.1 <;> cases hn : g.node? x.1 <;> simp [hx]

theorem opened_lt (hg : g.WellFormed) {x y : Nat × Bool} (h : y ∈ opened g placed leaf x) : y.1 < x.1 := by
  obtain ⟨-, -, node, hn, hmem⟩ := mem_opened.1 h
  exact hg.operand_lt hn y.1 (inlined_operands hmem)

/-- One turn of the search. -/
theorem searchReads_cons (x : Nat × Bool) : searchReads g placed leaf (fuel + 1) (x :: stack) seen =
    if x ∈ seen then searchReads g placed leaf fuel stack seen
    else if x = (leaf, false) then true
    else searchReads g placed leaf fuel ((opened g placed leaf x).reverse ++ stack) (x :: seen) := by
  obtain ⟨id, aligned⟩ := x
  rw [searchReads, opened]
  by_cases hleaf : id = leaf
  · cases aligned <;> simp [hleaf]
  · cases hplaced : placed.lookup id <;> cases hn : g.node? id <;> simp [hleaf]

/-- The pairs that a walk over the inlined value comes to: the value is needed at the element
being written, and what is needed of a node is needed of what is inlined into it. -/
inductive Walked (g : Graph) (placed : List (NodeId × BufferId)) (leaf value : Nat) : Nat × Bool → Prop
  | start : Walked g placed leaf value (value, true)
  | inline {x y : Nat × Bool} : Walked g placed leaf value x → y ∈ opened g placed leaf x → Walked g placed leaf value y

/-- Only what a walk comes to is found. -/
theorem walked_of_searchReads (hstack : ∀ x ∈ stack, Walked g placed leaf value x)
    (h : searchReads g placed leaf fuel stack seen = true) : Walked g placed leaf value (leaf, false) := by
  induction fuel generalizing stack seen with
  | zero => simp [searchReads] at h
  | succ fuel ih =>
    cases stack with
    | nil => simp [searchReads] at h
    | cons x stack =>
      obtain ⟨hx, hstack⟩ := List.forall_mem_cons.1 hstack
      rw [searchReads_cons] at h
      split at h
      · exact ih hstack h
      split at h
      · rename_i heq
        exact heq ▸ hx
      · refine ih (fun y hy => ?_) h
        rcases List.mem_append.1 hy with hy | hy
        · exact hx.inline (List.mem_reverse.1 hy)
        · exact hstack y hy

/-- What holds between two turns: all that a walk comes to has been seen or is still to be
found from the stack, and there is fuel for all pairs of nodes up to the value. -/
structure Searching (g : Graph) (placed : List (NodeId × BufferId)) (leaf value fuel : Nat)
    (stack seen : List (Nat × Bool)) : Prop where
  start : (value, true) ∈ seen ∨ (value, true) ∈ stack
  opened : ∀ x ∈ seen, ∀ y ∈ opened g placed leaf x, y ∈ seen ∨ y ∈ stack
  le : ∀ x, x ∈ seen ∨ x ∈ stack → x.1 ≤ value
  nodup : seen.Nodup
  missing : (leaf, false) ∉ seen
  fuel : stack.length + 4 * (value + 1) ≤ fuel + 2 * seen.length

namespace Searching

theorem init (g : Graph) (placed : List (NodeId × BufferId)) (leaf value : Nat) :
    Searching g placed leaf value (4 * (value + 1) + 1) [(value, true)] [] := by
  refine ⟨.inr List.mem_cons_self, by simp, ?_, List.nodup_nil, by simp, ?_⟩
  · rintro x (hx | hx)
    · cases hx
    · exact Nat.le_of_eq (congrArg Prod.fst (List.mem_singleton.1 hx))
  · simp only [List.length_cons, List.length_nil]
    omega

/-- A pair that was seen before can be left out. -/
theorem pop {x : Nat × Bool} (h : Searching g placed leaf value (fuel + 1) (x :: stack) seen) (hx : x ∈ seen) :
    Searching g placed leaf value fuel stack seen := by
  have hkept : ∀ {y}, y ∈ seen ∨ y ∈ x :: stack → y ∈ seen ∨ y ∈ stack := by
    rintro y (hy | hy)
    · exact .inl hy
    · rcases List.mem_cons.1 hy with rfl | hy
      · exact .inl hx
      · exact .inr hy
  refine ⟨hkept h.start, fun y hy z hz => hkept (h.opened y hy z hz), fun y hy => h.le y ?_, h.nodup, h.missing, ?_⟩
  · exact hy.imp_right (List.mem_cons_of_mem _)
  · have := h.fuel
    simp only [List.length_cons] at this
    omega

/-- A new pair is replaced by what it opens. -/
theorem push (hg : g.WellFormed) {x : Nat × Bool} (h : Searching g placed leaf value (fuel + 1) (x :: stack) seen)
    (hx : x ∉ seen) (hne : x ≠ (leaf, false)) :
    Searching g placed leaf value fuel ((Lowering.opened g placed leaf x).reverse ++ stack) (x :: seen) := by
  have hkept : ∀ {y}, y ∈ seen ∨ y ∈ x :: stack →
      y ∈ x :: seen ∨ y ∈ (Lowering.opened g placed leaf x).reverse ++ stack := by
    rintro y (hy | hy)
    · exact .inl (List.mem_cons_of_mem _ hy)
    · rcases List.mem_cons.1 hy with rfl | hy
      · exact .inl List.mem_cons_self
      · exact .inr (List.mem_append_right _ hy)
  have hle := h.le x (.inr List.mem_cons_self)
  refine ⟨hkept h.start, ?_, ?_, List.nodup_cons.2 ⟨hx, h.nodup⟩, ?_, ?_⟩
  · intro y hy z hz
    rcases List.mem_cons.1 hy with rfl | hy
    · exact .inr (List.mem_append_left _ (List.mem_reverse.2 hz))
    · exact hkept (h.opened y hy z hz)
  · rintro y (hy | hy)
    · rcases List.mem_cons.1 hy with rfl | hy
      · exact hle
      · exact h.le y (.inl hy)
    · rcases List.mem_append.1 hy with hy | hy
      · exact Nat.le_trans (Nat.le_of_lt (opened_lt hg (List.mem_reverse.1 hy))) hle
      · exact h.le y (.inr (List.mem_cons_of_mem _ hy))
  · rw [List.mem_cons]
    rintro (heq | hmem)
    · exact hne heq.symm
    · exact h.missing hmem
  · have hfuel := h.fuel
    have htwo := length_opened g placed leaf x
    simp only [List.length_cons, List.length_append, List.length_reverse] at hfuel ⊢
    omega

/-- There are two pairs for each node. -/
theorem length_seen (h : Searching g placed leaf value fuel stack seen) : seen.length ≤ 2 * (value + 1) := by
  have hsub : seen ⊆ List.range (value + 1) ×ˢ [true, false] := by
    rintro ⟨id, aligned⟩ hx
    have hle : id ≤ value := h.le _ (.inl hx)
    exact List.pair_mem_product.2 ⟨List.mem_range.2 (Nat.lt_succ_of_le hle), by cases aligned <;> simp⟩
  have hlen := (List.subperm_of_subset h.nodup hsub).length_le
  rw [List.length_product, List.length_range] at hlen
  simpa [Nat.mul_comm] using hlen

/-- Once the stack is empty, the walk has not come to the leaf elsewhere. -/
theorem not_walked (h : Searching g placed leaf value fuel [] seen) : ¬ Walked g placed leaf value (leaf, false) := by
  have hseen : ∀ {x}, Walked g placed leaf value x → x ∈ seen := by
    intro x hx
    induction hx with
    | start => exact h.start.resolve_right List.not_mem_nil
    | inline _ hy ih => exact (h.opened _ ih _ hy).resolve_right List.not_mem_nil
  exact fun hwalked => h.missing (hseen hwalked)

/-- What a walk comes to is found. -/
theorem searchReads (hg : g.WellFormed) (h : Searching g placed leaf value fuel stack seen)
    (hwalked : Walked g placed leaf value (leaf, false)) : searchReads g placed leaf fuel stack seen = true := by
  induction fuel generalizing stack seen with
  | zero =>
    have hempty : stack = [] := by
      have hfuel := h.fuel
      have hseen := h.length_seen
      exact List.eq_nil_of_length_eq_zero (by omega)
    subst hempty
    exact absurd hwalked h.not_walked
  | succ fuel ih =>
    cases stack with
    | nil => exact absurd hwalked h.not_walked
    | cons x stack =>
      rw [searchReads_cons]
      split
      · rename_i hx
        exact ih (h.pop hx)
      split
      · rfl
      · rename_i hx hne
        exact ih (h.push hg hx hne)

end Searching

/-- The search finds that the leaf is read elsewhere exactly if a walk over the inlined value
comes to it there. -/
theorem readsElsewhere_iff (hg : g.WellFormed) :
    readsElsewhere g placed value leaf = true ↔ Walked g placed leaf value (leaf, false) := by
  constructor
  · intro h
    refine walked_of_searchReads (fun x hx => ?_) h
    rw [List.mem_singleton.1 hx]
    exact .start
  · exact (Searching.init g placed leaf value).searchReads hg

end

/-- What is inlined into a node is listed; an operand that keeps its alignment has the shape of
the node and is read at the same element. -/
theorem mem_inlined {g : Graph} (hg : g.WellFormed) {id x : Nat} {is js : List Nat} {node : Node} (hn : g.node? id = some node)
    (h : g.Inlines id is x js) (hm : Shape.Mem is (g.shapeAt id)) (a : Bool) :
    ∃ b, (x, b) ∈ inlined g a node ∧ (b = true → a = true ∧ js = is ∧ g.shapeAt x = g.shapeAt id) := by
  have hshape : g.shapeAt id = node.shape := Graph.shapeAt_of_node? hn
  -- a stretched operand is read at the same element if it is not stretched
  have hsame : ∀ x : Nat, (g.node? x).any (·.shape == node.shape) = true →
      Shape.restrict (g.shapeAt x) is = is ∧ g.shapeAt x = g.shapeAt id := by
    intro x hany
    obtain ⟨nx, hnx, heq⟩ := (Option.any_eq_true _ _).1 hany
    have hx : g.shapeAt x = g.shapeAt id := by
      rw [Graph.shapeAt_of_node? hnx, hshape, beq_iff_eq.1 heq]
    exact ⟨Shape.restrict_self (hx ▸ hm), hx⟩
  cases h with
  | unary hn' =>
    obtain rfl := Option.some.inj (hn.symm.trans hn')
    have hfit : _ = g.shapeAt x := hg.fits hn
    exact ⟨a, by simp [inlined], fun ha => ⟨ha, rfl, by rw [hshape, hfit]⟩⟩
  | lhs hn' =>
    obtain rfl := Option.some.inj (hn.symm.trans hn')
    refine ⟨_, List.mem_cons_self, fun hb => ?_⟩
    rw [Bool.and_eq_true] at hb
    exact ⟨hb.1, hsame x hb.2⟩
  | rhs hn' =>
    obtain rfl := Option.some.inj (hn.symm.trans hn')
    refine ⟨_, List.mem_cons_of_mem _ List.mem_cons_self, fun hb => ?_⟩
    rw [Bool.and_eq_true] at hb
    exact ⟨hb.1, hsame x hb.2⟩
  | reshape hn' =>
    obtain rfl := Option.some.inj (hn.symm.trans hn')
    exact ⟨false, List.mem_cons_self, by simp⟩
  | permute hn' =>
    obtain rfl := Option.some.inj (hn.symm.trans hn')
    exact ⟨false, List.mem_cons_self, by simp⟩

/-- An element of the leaf that the inlined value needs is the one being written, unless the
walk has found that others are read too. -/
theorem reached_leaf {g : Graph} (hg : g.WellFormed) {placed : List (NodeId × BufferId)} {value leaf : Nat} {node : Node}
    (hn : g.node? leaf = some node) (hleaf : node.kind.isLeaf = true) (hno : readsElsewhere g placed value leaf = false)
    {start js : List Nat} (hm : Shape.Mem start (g.shapeAt value)) (h : Reached g placed value start leaf js) : js = start := by
  have hwalked : ∀ {x : Nat} {js : List Nat}, Reached g placed value start x js → Shape.Mem js (g.shapeAt x) ∧
      (Walked g placed leaf value (x, false) ∨
        (Walked g placed leaf value (x, true) ∧ js = start ∧ g.shapeAt x = g.shapeAt value)) := by
    intro x js h
    induction h with
    | start => exact ⟨hm, .inr ⟨.start, rfl, rfl⟩⟩
    | @inline id x is js _ hnone hin ih =>
      obtain ⟨hmem, hread⟩ := ih
      obtain ⟨nid, hnid, hnot⟩ := hin.node
      have hne : id ≠ leaf := by
        rintro rfl
        rw [Option.some.inj (hn.symm.trans hnid), hnot] at hleaf
        cases hleaf
      have hopened : ∀ {a b : Bool}, (x, b) ∈ inlined g a nid → (x, b) ∈ opened g placed leaf (id, a) :=
        fun hb => mem_opened.2 ⟨hne, hnone, nid, hnid, hb⟩
      refine ⟨hg.mem_of_inlines hin hmem, ?_⟩
      rcases hread with hfalse | ⟨htrue, rfl, hshape⟩
      · obtain ⟨b, hb, himp⟩ := mem_inlined hg hnid hin hmem false
        obtain rfl : b = false := Bool.eq_false_iff.2 fun hb => by simpa using (himp hb).1
        exact .inl (hfalse.inline (hopened hb))
      · obtain ⟨b, hb, himp⟩ := mem_inlined hg hnid hin hmem true
        have hx := htrue.inline (hopened hb)
        cases b with
        | false => exact .inl hx
        | true =>
          obtain ⟨-, hjs, hx'⟩ := himp rfl
          exact .inr ⟨hx, hjs, hx'.trans hshape⟩
  obtain ⟨-, hfalse | ⟨-, heq, -⟩⟩ := hwalked h
  · rw [(readsElsewhere_iff hg).2 hfalse] at hno
    cases hno
  · exact heq

end Lowering

end TensorLoom
