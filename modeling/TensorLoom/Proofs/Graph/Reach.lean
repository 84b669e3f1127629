import TensorLoom.Proofs.Graph.Element
/-
# Reachability

One sweep downwards marks exactly the nodes that a root depends on (`reachMarks_iff`), so
the weights of a root are the weights among them.
-/

namespace TensorLoom

namespace Graph

/-- The node is a weight. -/
def HasWeight (g : Graph) (x : Nat) : Prop := ∃ n, g.node? x = some n ∧ n.kind.isWeight = true

theorem HasWeight.lt {g : Graph} {x : Nat} (h : g.HasWeight x) : x < g.length :=
  let ⟨_, hn, _⟩ := h
  node?_lt hn

section
variable {g : Graph} {marks : List Bool} {i y : Nat}

theorem length_markOperands (g : Graph) (marks : List Bool) (i : Nat) : (g.markOperands marks i).length = marks.length := by
  have hfold : ∀ xs : List Nat, (xs.foldl (fun marks x => marks.set x true) marks).length = marks.length := by
    intro xs
    induction xs generalizing marks with
    | nil => rfl
    | cons x xs ih => rw [List.foldl_cons, ih, List.length_set]
  unfold markOperands
  split
  · exact hfold _
  · rfl

theorem foldl_set_true (xs : List Nat) (hxs : ∀ x ∈ xs, x < marks.length) :
    (xs.foldl (fun marks x => marks.set x true) marks)[y]? = some true ↔ marks[y]? = some true ∨ y ∈ xs := by
  induction xs generalizing marks with
  | nil => simp
  | cons x xs ih =>
    obtain ⟨hx, hxs⟩ := List.forall_mem_cons.1 hxs
    rw [List.foldl_cons, ih (by simpa using hxs), List.mem_cons, List.getElem?_set]
    by_cases hxy : x = y
    · simp [hxy, hxy ▸ hx]
    · simp [hxy, Ne.symm hxy]

/-- One step marks the operands of a marked node. -/
theorem markOperands_iff (hg : g.WellFormed) (hi : i < marks.length) :
    (g.markOperands marks i)[y]? = some true ↔
      marks[y]? = some true ∨ (marks[i]? = some true ∧ y ∈ g.operandsOf i) := by
  unfold markOperands
  split
  · rename_i hmarked
    rw [foldl_set_true _ fun x hx => Nat.lt_trans (hg.operandsOf_lt hx).1 hi]
    simp [hmarked]
  · rename_i hmarked
    simp [hmarked]

/-- The sweep down from node `k`: marks stay, nodes from `k` on get none, operands of marked
nodes are marked, and only what a marked node depends on is. -/
theorem marks_sweep (hg : g.WellFormed) {k : Nat} (hk : k ≤ marks.length) :
    (∀ {y : Nat}, marks[y]? = some true → ((List.range k).reverse.foldl g.markOperands marks)[y]? = some true) ∧
    (∀ {y : Nat}, k ≤ y → ((List.range k).reverse.foldl g.markOperands marks)[y]? = some true → marks[y]? = some true) ∧
    (∀ {i y : Nat}, i < k → ((List.range k).reverse.foldl g.markOperands marks)[i]? = some true → y ∈ g.operandsOf i →
      ((List.range k).reverse.foldl g.markOperands marks)[y]? = some true) ∧
    ∀ {y : Nat}, ((List.range k).reverse.foldl g.markOperands marks)[y]? = some true →
      ∃ x, marks[x]? = some true ∧ g.DependsOn x y := by
  induction k generalizing marks with
  | zero => exact ⟨fun h => h, fun _ h => h, fun hi => absurd hi (Nat.not_lt_zero _), fun {y} h => ⟨y, h, .refl y⟩⟩
  | succ k ih =>
    have hstep : ∀ {y : Nat}, (g.markOperands marks k)[y]? = some true ↔
        marks[y]? = some true ∨ (marks[k]? = some true ∧ y ∈ g.operandsOf k) := markOperands_iff hg hk
    have hlength : k ≤ (g.markOperands marks k).length := by
      rw [length_markOperands]
      omega
    obtain ⟨hkeep, hstable, hclosed, hsound⟩ := ih hlength
    -- a step marks operands only, which have smaller numbers
    have hsame : ∀ {y : Nat}, k ≤ y → (g.markOperands marks k)[y]? = some true → marks[y]? = some true := by
      intro y hy hmarked
      rcases hstep.1 hmarked with h | ⟨-, hy'⟩
      · exact h
      · exact absurd (hg.operandsOf_lt hy').1 (Nat.not_lt.2 hy)
    rw [List.range_succ, List.reverse_append, List.reverse_singleton, List.singleton_append, List.foldl_cons]
    refine ⟨fun h => hkeep (hstep.2 (.inl h)), fun hy h => hsame (by omega) (hstable (by omega) h), fun {i y} hi h hy => ?_,
      fun h => ?_⟩
    · rcases Nat.lt_succ_iff_lt_or_eq.1 hi with hlt | rfl
      · exact hclosed hlt h hy
      · exact hkeep (hstep.2 (.inr ⟨hsame (Nat.le_refl _) (hstable (Nat.le_refl _) h), hy⟩))
    · obtain ⟨x, hx, hdepends⟩ := hsound h
      rcases hstep.1 hx with hx | ⟨hmarked, hx⟩
      · exact ⟨x, hx, hdepends⟩
      · exact ⟨k, hmarked, .operand hx hdepends⟩

end

theorem reachMarks_iff {g : Graph} (hg : g.WellFormed) {root x : Nat} :
    (g.reachMarks root)[x]? = some true ↔ g.DependsOn root x := by
  have hlength : root + 1 ≤ ((List.replicate (root + 1) false).set root true).length := by simp
  obtain ⟨hkeep, -, hclosed, hsound⟩ := marks_sweep hg hlength
  constructor
  · intro h
    obtain ⟨y, hy, hdepends⟩ := hsound h
    obtain rfl : root = y := by
      rw [List.getElem?_set] at hy
      split at hy
      · assumption
      · simp [List.getElem?_replicate] at hy
    exact hdepends
  · -- marks go down along the operands
    have hdown : ∀ {y z : Nat}, g.DependsOn y z → y ≤ root → (g.reachMarks root)[y]? = some true →
        (g.reachMarks root)[z]? = some true := by
      intro y z hyz
      induction hyz with
      | refl => exact fun _ h => h
      | operand hx _ ih =>
        intro hle hmarked
        have hlt := (hg.operandsOf_lt hx).1
        exact ih (by omega) (hclosed (Nat.lt_succ_of_le hle) hmarked hx)
    exact fun h => hdown h (Nat.le_refl _) (hkeep (by simp))

theorem length_reachMarks (g : Graph) (root : Nat) : (g.reachMarks root).length = root + 1 := by
  have hsweep : ∀ (order : List Nat) (marks : List Bool), (order.foldl g.markOperands marks).length = marks.length := by
    intro order
    induction order with
    | nil => exact fun _ => rfl
    | cons i order ih =>
      intro marks
      rw [List.foldl_cons, ih, length_markOperands]
  rw [reachMarks, hsweep, List.length_set, List.length_replicate]

theorem reachable_eq_ok {g : Graph} {root : Nat} (hroot : root < g.length) :
    g.reachable root = .ok (g.reachMarks root) := by
  obtain ⟨node, hn⟩ := exists_node? hroot
  simp [reachable, node_eq_ok.2 hn, bind, Except.bind, pure, Except.pure]

/-- The weights of a root, in increasing order. -/
theorem weightsOf_eq_ok {g : Graph} (hg : g.WellFormed) {root : Nat} (hroot : root < g.length) :
    ∃ weights, g.weightsOf root = .ok weights ∧ weights.Pairwise (· < ·) ∧
      ∀ w, w ∈ weights ↔ g.HasWeight w ∧ g.DependsOn root w := by
  refine ⟨(List.range (root + 1)).filter fun i =>
    (g.reachMarks root)[i]? = some true && ((g.node? i).any (·.kind.isWeight)), ?_, ?_, fun w => ?_⟩
  · rw [weightsOf, reachable_eq_ok hroot]
    rfl
  · exact List.pairwise_lt_range.filter _
  · rw [List.mem_filter, List.mem_range, Bool.and_eq_true, decide_eq_true_iff, reachMarks_iff hg, Option.any_eq_true]
    constructor
    · rintro ⟨-, hdepends, hweight⟩
      exact ⟨hweight, hdepends⟩
    · rintro ⟨hweight, hdepends⟩
      exact ⟨Nat.lt_succ_of_le (hg.dependsOn_le hdepends), hdepends, hweight⟩

end Graph

end TensorLoom
