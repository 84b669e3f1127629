import Mathlib.Algebra.BigOperators.Group.Finset.Sigma
import TensorLoom.Proofs.Gradient.Sweep
import TensorLoom.Proofs.Gradient.Tangent
/-
# Derivative rules are adjoint to the chain rule

What a sweep finds for a node is paired with the node's tangent, element by element;
`carried` adds up the pairings of the nodes that are still to be visited and of the leaves.
Where the chain rule computes the tangent of a node from the tangents of its operands, the
operands take what the node has, in the direction of their tangents (`parts_pay`). So what
is carried stays the same from step to step (`carried_step`), and what reaches the leaves is
the tangent of the root (`carried_sweep`).
-/

namespace TensorLoom

open TensorLoom.Gradient

/-! ## Slopes -/

namespace Scalars

variable {α : Type} [Field α] [LinearOrder α] (S : Scalars α)

theorem unaryPart_eq (op : UnaryOp) (u x : α) :
    unaryPart S.algebra op u x (S.algebra.unary op x) = u * S.slope op x := by
  cases op with
  | exp | sin => rfl
  | log => exact div_eq_mul_one_div u x
  | sqrt => simp only [unaryPart, algebra, slope, S.lit_half]
  | cast | nop => exact (mul_one u).symm

theorem leftPart_eq (op : BinaryOp) (u a b : α) :
    leftPart S.algebra op u a b (S.algebra.binary op a b) = u * S.leftSlope op a b := by
  cases op with
  | add | sub => exact (mul_one u).symm
  | mul | max => rfl
  | div => exact div_eq_mul_one_div u b
  | pow => simp only [leftPart, algebra, leftSlope, S.lit_one]
  | cmp => simp only [leftPart, algebra, leftSlope, S.lit_zero, mul_zero]

theorem rightPart_eq (op : BinaryOp) (u a b : α) :
    rightPart S.algebra op u a b (S.algebra.binary op a b) = u * S.rightSlope op a b := by
  cases op with
  | add => exact (mul_one u).symm
  | sub => simp only [rightPart, algebra, rightSlope, S.lit_neg_one]
  | mul | pow => rfl
  | div =>
    simp only [rightPart, algebra, rightSlope, S.lit_neg_one]
    ring
  | cmp => simp only [rightPart, algebra, rightSlope, S.lit_zero, mul_zero]
  | max =>
    simp only [rightPart, algebra, rightSlope, S.lit_one]
    split <;> simp

end Scalars

namespace Gradient

section
variable {α : Type} [Field α] [LinearOrder α]

/-- One where an element is the maximum it was taken into, zero elsewhere. -/
def mask (axes : List Nat) (keepDims : Bool) (X Y : List Nat → α) (i : List Nat) : α :=
  if X i = Y (Shape.collapse axes keepDims i) then 1 else 0

/-- The part that an element has in the tangent of the reduction. -/
def weight (op : ReduceOp) (axes : List Nat) (keepDims : Bool) (input : Shape) (X Y : List Nat → α) (i : List Nat) : α :=
  match op with
  | .sum => 1
  | .max => mask axes keepDims X Y i /
      ∑ j ∈ Shape.box input with Shape.collapse axes keepDims j = Shape.collapse axes keepDims i, mask axes keepDims X Y j

theorem reducePart_eq (S : Scalars α) (op : ReduceOp) (axes : List Nat) (keepDims : Bool) (input : Shape)
    (U X Y : List Nat → α) (i : List Nat) : reducePart S.algebra op axes keepDims input U X Y i =
      U (Shape.collapse axes keepDims i) * weight op axes keepDims input X Y i := by
  cases op with
  | sum => exact congrArg _ S.lit_one
  | max =>
    rw [weight, ← Shape.sum_filter_indices]
    rfl

end

/-! ## What a sweep carries -/

/-- A graph that is differentiated at a root over a field, and a direction in which its leaves move. -/
structure Direction (α : Type) [Field α] [LinearOrder α] extends Setting α where
  scalars : Scalars α
  moving : Leaves (Dual α)
  algebra_eq : algebra = scalars.algebra
  leaves_eq : leaves = moving.values

namespace Direction

section
variable {α : Type} [Field α] [LinearOrder α] (δ : Direction α)

def tangent (x : Nat) (idx : List Nat) : α := δ.graph.tangentAt δ.scalars δ.moving x idx

/-- What was found for a node, in the direction of its tangent. -/
def paired (F : Found α) (x : Nat) : α := ∑ i ∈ Shape.box (δ.shape x), (F x).elim 0 (· i) * δ.tangent x i

/-- What a part gives its node, in the direction of the stretched tangent. -/
def paid (p : Part α) : α := ∑ j ∈ Shape.box p.shape, p.tensor j * δ.tangent p.node (Shape.restrict (δ.shape p.node) j)

/-- What was found for the nodes below `k` and for the leaves. -/
def carried (k : Nat) (F : Found α) : α := ∑ x ∈ Finset.range (δ.root + 1) with x < k ∨ δ.graph.HasLeaf x, δ.paired F x

theorem lit_one : δ.algebra.lit 1.0 = 1 := by
  rw [δ.algebra_eq]
  exact δ.scalars.lit_one

theorem lit_zero : δ.algebra.lit 0.0 = 0 := by
  rw [δ.algebra_eq]
  exact δ.scalars.lit_zero

theorem value_eq : δ.value = δ.graph.valueAt δ.scalars δ.moving := by
  unfold Setting.value Graph.valueAt
  rw [δ.algebra_eq, δ.leaves_eq]

theorem value_unary {id x : Nat} {op : UnaryOp} {s : Shape} (hn : δ.graph.node? id = some ⟨.unary op x, s⟩)
    (idx : List Nat) :
    δ.value id idx = δ.scalars.algebra.unary op (δ.value x idx) := by
  unfold Setting.value
  rw [δ.wellFormed.element_eq, Graph.elementStep, hn, δ.algebra_eq]

theorem value_binary {id lhs rhs : Nat} {op : BinaryOp} {s : Shape}
    (hn : δ.graph.node? id = some ⟨.binary op lhs rhs, s⟩) (idx : List Nat) :
    δ.value id idx = δ.scalars.algebra.binary op (δ.read lhs idx) (δ.read rhs idx) := by
  unfold Setting.read Setting.value
  rw [δ.wellFormed.element_eq, Graph.elementStep, hn, δ.algebra_eq]
  rfl

end

variable {α : Type} [Field α] [LinearOrder α] {δ : Direction α} {F : Found α} {k : Nat}

/-- Without a stretch the tangent is read where it is. -/
theorem paid_own (x : Nat) (C : List Nat → α) :
    δ.paid ⟨x, δ.shape x, C⟩ = ∑ j ∈ Shape.box (δ.shape x), C j * δ.tangent x j := by
  refine Finset.sum_congr rfl fun j hj => ?_
  rw [Shape.restrict_self (Shape.mem_box.1 hj)]

/-- An element of a node takes what all its copies take. -/
theorem paired_add {p : Part α} (hst : Shape.Stretches (δ.shape p.node) p.shape) :
    δ.paired (δ.add F p) p.node = δ.paired F p.node + δ.paid p := by
  have hsum : ∀ xs, δ.algebra.reduce .sum xs = xs.sum := by
    rw [δ.algebra_eq]
    exact fun _ => rfl
  have hpaid : δ.paid p = ∑ i ∈ Shape.box (δ.shape p.node),
      unstretched δ.algebra (δ.shape p.node) p.shape p.tensor i * δ.tangent p.node i := by
    rw [paid, ← Shape.sum_restrict hst fun i j => p.tensor j * δ.tangent p.node i]
    refine Finset.sum_congr rfl fun i hi => ?_
    rw [unstretched_eq_sum hsum p.shape p.tensor (Shape.mem_box.1 hi), Finset.sum_mul]
  rw [hpaid, paired, paired, ← Finset.sum_add_distrib]
  refine Finset.sum_congr rfl fun i _ => ?_
  rw [← add_mul]
  refine congrArg (· * _) ?_
  unfold Setting.add
  rw [Function.update_self]
  cases F p.node with
  | none => exact (zero_add _).symm
  | some f =>
    simp only [Option.elim_some]
    rw [δ.algebra_eq]
    rfl

/-- A part for a node below `k` raises what is carried by what it pays. -/
theorem carried_add {p : Part α} (hlt : p.node < k) (hroot : p.node ≤ δ.root)
    (hst : Shape.Stretches (δ.shape p.node) p.shape) : δ.carried k (δ.add F p) = δ.carried k F + δ.paid p := by
  have hpaired : ∀ y, δ.paired (δ.add F p) y = δ.paired F y + if y = p.node then δ.paid p else 0 := by
    intro y
    by_cases hy : y = p.node
    · subst hy
      rw [if_pos rfl, paired_add hst]
    · rw [if_neg hy, add_zero, paired, paired, δ.add_of_ne F p hy]
  have hmem : p.node ∈ (Finset.range (δ.root + 1)).filter fun y => y < k ∨ δ.graph.HasLeaf y := by
    simp only [Finset.mem_filter, Finset.mem_range]
    exact ⟨by omega, .inl hlt⟩
  simp only [carried, hpaired]
  rw [Finset.sum_add_distrib, Finset.sum_ite_eq' _ p.node, if_pos hmem]

theorem carried_addAll {parts : List (Part α)} (hparts : ∀ p ∈ parts, p.node < k ∧ p.node ≤ δ.root ∧
      Shape.Stretches (δ.shape p.node) p.shape) :
    δ.carried k (parts.foldl δ.add F) = δ.carried k F + (parts.map δ.paid).sum := by
  induction parts generalizing F with
  | nil => exact (add_zero _).symm
  | cons p parts ih =>
    obtain ⟨hlt, hroot, hst⟩ := hparts p List.mem_cons_self
    rw [List.foldl_cons, ih fun q hq => hparts q (List.mem_cons_of_mem p hq), carried_add hlt hroot hst, List.map_cons,
      List.sum_cons, add_assoc]

/-! ## What the operands of a node take -/

section
variable {id x lhs rhs : Nat} {s : Shape} (U : List Nat → α)

theorem unary_pays {op : UnaryOp} (hn : δ.graph.node? id = some ⟨.unary op x, s⟩) :
    ((δ.parts id ⟨.unary op x, s⟩ U).map δ.paid).sum = ∑ i ∈ Shape.box s, U i * δ.tangent id i := by
  obtain rfl : s = δ.shape x := δ.wellFormed.fits hn
  simp only [Setting.parts, List.map_cons, List.map_nil, List.sum_singleton, paid_own]
  refine Finset.sum_congr rfl fun i _ => ?_
  rw [δ.algebra_eq, δ.value_unary hn, Scalars.unaryPart_eq, mul_assoc, δ.value_eq]
  exact congrArg _ (δ.wellFormed.tangentAt_unary i hn).symm

/-- The chain rule splits the pairing between the operands. -/
theorem pairing_binary {op : BinaryOp} (hn : δ.graph.node? id = some ⟨.binary op lhs rhs, s⟩) :
    ∑ i ∈ Shape.box s, U i * δ.tangent id i =
      (∑ i ∈ Shape.box s, U i * δ.scalars.leftSlope op (δ.read lhs i) (δ.read rhs i) *
          δ.tangent lhs (Shape.restrict (δ.shape lhs) i)) +
        ∑ i ∈ Shape.box s, U i * δ.scalars.rightSlope op (δ.read lhs i) (δ.read rhs i) *
          δ.tangent rhs (Shape.restrict (δ.shape rhs) i) := by
  rw [← Finset.sum_add_distrib]
  refine Finset.sum_congr rfl fun i _ => ?_
  rw [mul_assoc, mul_assoc, ← mul_add]
  unfold Setting.read
  rw [δ.value_eq]
  exact congrArg _ (δ.wellFormed.tangentAt_binary i hn)

theorem binary_pays {op : BinaryOp} (hn : δ.graph.node? id = some ⟨.binary op lhs rhs, s⟩) :
    ((δ.parts id ⟨.binary op lhs rhs, s⟩ U).map δ.paid).sum = ∑ i ∈ Shape.box s, U i * δ.tangent id i := by
  rw [pairing_binary U hn]
  by_cases hcmp : op = .cmp
  · subst hcmp
    simp [Setting.parts, Scalars.leftSlope, Scalars.rightSlope]
  · have hparts : δ.parts id ⟨.binary op lhs rhs, s⟩ U =
        [⟨lhs, s, fun i => U i * δ.scalars.leftSlope op (δ.read lhs i) (δ.read rhs i)⟩,
          ⟨rhs, s, fun i => U i * δ.scalars.rightSlope op (δ.read lhs i) (δ.read rhs i)⟩] := by
      unfold Setting.parts
      split <;> rename_i hkind <;> cases hkind
      · exact absurd rfl hcmp
      · simp only [δ.value_binary hn, δ.algebra_eq, Scalars.leftPart_eq, Scalars.rightPart_eq]
    simp only [hparts, List.map_cons, List.map_nil, List.sum_cons, List.sum_nil, add_zero, paid]

section
variable {op : ReduceOp} {axes : List Nat} {keepDims : Bool}

/-- The tangent of a reduction, by the parts of the elements. -/
theorem tangent_reduce (hn : δ.graph.node? id = some ⟨.reduce op x axes keepDims, s⟩) (o : List Nat) :
    δ.tangent id o = ∑ i ∈ Shape.box (δ.shape x) with Shape.collapse axes keepDims i = o,
      weight op axes keepDims (δ.shape x) (δ.value x) (δ.value id) i * δ.tangent x i := by
  cases op with
  | sum =>
    simp only [weight, one_mul]
    exact δ.wellFormed.tangentAt_sum o hn
  | max =>
    refine (δ.wellFormed.tangentAt_max o hn).trans (Finset.sum_congr rfl fun i hi => ?_)
    obtain rfl := (Finset.mem_filter.1 hi).2
    rw [weight, δ.value_eq]
    refine congrArg (· * δ.tangent x i) (congrArg (_ / ·) (Finset.sum_congr rfl fun j hj => ?_))
    rw [mask, (Finset.mem_filter.1 hj).2]

theorem reduce_pays (hn : δ.graph.node? id = some ⟨.reduce op x axes keepDims, s⟩) :
    ((δ.parts id ⟨.reduce op x axes keepDims, s⟩ U).map δ.paid).sum = ∑ i ∈ Shape.box s, U i * δ.tangent id i := by
  obtain ⟨-, rfl⟩ : _ ∧ s = Shape.reduced axes keepDims (δ.shape x) := δ.wellFormed.fits hn
  simp only [Setting.parts, List.map_cons, List.map_nil, List.sum_singleton, paid_own, δ.algebra_eq,
    reducePart_eq]
  rw [← Shape.sum_collapse axes keepDims (δ.shape x) fun o i =>
    U o * weight op axes keepDims (δ.shape x) (δ.value x) (δ.value id) i * δ.tangent x i]
  refine Finset.sum_congr rfl fun o _ => ?_
  rw [tangent_reduce hn, Finset.mul_sum]
  exact Finset.sum_congr rfl fun i _ => mul_assoc ..

end

theorem reshape_pays (hn : δ.graph.node? id = some ⟨.reshape x, s⟩) :
    ((δ.parts id ⟨.reshape x, s⟩ U).map δ.paid).sum = ∑ i ∈ Shape.box s, U i * δ.tangent id i := by
  have hsize : Shape.size s = Shape.size (δ.shape x) := δ.wellFormed.fits hn
  simp only [Setting.parts, List.map_cons, List.map_nil, List.sum_singleton, paid_own]
  rw [← Shape.sum_reshape hsize fun i j => U i * δ.tangent x j]
  exact Finset.sum_congr rfl fun i _ => congrArg _ (δ.wellFormed.tangentAt_reshape i hn).symm

theorem permute_pays {perm : List Nat} (hn : δ.graph.node? id = some ⟨.permute x perm, s⟩) :
    ((δ.parts id ⟨.permute x perm, s⟩ U).map δ.paid).sum = ∑ i ∈ Shape.box s, U i * δ.tangent id i := by
  have hpermute : Shape.permute (δ.shape x) perm = .ok s := δ.wellFormed.fits hn
  obtain ⟨inv, hinv, hinverse⟩ := Shape.inversePermutation_eq_ok (Shape.permute_eq_ok.1 hpermute).1
  simp only [Setting.parts_permute hinv, List.map_cons, List.map_nil, List.sum_singleton, paid_own]
  rw [← hinverse.sum_permute hpermute fun i j => U i * δ.tangent x j]
  exact Finset.sum_congr rfl fun i _ => congrArg _ (δ.wellFormed.tangentAt_permute i hn).symm

section
variable {a b : Shape.Matrix}

/-- The product rule splits the pairing between the operands. -/
theorem pairing_matmul (hn : δ.graph.node? id = some ⟨.matmul lhs rhs, s⟩) (ha : Shape.rowMatrix? (δ.shape lhs) = some a)
    (hb : Shape.colMatrix? (δ.shape rhs) = some b) (hab : a.cols = b.rows) {CL CR : List Nat → α}
    (hl : ∀ k < a.rows, ∀ p < a.cols, CL (Shape.rowIndex (δ.shape lhs) k p) =
      ∑ l ∈ Finset.range b.cols, U [k, l] * δ.value rhs (Shape.colIndex (δ.shape rhs) p l))
    (hr : ∀ p < b.rows, ∀ l < b.cols, CR (Shape.colIndex (δ.shape rhs) p l) =
      ∑ k ∈ Finset.range a.rows, δ.value lhs (Shape.rowIndex (δ.shape lhs) k p) * U [k, l]) :
    ∑ i ∈ Shape.box [a.rows, b.cols], U i * δ.tangent id i =
      (∑ j ∈ Shape.box (δ.shape lhs), CL j * δ.tangent lhs j) + ∑ j ∈ Shape.box (δ.shape rhs), CR j * δ.tangent rhs j := by
  have hleft : ∑ j ∈ Shape.box (δ.shape lhs), CL j * δ.tangent lhs j =
      ∑ k ∈ Finset.range a.rows, ∑ l ∈ Finset.range b.cols, ∑ p ∈ Finset.range a.cols,
        U [k, l] * (δ.value rhs (Shape.colIndex (δ.shape rhs) p l) * δ.tangent lhs (Shape.rowIndex (δ.shape lhs) k p)) := by
    rw [Shape.sum_rowMatrix ha]
    refine Finset.sum_congr rfl fun k hk => ?_
    rw [Finset.sum_comm]
    refine Finset.sum_congr rfl fun p hp => ?_
    rw [hl k (Finset.mem_range.1 hk) p (Finset.mem_range.1 hp), Finset.sum_mul]
    exact Finset.sum_congr rfl fun l _ => mul_assoc ..
  have hright : ∑ j ∈ Shape.box (δ.shape rhs), CR j * δ.tangent rhs j =
      ∑ k ∈ Finset.range a.rows, ∑ l ∈ Finset.range b.cols, ∑ p ∈ Finset.range a.cols,
        U [k, l] * (δ.value lhs (Shape.rowIndex (δ.shape lhs) k p) * δ.tangent rhs (Shape.colIndex (δ.shape rhs) p l)) := by
    rw [Shape.sum_colMatrix hb, ← hab, Finset.sum_comm]
    refine Eq.trans (Finset.sum_congr rfl fun l hl => ?_) Finset.sum_comm
    refine Eq.trans (Finset.sum_congr rfl fun p hp => ?_) Finset.sum_comm
    rw [hr p (hab ▸ Finset.mem_range.1 hp) l (Finset.mem_range.1 hl), Finset.sum_mul]
    exact Finset.sum_congr rfl fun k _ => by ring
  rw [hleft, hright, Shape.sum_box_matrix, ← Finset.sum_add_distrib]
  refine Finset.sum_congr rfl fun k _ => ?_
  rw [← Finset.sum_add_distrib]
  refine Finset.sum_congr rfl fun l _ => ?_
  rw [← Finset.sum_add_distrib, δ.value_eq, tangent, δ.wellFormed.tangentAt_matmul hn ha, Finset.mul_sum]
  exact Finset.sum_congr rfl fun p _ => mul_add ..

theorem matmul_pays (hn : δ.graph.node? id = some ⟨.matmul lhs rhs, s⟩) :
    ((δ.parts id ⟨.matmul lhs rhs, s⟩ U).map δ.paid).sum = ∑ i ∈ Shape.box s, U i * δ.tangent id i := by
  have hfits : Shape.matmul (δ.shape lhs) (δ.shape rhs) = .ok s := δ.wellFormed.fits hn
  obtain ⟨a, b, ha, hb, hab, rfl⟩ := Shape.matmul_eq_ok.1 hfits
  simp only [Setting.parts, Shape.matrices_eq_ok.2 ⟨ha, hb⟩, List.map_cons, List.map_nil, List.sum_cons, List.sum_nil,
    add_zero, paid_own, δ.algebra_eq]
  refine (pairing_matmul U hn ha hb hab (fun k hk p hp => ?_) fun p hp l hl => ?_).symm
  · rw [leftProduct, (matrixAt_row ha).entry _ hk hp]
    exact Shape.sum_map_range b.cols _
  · rw [rightProduct, (matrixAt_col hb).entry _ hp hl]
    exact Shape.sum_map_range a.rows _

end

/-- The operands of an inner node take what the node has. -/
theorem parts_pay {node : Node} (hn : δ.graph.node? id = some node) (hinner : node.kind.isLeaf = false) :
    ((δ.parts id node U).map δ.paid).sum = ∑ i ∈ Shape.box node.shape, U i * δ.tangent id i := by
  obtain ⟨kind, s⟩ := node
  cases kind with
  | input | weight => cases hinner
  | constant c =>
    refine (Finset.sum_eq_zero fun i _ => ?_).symm
    rw [tangent, δ.wellFormed.tangentAt_constant i hn, mul_zero]
  | unary op x => exact unary_pays U hn
  | binary op lhs rhs => exact binary_pays U hn
  | reduce op x axes keepDims => exact reduce_pays U hn
  | reshape x => exact reshape_pays U hn
  | permute x perm => exact permute_pays U hn
  | matmul lhs rhs => exact matmul_pays U hn

end

/-! ## What stays the same -/

variable {i : Nat}

/-- What an inner node was paid is carried until the node is visited. -/
theorem carried_succ (hi : i ≤ δ.root) :
    δ.carried (i + 1) F = δ.carried i F + if δ.graph.HasLeaf i then 0 else δ.paired F i := by
  have hfilter : ((Finset.range (δ.root + 1)).filter fun x => x < i + 1 ∨ δ.graph.HasLeaf x) =
      insert i ((Finset.range (δ.root + 1)).filter fun x => x < i ∨ δ.graph.HasLeaf x) := by
    ext x
    simp only [Finset.mem_filter, Finset.mem_range, Finset.mem_insert]
    by_cases hx : x = i
    · subst hx
      simp only [Nat.lt_succ_self, true_or, and_true, iff_true]
      exact Nat.lt_succ_of_le hi
    · have hlt : x < i + 1 ↔ x < i := by omega
      simp only [hx, hlt, false_or]
  rw [carried, hfilter]
  by_cases hleaf : δ.graph.HasLeaf i
  · rw [Finset.insert_eq_self.2, if_pos hleaf, add_zero]
    · rfl
    · simp only [Finset.mem_filter, Finset.mem_range]
      exact ⟨Nat.lt_succ_of_le hi, .inr hleaf⟩
  · rw [Finset.sum_insert, if_neg hleaf, add_comm]
    · rfl
    · simp [hleaf]

/-- A step pays what its node was paid, if the node is not a leaf, and so leaves what is
carried as it is. -/
theorem carried_step (hi : i ≤ δ.root) : δ.carried i (δ.step F i) = δ.carried (i + 1) F := by
  obtain ⟨node, hn⟩ := Graph.exists_node? (Nat.lt_of_le_of_lt hi δ.root_lt)
  have hshape : δ.shape i = node.shape := Graph.shapeAt_of_node? hn
  rw [carried_succ hi, Setting.step_eq hn]
  cases hfound : F i with
  | none => simp [paired, hfound]
  | some U =>
    have hparts : ∀ p ∈ δ.parts i node U, p.node < i ∧ p.node ≤ δ.root ∧ Shape.Stretches (δ.shape p.node) p.shape := by
      intro p hp
      obtain ⟨hmem, hst⟩ := Setting.mem_parts hn hp
      have hlt := (δ.wellFormed.operandsOf_lt hmem).1
      exact ⟨hlt, by omega, hst⟩
    refine (carried_addAll hparts).trans (congrArg _ ?_)
    cases hleaf : node.kind.isLeaf with
    | false =>
      rw [if_neg (by simp [Graph.HasLeaf, hn, hleaf]), parts_pay U hn hleaf, paired, hfound, hshape]
      rfl
    | true =>
      rw [if_pos (by simp [Graph.HasLeaf, hn, hleaf]), Setting.parts_of_isLeaf hleaf]
      rfl

theorem carried_sweep {n : Nat} (hn : n ≤ δ.root + 1) : δ.carried 0 (δ.sweep n F) = δ.carried n F := by
  induction n generalizing F with
  | zero => rfl
  | succ n ih => rw [Setting.sweep, ih (by omega), carried_step (by omega)]

/-- At first the tangent of the root is carried. -/
theorem carried_start (δ : Direction α) :
    δ.carried (δ.root + 1) δ.start = ∑ j ∈ Shape.box (δ.shape δ.root), δ.tangent δ.root j := by
  rw [carried, Finset.sum_eq_single δ.root]
  · refine Finset.sum_congr rfl fun j _ => ?_
    rw [Setting.start, Function.update_self, Option.elim_some, δ.lit_one, one_mul]
  · intro x _ hx
    refine Finset.sum_eq_zero fun j _ => ?_
    rw [Setting.start, Function.update_of_ne hx, Option.elim_none, zero_mul]
  · intro hnot
    exact absurd (by simp) hnot

end Direction

end Gradient

end TensorLoom
