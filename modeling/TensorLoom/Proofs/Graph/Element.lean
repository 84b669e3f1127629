import TensorLoom.Graph.Value
import TensorLoom.Proofs.Graph.WellFormed
/-
# Elements of nodes

In a well-formed graph the element of a node is one operation applied to elements of its
operands (`Graph.element_eq`). The elements that are read lie inside their operand, an
extension of the graph leaves the elements of the old nodes alone, and only the leaves a
node depends on matter.
-/

namespace TensorLoom

namespace Graph

/-! ## Dependencies -/

/-- The value of the first node depends on the second, directly or through others. -/
inductive DependsOn (g : Graph) : Nat → Nat → Prop
  | refl (id : Nat) : DependsOn g id id
  | operand {id x y : Nat} : x ∈ g.operandsOf id → DependsOn g x y → DependsOn g id y

theorem operandsOf_eq {g : Graph} {id : Nat} {n : Node} (h : g.node? id = some n) :
    g.operandsOf id = n.kind.operands := by
  simp [operandsOf, h]

theorem WellFormed.operandsOf_lt {g : Graph} (hg : g.WellFormed) {id x : Nat} (h : x ∈ g.operandsOf id) :
    x < id ∧ id < g.length := by
  unfold operandsOf at h
  split at h
  · rename_i n hn
    exact ⟨hg.operand_lt hn x h, node?_lt hn⟩
  · cases h

theorem WellFormed.dependsOn_le {g : Graph} (hg : g.WellFormed) {id x : Nat} (h : g.DependsOn id x) : x ≤ id := by
  induction h with
  | refl => exact Nat.le_refl _
  | operand hx _ ih =>
    have := (hg.operandsOf_lt hx).1
    omega

/-- The node is an input or a weight. -/
def HasLeaf (g : Graph) (x : Nat) : Prop := ∃ n, g.node? x = some n ∧ n.kind.isLeaf = true

instance (g : Graph) (x : Nat) : Decidable (g.HasLeaf x) :=
  decidable_of_iff ((g.node? x).any (·.kind.isLeaf) = true) (Option.any_eq_true ..)

theorem HasLeaf.lt {g : Graph} {x : Nat} (h : g.HasLeaf x) : x < g.length :=
  let ⟨_, hn, _⟩ := h
  node?_lt hn

theorem HasLeaf.operandsOf {g : Graph} {x : Nat} (h : g.HasLeaf x) : g.operandsOf x = [] := by
  obtain ⟨⟨kind, s⟩, hn, hleaf⟩ := h
  rw [operandsOf_eq hn]
  cases kind <;> first | rfl | cases hleaf

/-- Every node that `root` depends on has fewer than `n` elements. -/
def CountsBelow (g : Graph) (n : Nat) (root : Nat) : Prop :=
  ∀ x, g.DependsOn root x → Shape.size (g.shapeAt x) < n

theorem CountsBelow.self {g : Graph} {n id : Nat} (h : g.CountsBelow n id) : Shape.size (g.shapeAt id) < n :=
  h id (.refl id)

theorem CountsBelow.operand {g : Graph} {n id x : Nat} (h : g.CountsBelow n id) (hx : x ∈ g.operandsOf id) :
    g.CountsBelow n x := fun y hy => h y (.operand hx hy)

/-- Every node has fewer than `n` elements. -/
def SizesBelow (g : Graph) (n : Nat) : Prop := ∀ x < g.length, Shape.size (g.shapeAt x) < n

theorem SizesBelow.counts {g : Graph} {n : Nat} (h : g.SizesBelow n) (hn : 1 < n) (id : Nat) : g.CountsBelow n id := by
  intro x _
  cases hx : g.node? x with
  | none => simpa [shapeAt, hx, Shape.size] using hn
  | some node => exact h x (node?_lt hx)

/-! ## One step of the value -/

section
variable {α : Type} (A : Algebra α) (leaves : Leaves α) (g : Graph)

/-- Element `idx` of node `id`, given the elements of its operands. -/
def elementStep (read : Nat → List Nat → α) (id : Nat) (idx : List Nat) : α :=
  match g.node? id with
  | none => A.lit 0.0
  | some ⟨kind, shape⟩ =>
    match kind with
    | .input | .weight => ((leaves id)[Shape.offset idx shape]?).getD (A.lit 0.0)
    | .constant c => A.lit c
    | .unary op x => A.unary op (read x idx)
    | .binary op lhs rhs =>
      A.binary op (read lhs (Shape.restrict (g.shapeAt lhs) idx)) (read rhs (Shape.restrict (g.shapeAt rhs) idx))
    | .reduce op x axes keepDims =>
      A.reduce op <| ((Shape.indices (g.shapeAt x)).filter fun i => Shape.collapse axes keepDims i = idx).map (read x)
    | .reshape x => read x (Shape.indexOf (g.shapeAt x) (Shape.offset idx shape))
    | .permute x perm => read x (Shape.unpermute perm idx)
    | .matmul lhs rhs =>
      A.reduce .sum <| (List.range ((Shape.rowMatrix? (g.shapeAt lhs)).elim 0 Shape.Matrix.cols)).map fun p =>
        A.binary .mul
          (read lhs (if (g.shapeAt lhs).length = 1 then [p] else [idx.headD 0, p]))
          (read rhs (if (g.shapeAt rhs).length = 1 then [p] else [p, (idx.drop 1).headD 0]))

theorem elementBelow_succ (bound id : Nat) (idx : List Nat) :
    elementBelow A leaves g (bound + 1) id idx = elementStep A leaves g (elementBelow A leaves g bound) id idx := rfl

variable {A leaves g}

/-- Only the operands are read. -/
theorem elementStep_congr {read read' : Nat → List Nat → α} {id : Nat}
    (h : ∀ x : Nat, x ∈ g.operandsOf id → read x = read' x) (idx : List Nat) :
    elementStep A leaves g read id idx = elementStep A leaves g read' id idx := by
  unfold elementStep
  cases hn : g.node? id with
  | none => rfl
  | some n =>
    obtain ⟨kind, shape⟩ := n
    rw [operandsOf_eq hn] at h
    cases kind <;> simp_all [Kind.operands]

/-- Any bound above the node gives the same element. -/
theorem WellFormed.elementBelow_eq (hg : g.WellFormed) {bound bound' id : Nat} (h : id < bound) (h' : id < bound') :
    elementBelow A leaves g bound id = elementBelow A leaves g bound' id := by
  induction bound generalizing bound' id with
  | zero => omega
  | succ bound ih =>
    obtain ⟨bound', rfl⟩ : ∃ b, bound' = b + 1 := ⟨bound' - 1, by omega⟩
    funext idx
    rw [elementBelow_succ, elementBelow_succ]
    refine elementStep_congr (fun x hx => ?_) idx
    have := (hg.operandsOf_lt hx).1
    exact ih (by omega) (by omega)

/-- An element is one step over the elements of the operands. -/
theorem WellFormed.element_eq (hg : g.WellFormed) (id : Nat) (idx : List Nat) :
    element A leaves g id idx = elementStep A leaves g (element A leaves g) id idx := by
  unfold element
  rw [elementBelow_succ]
  refine elementStep_congr (fun x hx => ?_) idx
  exact hg.elementBelow_eq (hg.operandsOf_lt hx).1 (Nat.lt_succ_self x)

end

/-! ## What elements depend on -/

section
variable {α : Type} {A : Algebra α} {leaves leaves' : Leaves α} {g g' : Graph}

/-- Only the leaves that a node depends on matter. -/
theorem WellFormed.element_congr (hg : g.WellFormed) {id : Nat}
    (h : ∀ {x n}, g.DependsOn id x → g.node? x = some n → n.kind.isLeaf = true → leaves x = leaves' x) :
    element A leaves g id = element A leaves' g id := by
  induction id using Nat.strongRecOn with
  | ind id ih =>
    funext idx
    have hread : ∀ x : Nat, x ∈ g.operandsOf id → element A leaves g x = element A leaves' g x := fun x hx =>
      ih x (hg.operandsOf_lt hx).1 fun hy => h (.operand hx hy)
    rw [hg.element_eq, hg.element_eq, elementStep_congr hread]
    unfold elementStep
    cases hn : g.node? id with
    | none => rfl
    | some n =>
      obtain ⟨kind, shape⟩ := n
      cases kind with
      | input => simp only [h (.refl id) hn rfl]
      | weight => simp only [h (.refl id) hn rfl]
      | _ => rfl

theorem Extends.operandsOf (hext : g.Extends g') {id : Nat} (h : id < g.length) :
    g'.operandsOf id = g.operandsOf id := by
  unfold Graph.operandsOf
  rw [hext.node? h]

/-- The nodes of a graph keep their elements when it is extended. -/
theorem Extends.element (hext : g.Extends g') (hg : g.WellFormed) (hg' : g'.WellFormed) {id : Nat}
    (hid : id < g.length) : element A leaves g' id = element A leaves g id := by
  induction id using Nat.strongRecOn with
  | ind id ih =>
    funext idx
    have hread : ∀ x : Nat, x ∈ g'.operandsOf id → Graph.element A leaves g' x = Graph.element A leaves g x := by
      intro x hx
      have := (hg'.operandsOf_lt hx).1
      exact ih x this (by omega)
    rw [hg.element_eq, hg'.element_eq, elementStep_congr hread]
    unfold elementStep
    rw [hext.node? hid]
    cases hn : g.node? id with
    | none => rfl
    | some n =>
      obtain ⟨kind, shape⟩ := n
      have hlt : ∀ x : Nat, x ∈ kind.operands → g'.shapeAt x = g.shapeAt x := fun x hx =>
        hext.shapeAt (Nat.lt_trans (hg.operand_lt hn x hx) hid)
      cases kind <;> simp_all [Kind.operands]

theorem Extends.dependsOn (hext : g.Extends g') (hg : g.WellFormed) {id x : Nat} (hid : id < g.length) :
    g'.DependsOn id x ↔ g.DependsOn id x := by
  constructor
  · intro h
    induction h with
    | refl => exact .refl _
    | operand hx _ ih =>
      rw [hext.operandsOf hid] at hx
      exact .operand hx (ih (Nat.lt_trans (hg.operandsOf_lt hx).1 hid))
  · intro h
    induction h with
    | refl => exact .refl _
    | operand hx _ ih =>
      have := (hg.operandsOf_lt hx).1
      rw [← hext.operandsOf hid] at hx
      exact .operand hx (ih (by omega))

end

/-! ## Inlined reads -/

/-- Element `is` of node `id` is computed from element `js` of `x` alone or with others, so
that code for the one can hold the code for the other. -/
inductive Inlines (g : Graph) : Nat → List Nat → Nat → List Nat → Prop
  | unary {id op x shape is} : g.node? id = some ⟨.unary op x, shape⟩ → Inlines g id is x is
  | lhs {id op lhs rhs shape is} : g.node? id = some ⟨.binary op lhs rhs, shape⟩ →
    Inlines g id is lhs (Shape.restrict (g.shapeAt lhs) is)
  | rhs {id op lhs rhs shape is} : g.node? id = some ⟨.binary op lhs rhs, shape⟩ →
    Inlines g id is rhs (Shape.restrict (g.shapeAt rhs) is)
  | reshape {id x shape is} : g.node? id = some ⟨.reshape x, shape⟩ →
    Inlines g id is x (Shape.indexOf (g.shapeAt x) (Shape.offset is shape))
  | permute {id x perm shape is} : g.node? id = some ⟨.permute x perm, shape⟩ →
    Inlines g id is x (Shape.unpermute perm is)

/-- What is read lies inside the operand. -/
theorem WellFormed.mem_of_inlines {g : Graph} (hg : g.WellFormed) {id x : Nat} {is js : List Nat}
    (h : g.Inlines id is x js) (hm : Shape.Mem is (g.shapeAt id)) : Shape.Mem js (g.shapeAt x) := by
  cases h with
  | unary hn =>
    have hfit : _ = g.shapeAt x := hg.fits hn
    rwa [← hfit, ← shapeAt_of_node? hn]
  | lhs hn =>
    have hfit := Shape.stretches_of_broadcast (hg.fits hn)
    rw [shapeAt_of_node? hn] at hm
    exact hfit.1.mem_restrict hm
  | rhs hn =>
    have hfit := Shape.stretches_of_broadcast (hg.fits hn)
    rw [shapeAt_of_node? hn] at hm
    exact hfit.2.mem_restrict hm
  | reshape hn =>
    have hfit : Shape.size _ = Shape.size (g.shapeAt x) := hg.fits hn
    rw [shapeAt_of_node? hn] at hm
    exact Shape.mem_indexOf (hfit ▸ Shape.offset_lt hm)
  | permute hn =>
    rw [shapeAt_of_node? hn] at hm
    exact Shape.mem_unpermute (hg.fits hn) hm

theorem Inlines.operand {g : Graph} {id x : Nat} {is js : List Nat} (h : g.Inlines id is x js) :
    x ∈ g.operandsOf id := by
  cases h <;> (rename_i hn; simp [operandsOf_eq hn, Kind.operands])

theorem Inlines.node {g : Graph} {id x : Nat} {is js : List Nat} (h : g.Inlines id is x js) :
    ∃ n, g.node? id = some n ∧ n.kind.isLeaf = false := by
  cases h <;> (rename_i hn; exact ⟨_, hn, rfl⟩)

/-! ## Whole nodes -/

section
variable {α : Type} (A : Algebra α) (leaves : Leaves α) {g : Graph}

theorem value_eq (g : Graph) (id : Nat) :
    g.value A leaves id = (Shape.indices (g.shapeAt id)).map (g.element A leaves id) := rfl

theorem length_value (g : Graph) (id : Nat) : (g.value A leaves id).length = Shape.size (g.shapeAt id) := by
  rw [value_eq, List.length_map, Shape.length_indices]

theorem WellFormed.getElem?_value (hg : g.WellFormed) {id : Nat} {is : List Nat}
    (h : Shape.Mem is (g.shapeAt id)) :
    (g.value A leaves id)[Shape.offset is (g.shapeAt id)]? = some (g.element A leaves id is) := by
  rw [value_eq, List.getElem?_map, Shape.getElem?_indices_offset (hg.shapeAt_positive id) h]
  rfl

/-- A node keeps its value when the graph is extended. -/
theorem Extends.value {g' : Graph} (hext : g.Extends g') (hg : g.WellFormed) (hg' : g'.WellFormed) {id : Nat}
    (hid : id < g.length) : g'.value A leaves id = g.value A leaves id := by
  rw [value_eq, value_eq, hext.shapeAt hid, hext.element hg hg' hid]

/-- The value of a leaf is what the caller supplies. -/
theorem WellFormed.value_leaf (hg : g.WellFormed) {id : Nat} {n : Node} (hn : g.node? id = some n)
    (hleaf : n.kind.isLeaf = true) (hlen : (leaves id).size = Shape.size n.shape) :
    g.value A leaves id = (leaves id).toList := by
  have hshape : g.shapeAt id = n.shape := shapeAt_of_node? hn
  refine List.ext_getElem? fun k => ?_
  by_cases hk : k < Shape.size n.shape
  · have hm : Shape.Mem (Shape.indexOf n.shape k) (g.shapeAt id) := by
      rw [hshape]
      exact Shape.mem_indexOf hk
    have hv := hg.getElem?_value A leaves hm
    rw [hshape, Shape.offset_indexOf hk] at hv
    rw [hv, hg.element_eq, elementStep, hn]
    have hget : (leaves id)[k]? = some (leaves id)[k] := Array.getElem?_eq_getElem (by omega)
    obtain ⟨kind, shape⟩ := n
    cases kind <;> simp_all [Kind.isLeaf, Shape.offset_indexOf hk]
  · rw [List.getElem?_eq_none, List.getElem?_eq_none]
    · simp only [Array.length_toList]; omega
    · rw [length_value, hshape]; omega

end

end Graph

end TensorLoom
