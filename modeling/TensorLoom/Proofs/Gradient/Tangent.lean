import Mathlib.Algebra.BigOperators.Field
import Mathlib.Algebra.Order.Group.Nat
import Mathlib.Tactic.FieldSimp
import Mathlib.Tactic.Ring
import TensorLoom.Proofs.Graph.Element
import TensorLoom.Proofs.Shape.Sum
/-
# Tangents

Graphs over a field with an order, and their derivatives in a direction. A dual number is
a value with its tangent; evaluating a graph over dual numbers carries the tangents of the
leaves to every node by the chain rule. The tangent of a node is linear in the tangents of
its operands, with the coefficients that `slope`, `leftSlope` and `rightSlope` name.
-/

namespace TensorLoom

/-- What a field does not have: its constants, and functions that nothing is assumed of. -/
structure Scalars (α : Type) [Field α] where
  lit : Float → α
  lit_one : lit 1.0 = 1
  lit_zero : lit 0.0 = 0
  lit_neg_one : lit (-1.0) = -1
  lit_half : lit 0.5 = 1 / 2
  exp : α → α
  log : α → α
  sin : α → α
  sqrt : α → α
  pow : α → α → α

/-- A value and its tangent. -/
structure Dual (α : Type) where
  value : α
  tangent : α

namespace Scalars

variable {α : Type} [Field α] [LinearOrder α] (S : Scalars α)

/-- The operations over the field: `cmp` tests for equality, the maxima are those of the order. -/
def algebra : Algebra α where
  lit := S.lit
  unary
    | .exp, x => S.exp x
    | .log, x => S.log x
    | .sin, x => S.sin x
    | .sqrt, x => S.sqrt x
    | .cast, x => x
    | .nop, x => x
  binary
    | .add, a, b => a + b
    | .sub, a, b => a - b
    | .mul, a, b => a * b
    | .div, a, b => a / b
    | .pow, a, b => S.pow a b
    | .cmp, a, b => if a = b then 1 else 0
    | .max, a, b => max a b
  reduce
    | .sum, xs => xs.sum
    | .max, xs => xs.max?.getD 0

/-- A quarter turn, by which the sine is ahead of the cosine. -/
def quarterTurn : α := S.lit 1.5707963267948966

/-- The chain rule of a unary operation. -/
def unaryTangent : UnaryOp → Dual α → α
  | .exp, x => S.exp x.value * x.tangent
  | .log, x => x.tangent / x.value
  | .sin, x => S.sin (x.value + S.quarterTurn) * x.tangent
  | .sqrt, x => 1 / 2 / S.sqrt x.value * x.tangent
  | .cast, x => x.tangent
  | .nop, x => x.tangent

/-- The chain rule of a binary operation. On a tie the first operand gives the maximum. -/
def binaryTangent : BinaryOp → Dual α → Dual α → α
  | .add, a, b => a.tangent + b.tangent
  | .sub, a, b => a.tangent - b.tangent
  | .mul, a, b => a.tangent * b.value + a.value * b.tangent
  | .div, a, b => (a.tangent * b.value - a.value * b.tangent) / (b.value * b.value)
  | .pow, a, b =>
    b.value * S.pow a.value (b.value - 1) * a.tangent + S.log a.value * S.pow a.value b.value * b.tangent
  | .cmp, _, _ => 0
  | .max, a, b => if max a.value b.value = a.value then a.tangent else b.tangent

/-- The chain rule of a reduction. Elements that share the maximum share its tangent. -/
def reduceTangent : ReduceOp → List (Dual α) → α
  | .sum, xs => (xs.map Dual.tangent).sum
  | .max, xs =>
    let ties := xs.filter fun x => x.value = S.algebra.reduce .max (xs.map Dual.value)
    (ties.map Dual.tangent).sum / ties.length

/-- The operations over dual numbers. -/
def dual : Algebra (Dual α) where
  lit c := ⟨S.lit c, 0⟩
  unary op x := ⟨S.algebra.unary op x.value, S.unaryTangent op x⟩
  binary op a b := ⟨S.algebra.binary op a.value b.value, S.binaryTangent op a b⟩
  reduce op xs := ⟨S.algebra.reduce op (xs.map Dual.value), S.reduceTangent op xs⟩

@[simp] theorem value_lit (c : Float) : (S.dual.lit c).value = S.algebra.lit c := rfl

@[simp] theorem value_unary (op : UnaryOp) (x : Dual α) :
    (S.dual.unary op x).value = S.algebra.unary op x.value := rfl

@[simp] theorem value_binary (op : BinaryOp) (a b : Dual α) :
    (S.dual.binary op a b).value = S.algebra.binary op a.value b.value := rfl

@[simp] theorem value_reduce (op : ReduceOp) (xs : List (Dual α)) :
    (S.dual.reduce op xs).value = S.algebra.reduce op (xs.map Dual.value) := rfl

@[simp] theorem tangent_lit (c : Float) : (S.dual.lit c).tangent = 0 := rfl

/-! ## Slopes -/

def slope : UnaryOp → α → α
  | .exp, x => S.exp x
  | .log, x => 1 / x
  | .sin, x => S.sin (x + S.quarterTurn)
  | .sqrt, x => 1 / 2 / S.sqrt x
  | .cast, _ => 1
  | .nop, _ => 1

def leftSlope : BinaryOp → α → α → α
  | .add, _, _ => 1
  | .sub, _, _ => 1
  | .mul, _, b => b
  | .div, _, b => 1 / b
  | .pow, a, b => b * S.pow a (b - 1)
  | .cmp, _, _ => 0
  | .max, a, b => if max a b = a then 1 else 0

def rightSlope : BinaryOp → α → α → α
  | .add, _, _ => 1
  | .sub, _, _ => -1
  | .mul, a, _ => a
  | .div, a, b => -(a / (b * b))
  | .pow, a, b => S.log a * S.pow a b
  | .cmp, _, _ => 0
  | .max, a, b => if max a b = a then 0 else 1

omit [LinearOrder α] in
theorem unaryTangent_eq (op : UnaryOp) (x : Dual α) : S.unaryTangent op x = S.slope op x.value * x.tangent := by
  cases op <;> simp only [unaryTangent, slope, one_mul]
  rw [div_eq_mul_one_div, mul_comm]

theorem binaryTangent_eq (op : BinaryOp) (a b : Dual α) :
    S.binaryTangent op a b =
      S.leftSlope op a.value b.value * a.tangent + S.rightSlope op a.value b.value * b.tangent := by
  cases op with
  | add => simp [binaryTangent, leftSlope, rightSlope]
  | sub => simp only [binaryTangent, leftSlope, rightSlope]; ring
  | mul => simp only [binaryTangent, leftSlope, rightSlope]; ring
  | div =>
    simp only [binaryTangent, leftSlope, rightSlope]
    by_cases hb : b.value = 0
    · simp [hb]
    · field_simp
      ring
  | pow => rfl
  | cmp => simp [binaryTangent, leftSlope, rightSlope]
  | max =>
    simp only [binaryTangent, leftSlope, rightSlope]
    split <;> simp

@[simp] theorem tangent_unary (op : UnaryOp) (x : Dual α) :
    (S.dual.unary op x).tangent = S.slope op x.value * x.tangent := S.unaryTangent_eq op x

@[simp] theorem tangent_binary (op : BinaryOp) (a b : Dual α) :
    (S.dual.binary op a b).tangent =
      S.leftSlope op a.value b.value * a.tangent + S.rightSlope op a.value b.value * b.tangent :=
  S.binaryTangent_eq op a b

@[simp] theorem tangent_sum (xs : List (Dual α)) :
    (S.dual.reduce .sum xs).tangent = (xs.map Dual.tangent).sum := rfl

/-- The average over the ties, with the ties counted by a mask. -/
theorem tangent_max (xs : List (Dual α)) {m : α} (hm : (S.dual.reduce .max xs).value = m) :
    (S.dual.reduce .max xs).tangent =
      (xs.map fun x => (if x.value = m then 1 else 0) * x.tangent).sum /
        (xs.map fun x => if x.value = m then 1 else 0).sum := by
  have hmask : ∀ xs : List (Dual α),
      ((xs.filter fun x => x.value = m).map Dual.tangent).sum =
          (xs.map fun x => (if x.value = m then 1 else 0) * x.tangent).sum ∧
        ((xs.filter fun x => x.value = m).length : α) = (xs.map fun x => if x.value = m then 1 else 0).sum := by
    intro xs
    induction xs with
    | nil => simp
    | cons x xs ih =>
      obtain ⟨htangent, hlength⟩ := ih
      by_cases hx : x.value = m
      · simp [hx, htangent, hlength, add_comm]
      · simp [hx, htangent, hlength]
  rw [← (hmask xs).1, ← (hmask xs).2, ← hm]
  rfl

end Scalars

/-- The values of dual leaves. -/
def Leaves.values {α : Type} (leaves : Leaves (Dual α)) : Leaves α := fun n => (leaves n).map Dual.value

namespace Graph

section
variable {α : Type} [Field α] [LinearOrder α] (S : Scalars α) (leaves : Leaves (Dual α)) (g : Graph)

/-- Element `idx` of node `id`. -/
def valueAt (id : Nat) (idx : List Nat) : α := g.element S.algebra leaves.values id idx

/-- The tangent of element `idx` of node `id`. -/
def tangentAt (id : Nat) (idx : List Nat) : α := (g.element S.dual leaves id idx).tangent

end

namespace WellFormed

variable {α : Type} [Field α] [LinearOrder α] {S : Scalars α} {leaves : Leaves (Dual α)} {g : Graph}

/-- Over dual numbers a graph has the values that it has over the field. -/
theorem value_element (hg : g.WellFormed) (id : Nat) (idx : List Nat) :
    (g.element S.dual leaves id idx).value = g.valueAt S leaves id idx := by
  induction id using Nat.strongRecOn generalizing idx with
  | ind id ih =>
    unfold valueAt at ih ⊢
    rw [hg.element_eq, hg.element_eq]
    unfold elementStep
    cases hn : g.node? id with
    | none => rfl
    | some n =>
      obtain ⟨kind, shape⟩ := n
      have hread : ∀ x : Nat, x ∈ kind.operands → ∀ idx,
          (g.element S.dual leaves x idx).value = g.element S.algebra leaves.values x idx :=
        fun x hx => ih x (hg.operand_lt hn x hx)
      cases kind with
      | input =>
        simp only [Leaves.values, Array.getElem?_map]
        cases (leaves id)[Shape.offset idx shape]? <;> rfl
      | weight =>
        simp only [Leaves.values, Array.getElem?_map]
        cases (leaves id)[Shape.offset idx shape]? <;> rfl
      | constant => rfl
      | unary op x => simp [hread x (by simp [Kind.operands])]
      | binary op lhs rhs => simp [hread lhs (by simp [Kind.operands]), hread rhs (by simp [Kind.operands])]
      | reduce op x axes keepDims => simp [Function.comp_def, hread x (by simp [Kind.operands])]
      | reshape x => exact hread x (by simp [Kind.operands]) _
      | permute x perm => exact hread x (by simp [Kind.operands]) _
      | matmul lhs rhs =>
        simp [Function.comp_def, hread lhs (by simp [Kind.operands]), hread rhs (by simp [Kind.operands])]

/-! ## The chain rule -/

section
variable (hg : g.WellFormed) {id : Nat} {shape : Shape} (idx : List Nat)
include hg

theorem tangentAt_constant {c : Float} (hn : g.node? id = some ⟨.constant c, shape⟩) :
    g.tangentAt S leaves id idx = 0 := by
  rw [tangentAt, hg.element_eq, elementStep, hn]
  rfl

theorem tangentAt_unary {op : UnaryOp} {x : Nat} (hn : g.node? id = some ⟨.unary op x, shape⟩) :
    g.tangentAt S leaves id idx = S.slope op (g.valueAt S leaves x idx) * g.tangentAt S leaves x idx := by
  rw [tangentAt, hg.element_eq, elementStep, hn]
  simp only [Scalars.tangent_unary, hg.value_element, tangentAt]

theorem tangentAt_binary {op : BinaryOp} {lhs rhs : Nat} (hn : g.node? id = some ⟨.binary op lhs rhs, shape⟩) :
    g.tangentAt S leaves id idx =
      S.leftSlope op (g.valueAt S leaves lhs (Shape.restrict (g.shapeAt lhs) idx))
          (g.valueAt S leaves rhs (Shape.restrict (g.shapeAt rhs) idx)) *
        g.tangentAt S leaves lhs (Shape.restrict (g.shapeAt lhs) idx) +
      S.rightSlope op (g.valueAt S leaves lhs (Shape.restrict (g.shapeAt lhs) idx))
          (g.valueAt S leaves rhs (Shape.restrict (g.shapeAt rhs) idx)) *
        g.tangentAt S leaves rhs (Shape.restrict (g.shapeAt rhs) idx) := by
  rw [tangentAt, hg.element_eq, elementStep, hn]
  simp only [Scalars.tangent_binary, hg.value_element, tangentAt]

theorem tangentAt_reshape {x : Nat} (hn : g.node? id = some ⟨.reshape x, shape⟩) :
    g.tangentAt S leaves id idx = g.tangentAt S leaves x (Shape.indexOf (g.shapeAt x) (Shape.offset idx shape)) := by
  rw [tangentAt, hg.element_eq, elementStep, hn, tangentAt]

theorem tangentAt_permute {x : Nat} {perm : List Nat} (hn : g.node? id = some ⟨.permute x perm, shape⟩) :
    g.tangentAt S leaves id idx = g.tangentAt S leaves x (Shape.unpermute perm idx) := by
  rw [tangentAt, hg.element_eq, elementStep, hn, tangentAt]

theorem tangentAt_sum {x : Nat} {axes : List Nat} {keepDims : Bool}
    (hn : g.node? id = some ⟨.reduce .sum x axes keepDims, shape⟩) :
    g.tangentAt S leaves id idx =
      ∑ i ∈ Shape.box (g.shapeAt x) with Shape.collapse axes keepDims i = idx, g.tangentAt S leaves x i := by
  rw [tangentAt, hg.element_eq, elementStep, hn]
  simp only [Scalars.tangent_sum, List.map_map, Function.comp_def]
  exact Shape.sum_filter_indices _ _ _

/-- The tangents of the elements that share a maximum count equally. -/
theorem tangentAt_max {x : Nat} {axes : List Nat} {keepDims : Bool}
    (hn : g.node? id = some ⟨.reduce .max x axes keepDims, shape⟩) :
    g.tangentAt S leaves id idx =
      ∑ i ∈ Shape.box (g.shapeAt x) with Shape.collapse axes keepDims i = idx,
        (if g.valueAt S leaves x i = g.valueAt S leaves id idx then 1 else 0) /
            (∑ j ∈ Shape.box (g.shapeAt x) with Shape.collapse axes keepDims j = idx,
              if g.valueAt S leaves x j = g.valueAt S leaves id idx then 1 else 0) *
          g.tangentAt S leaves x i := by
  have hvalue : (g.element S.dual leaves id idx).value = g.valueAt S leaves id idx := hg.value_element id idx
  rw [hg.element_eq, elementStep, hn] at hvalue
  rw [tangentAt, hg.element_eq, elementStep, hn]
  simp only at hvalue ⊢
  rw [S.tangent_max _ hvalue, List.map_map, List.map_map, Shape.sum_filter_indices, Shape.sum_filter_indices,
    Finset.sum_div]
  simp only [Function.comp_apply, hg.value_element, tangentAt, div_mul_eq_mul_div]

/-- The product rule, summed over the inner axis. -/
theorem tangentAt_matmul {lhs rhs k l : Nat} {a : Shape.Matrix}
    (hn : g.node? id = some ⟨.matmul lhs rhs, shape⟩) (ha : Shape.rowMatrix? (g.shapeAt lhs) = some a) :
    g.tangentAt S leaves id [k, l] =
      ∑ p ∈ Finset.range a.cols,
        (g.valueAt S leaves rhs (Shape.colIndex (g.shapeAt rhs) p l) *
            g.tangentAt S leaves lhs (Shape.rowIndex (g.shapeAt lhs) k p) +
          g.valueAt S leaves lhs (Shape.rowIndex (g.shapeAt lhs) k p) *
            g.tangentAt S leaves rhs (Shape.colIndex (g.shapeAt rhs) p l)) := by
  rw [tangentAt, hg.element_eq, elementStep, hn]
  simp only [Scalars.tangent_sum, List.map_map, ha, Option.elim_some, List.headD_cons, List.drop_one, List.tail_cons]
  rw [Shape.sum_map_range]
  simp only [Function.comp_apply, Scalars.tangent_binary, Scalars.leftSlope, Scalars.rightSlope, hg.value_element,
    tangentAt, Shape.rowIndex, Shape.colIndex]

/-- A node has no tangent if its operands have none and it is no leaf that has one. -/
theorem tangentAt_eq_zero (hleaf : ∀ n, g.node? id = some n → n.kind.isLeaf → ∀ x ∈ leaves id, x.tangent = 0)
    (hread : ∀ x : Nat, x ∈ g.operandsOf id → ∀ idx, g.tangentAt S leaves x idx = 0) :
    g.tangentAt S leaves id idx = 0 := by
  cases hn : g.node? id with
  | none => rw [tangentAt, hg.element_eq, elementStep, hn, Scalars.tangent_lit]
  | some n =>
    obtain ⟨kind, shape⟩ := n
    rw [operandsOf_eq hn] at hread
    have hdata : kind.isLeaf → ((leaves id)[Shape.offset idx shape]?.getD (S.dual.lit 0.0)).tangent = 0 := by
      intro hkind
      cases hget : (leaves id)[Shape.offset idx shape]? with
      | none => rfl
      | some x => exact hleaf _ hn hkind x (Array.mem_of_getElem? hget)
    cases kind with
    | input =>
      rw [tangentAt, hg.element_eq, elementStep, hn]
      exact hdata rfl
    | weight =>
      rw [tangentAt, hg.element_eq, elementStep, hn]
      exact hdata rfl
    | constant c => exact hg.tangentAt_constant idx hn
    | unary op x => rw [hg.tangentAt_unary idx hn, hread x (by simp [Kind.operands]), mul_zero]
    | binary op lhs rhs =>
      rw [hg.tangentAt_binary idx hn, hread lhs (by simp [Kind.operands]), hread rhs (by simp [Kind.operands]),
        mul_zero, mul_zero, add_zero]
    | reduce op x axes keepDims =>
      have hx : ∀ i, g.tangentAt S leaves x i = 0 := hread x (by simp [Kind.operands])
      cases op with
      | sum => simp [hg.tangentAt_sum idx hn, hx]
      | max => simp [hg.tangentAt_max idx hn, hx]
    | reshape x => rw [hg.tangentAt_reshape idx hn, hread x (by simp [Kind.operands])]
    | permute x perm => rw [hg.tangentAt_permute idx hn, hread x (by simp [Kind.operands])]
    | matmul lhs rhs =>
      have hl : ∀ i, (g.element S.dual leaves lhs i).tangent = 0 := hread lhs (by simp [Kind.operands])
      have hr : ∀ i, (g.element S.dual leaves rhs i).tangent = 0 := hread rhs (by simp [Kind.operands])
      rw [tangentAt, hg.element_eq, elementStep, hn]
      simp [Function.comp_def, hl, hr]

end

end WellFormed

end Graph

end TensorLoom
