import TensorLoom.Proofs.Graph.Composite
/-
# What a refused construction leaves

Every single operation checks first and appends last, so when it is refused the graph is as it
was (`Extend.Atomic`). A comparison has several steps, but none after the first can be refused.
Negation, rectification and the logistic function append their constants before they look up
their operand; when there is no such node the constants stay (`Construction.build_atomic_iff`).
-/

namespace TensorLoom

namespace Extend

variable {ε α β : Type} {b b' : Extend ε α} {f : α → Extend ε β} {g : Graph}

/-- The computation looks at the graph and leaves it alone. -/
def ReadsOnly (b : Extend ε α) : Prop := ∀ ⦃g r g'⦄, b.runOn g = .ok (r, g') → g' = g

/-- The computation is never refused. -/
def Answers (b : Extend ε α) : Prop := ∀ ⦃g e g'⦄, b.runOn g ≠ .ok (.error e, g')

/-- If the computation is refused, the graph stays as it was. -/
def Atomic (b : Extend ε α) (g : Graph) : Prop := ∀ ⦃e g'⦄, b.runOn g = .ok (.error e, g') → g' = g

theorem ReadsOnly.pure (a : α) : (pure a : Extend ε α).ReadsOnly := by
  intro g r g' h
  cases h
  rfl

theorem ReadsOnly.get : (get : Extend ε Graph).ReadsOnly := by
  intro g r g' h
  cases h
  rfl

theorem ReadsOnly.request (r : Except ε α) : (request r).ReadsOnly := by
  intro g r' g' h
  cases h
  rfl

theorem ReadsOnly.words (r : Except Fault α) : (words r : Extend ε α).ReadsOnly := by
  intro g r' g' h
  cases r with
  | error fault => cases h
  | ok a =>
    cases h
    rfl

theorem ReadsOnly.bind (hb : b.ReadsOnly) (hf : ∀ a, (f a).ReadsOnly) : (b >>= f).ReadsOnly := by
  intro g r g' h
  rw [runOn_bind] at h
  split at h
  · cases h
  · rename_i hrun
    cases h
    exact hb hrun
  · rename_i hrun
    exact (hf _ h).trans (hb hrun)

theorem ReadsOnly.atomic (hb : b.ReadsOnly) : b.Atomic g := fun _ _ h => hb h

theorem Answers.pure (a : α) : (pure a : Extend ε α).Answers := by
  intro g e g' h
  cases h

theorem Answers.words (r : Except Fault α) : (words r : Extend ε α).Answers := by
  intro g e g' h
  cases r <;> cases h

theorem Answers.bind (hb : b.Answers) (hf : ∀ a, (f a).Answers) : (b >>= f).Answers := by
  intro g e g' h
  rw [runOn_bind] at h
  split at h
  · cases h
  · rename_i hrun
    exact hb hrun
  · exact hf _ h

theorem Answers.atomic (hb : b.Answers) : b.Atomic g := fun _ _ h => (hb h).elim

/-- What only looks at the graph may come first. -/
theorem Atomic.bind (hb : b.ReadsOnly) (hf : ∀ a, (f a).Atomic g) : (b >>= f).Atomic g := by
  intro e g' h
  rw [runOn_bind] at h
  split at h
  · cases h
  · rename_i hrun
    cases h
    exact hb hrun
  · rename_i hrun
    obtain rfl := hb hrun
    exact hf _ h

theorem Atomic.ite {c : Prop} [Decidable c] (hb : b.Atomic g) (hb' : b'.Atomic g) :
    Extend.Atomic (if c then b else b') g := by
  split
  · exact hb
  · exact hb'

end Extend

namespace Build

open Extend

variable {g : Graph}

/-! ## Single operations -/

theorem shapeOf_readsOnly (x : Nat) : (shapeOf x).ReadsOnly := .bind (.bind .get fun _ => .request _) fun _ => .pure _

theorem rule_readsOnly {α : Type} (op : String) (r : Except ShapeError α) : (rule op r).ReadsOnly := .request _

theorem push_answers (kind : Kind) (shape : Shape) : (push kind shape).Answers := by
  intro g e g' h
  cases h

theorem leaf_atomic (kind : Kind) (op : String) (shape : Shape) : (leaf kind op shape).Atomic g :=
  .bind (rule_readsOnly ..) fun _ =>
    (Answers.bind (push_answers ..) fun _ => .bind (.words _) fun _ => .pure _).atomic

theorem full_atomic (shape : Shape) (value : Float) : (full shape value).Atomic g :=
  .bind (rule_readsOnly ..) fun _ => (push_answers ..).atomic

theorem unary_atomic (op : UnaryOp) (x : Nat) : (unary op x).Atomic g :=
  .bind (shapeOf_readsOnly x) fun _ => (push_answers ..).atomic

theorem binary_atomic (op : BinaryOp) (lhs rhs : Nat) : (binary op lhs rhs).Atomic g :=
  .bind (shapeOf_readsOnly lhs) fun _ => .bind (shapeOf_readsOnly rhs) fun _ => .bind (rule_readsOnly ..) fun _ =>
    (push_answers ..).atomic

theorem reduce_atomic (op : ReduceOp) (x : Nat) (axes : List Nat) (keepDims : Bool) :
    (reduce op x axes keepDims).Atomic g :=
  .bind (shapeOf_readsOnly x) fun _ => .bind (rule_readsOnly ..) fun _ => .bind (rule_readsOnly ..) fun _ =>
    (push_answers ..).atomic

theorem matmul_atomic (lhs rhs : Nat) : (matmul lhs rhs).Atomic g :=
  .bind (shapeOf_readsOnly lhs) fun _ => .bind (shapeOf_readsOnly rhs) fun _ => .bind (rule_readsOnly ..) fun _ =>
    (push_answers ..).atomic

theorem reshape_atomic (x : Nat) (dims : Shape) : (reshape x dims).Atomic g :=
  .bind (shapeOf_readsOnly x) fun _ => .bind (.words _) fun _ => .bind (rule_readsOnly ..) fun _ => (push_answers ..).atomic

theorem permute_atomic (x : Nat) (perm : List Nat) : (permute x perm).Atomic g :=
  .bind (shapeOf_readsOnly x) fun _ => .bind (rule_readsOnly ..) fun _ => (push_answers ..).atomic

theorem transpose_atomic (x : Nat) : (transpose x).Atomic g :=
  .bind (shapeOf_readsOnly x) fun _ => .ite (permute_atomic x [1, 0]) (rule_readsOnly ..).atomic

theorem sumAll_atomic (x : Nat) : (sumAll x).Atomic g :=
  .bind (shapeOf_readsOnly x) fun _ => .ite (Answers.pure x).atomic (reduce_atomic ..)

/-! ## Operations of several steps -/

theorem Yields.ne_refused {α : Type} {A : Algebra α} {leaves : Leaves α} {b : Build NodeId} {s : Shape}
    {f : List Nat → α} (h : b.Yields A leaves g s f) (e : GraphError) (g' : Graph) : b.runOn g ≠ .ok (.error e, g') := by
  obtain ⟨c, g₁, hrun, -⟩ := h
  rw [hrun]
  intro heq
  cases heq

theorem shapeOf_answered {α : Type} {x : Nat} {f : Shape → Build α} {a : α} {g' : Graph}
    (h : (shapeOf x >>= f).runOn g = .ok (.ok a, g')) :
    x < g.length ∧ (f (g.shapeAt x)).runOn g = .ok (.ok a, g') := by
  rw [runOn_bind] at h
  cases hn : g.node? x with
  | none =>
    rw [runOn_shapeOf_missing hn] at h
    cases h
  | some n =>
    rw [runOn_shapeOf hn, ← Graph.shapeAt_of_node? hn] at h
    exact ⟨Graph.node?_lt hn, h⟩

/-- An operation that was answered had operands that fit. -/
theorem binary_answered {op : BinaryOp} {lhs rhs c : Nat} {g' : Graph}
    (h : (binary op lhs rhs).runOn g = .ok (.ok c, g')) :
    lhs < g.length ∧ rhs < g.length ∧ ∃ s, Shape.broadcast (g.shapeAt lhs) (g.shapeAt rhs) = .ok s := by
  obtain ⟨hl, h⟩ := shapeOf_answered h
  obtain ⟨hr, h⟩ := shapeOf_answered h
  refine ⟨hl, hr, ?_⟩
  cases hjoin : Shape.broadcast (g.shapeAt lhs) (g.shapeAt rhs) with
  | error e =>
    rw [hjoin] at h
    cases h
  | ok s => exact ⟨s, rfl⟩

/-- Operands that fit the first node of a comparison fit the others. -/
theorem gt_atomic (hg : g.WellFormed) (lhs rhs : Nat) : (gt lhs rhs).Atomic g := by
  intro e g' h
  have hrun := h
  rw [gt, runOn_bind] at hrun
  split at hrun
  · cases hrun
  · rename_i hrefused
    cases hrun
    exact binary_atomic .max rhs lhs hrefused
  · rename_i hanswered
    obtain ⟨hr, hl, r, hjoin⟩ := binary_answered hanswered
    have hl : g.Denotes Arith.double.toAlgebra (fun _ => #[]) lhs _ _ := Graph.denotes_self hl
    exact absurd h ((gt_yields hg hl (Graph.denotes_self hr) (Shape.broadcast_comm.1 hjoin)).ne_refused e g')

theorem runOn_binary_missing (op : BinaryOp) {lhs : Nat} (rhs : Nat) (hl : g.length ≤ lhs) :
    (binary op lhs rhs).runOn g = .ok (.error (.unknownNode lhs), g) := by
  have hn : g.node? lhs = none := List.getElem?_eq_none hl
  rw [binary, runOn_bind, runOn_shapeOf_missing hn]

/-- The operand is looked up after the constant was appended. -/
theorem withConstant_missing (op : BinaryOp) (v : Float) {x : Nat} (hx : g.length < x) :
    (constant v >>= fun c => binary op x c : Build NodeId).runOn g =
      .ok (.error (.unknownNode x), g.push (.constant v) []) := by
  rw [runOn_bind_ok (runOn_constant v g), runOn_binary_missing op _ (by rw [Graph.length_push]; omega)]

theorem sigmoid_missing {x : Nat} (hx : g.length + 1 < x) :
    (sigmoid x).runOn g =
      .ok (.error (.unknownNode x), (g.push (.constant 1.0) []).push (.constant (-1.0)) []) := by
  have hneg : (neg x).runOn (g.push (.constant 1.0) []) = _ :=
    withConstant_missing .mul (-1.0) (by rwa [Graph.length_push])
  rw [sigmoid, runOn_bind_ok (runOn_constant 1.0 g), runOn_bind, hneg]

end Build

/-! ## Every construction -/

/-- The graph with scalar constants behind its nodes. -/
def Graph.withConstants (g : Graph) (vs : List Float) : Graph := ⟨g.nodes ++ vs.map fun v => ⟨.constant v, []⟩⟩

theorem Graph.withConstants_ne (g : Graph) {vs : List Float} (h : vs ≠ []) : g.withConstants vs ≠ g := by
  intro heq
  have hlen := congrArg length heq
  simp only [length, withConstants, List.length_append, List.length_map] at hlen
  exact h (List.length_eq_zero_iff.1 (by omega))

namespace Construction

open Build

/-- The operand of an operation that appends constants before it looks the operand up, and
these constants. -/
def early? : Construction → Option (NodeId × List Float)
  | neg x => some (x, [-1.0])
  | relu x => some (x, [0.0])
  | sigmoid x => some (x, [1.0, -1.0])
  | _ => none

variable {g : Graph}

/-- An operation that checks before it appends leaves nothing behind. -/
theorem build_atomic (hg : g.WellFormed) {c : Construction} (h : c.early? = none) : c.build.Atomic g := by
  cases c with
  | input shape => exact leaf_atomic ..
  | weight shape => exact leaf_atomic ..
  | constant value => exact (push_answers ..).atomic
  | full shape value => exact full_atomic ..
  | unary op x => exact unary_atomic ..
  | binary op lhs rhs => exact binary_atomic ..
  | reduce op x axes keepDims => exact reduce_atomic ..
  | matmul lhs rhs => exact matmul_atomic ..
  | reshape x dims => exact reshape_atomic ..
  | permute x perm => exact permute_atomic ..
  | transpose x => exact transpose_atomic x
  | sumAll x => exact sumAll_atomic x
  | square x => exact binary_atomic .mul x x
  | gt lhs rhs => exact gt_atomic hg lhs rhs
  | neg x => cases h
  | relu x => cases h
  | sigmoid x => cases h

theorem early?_eq_some {c : Construction} {x : Nat} {vs : List Float} (h : c.early? = some (x, vs)) :
    c = .neg x ∧ vs = [-1.0] ∨ c = .relu x ∧ vs = [0.0] ∨ c = .sigmoid x ∧ vs = [1.0, -1.0] := by
  cases c <;> cases h <;> simp

/-- An operation that appends constants first is refused only for want of its operand. -/
theorem build_answered (hg : g.WellFormed) {c : Construction} {x : Nat} {vs : List Float} (h : c.early? = some (x, vs))
    (hx : x < g.length + vs.length) (e : GraphError) (g' : Graph) : c.build.runOn g ≠ .ok (.error e, g') := by
  have hyields : ∃ s f, c.build.Yields Arith.double.toAlgebra (fun _ => #[]) g s f := by
    rcases early?_eq_some h with ⟨rfl, rfl⟩ | ⟨rfl, rfl⟩ | ⟨rfl, rfl⟩
    · exact withConstant_yields hg .mul (-1.0) (Nat.le_of_lt_succ hx)
    · exact withConstant_yields hg .max 0.0 (Nat.le_of_lt_succ hx)
    · exact sigmoid_yields hg (Nat.le_of_lt_succ hx)
  obtain ⟨s, f, hyields⟩ := hyields
  exact hyields.ne_refused e g'

/-- Without its operand, its constants stay. -/
theorem build_missing {c : Construction} {x : Nat} {vs : List Float} (h : c.early? = some (x, vs))
    (hx : g.length + vs.length ≤ x) : c.build.runOn g = .ok (.error (.unknownNode x), g.withConstants vs) := by
  rcases early?_eq_some h with ⟨rfl, rfl⟩ | ⟨rfl, rfl⟩ | ⟨rfl, rfl⟩
  · exact withConstant_missing .mul (-1.0) hx
  · exact withConstant_missing .max 0.0 hx
  · have hgraph : (g.push (.constant 1.0) []).push (.constant (-1.0)) [] = g.withConstants [1.0, -1.0] := by
      simp [Graph.push, Graph.withConstants]
    rw [← hgraph]
    exact sigmoid_missing hx

/-- A refused construction leaves the graph untouched, unless it appends constants before it
looks up its operand and there is no such node even behind them. Then it is always refused,
and the constants stay. -/
theorem build_atomic_iff (hg : g.Built) (c : Construction) :
    ((∀ e g', c.build.runOn g = .ok (.error e, g') → g' = g) ↔
      ∀ x vs, c.early? = some (x, vs) → x < g.length + vs.length) ∧
    ∀ x vs, c.early? = some (x, vs) → g.length + vs.length ≤ x →
      c.build.runOn g = .ok (.error (.unknownNode x), g.withConstants vs) := by
  refine ⟨⟨fun h x vs hearly => ?_, fun h e g' hrun => ?_⟩, fun x vs => build_missing⟩
  · by_contra hx
    have hvs : vs ≠ [] := by
      rcases early?_eq_some hearly with ⟨-, rfl⟩ | ⟨-, rfl⟩ | ⟨-, rfl⟩ <;> simp
    exact g.withConstants_ne hvs (h _ _ (build_missing hearly (Nat.le_of_not_lt hx)))
  · cases hearly : c.early? with
    | none => exact build_atomic hg.wellFormed hearly hrun
    | some early => exact absurd hrun (build_answered hg.wellFormed hearly (h _ _ hearly) e g')

/-- The negation of a node that does not exist is refused, and leaves its constant behind. -/
theorem build_neg_missing :
    Graph.Built {} ∧ ∃ g', (neg 9).build.runOn {} = .ok (.error (.unknownNode 9), g') ∧ g' ≠ {} :=
  ⟨.empty, _, rfl, Graph.withConstants_ne {} (List.cons_ne_nil (-1.0) [])⟩

/-- Over one leaf: a comparison that is refused leaves nothing, a logistic function both its
constants. -/
theorem build_atomic_iff_oneInput :
    ∃ g, g.Built ∧ (∀ e g', (gt 0 7).build.runOn g = .ok (.error e, g') → g' = g) ∧
      (sigmoid 7).build.runOn g = .ok (.error (.unknownNode 7), g.withConstants [1.0, -1.0]) := by
  have hg : Graph.Built ⟨[⟨.input, [2]⟩]⟩ := .call (r := .ok 0) (.input [2]) .empty rfl
  refine ⟨_, hg, (build_atomic_iff hg (gt 0 7)).1.2 (fun x vs h => ?_), ?_⟩
  · cases h
  · exact (build_atomic_iff hg (sigmoid 7)).2 7 [1.0, -1.0] rfl (by decide)

end Construction

end TensorLoom
