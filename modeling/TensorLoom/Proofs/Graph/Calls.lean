import TensorLoom.Proofs.Graph.WellFormed
import TensorLoom.Proofs.Program.Scope
import TensorLoom.Training
/-
# Calls that extend a graph

Gradients, compiled graphs and training steps are made of constructions, and so is whatever
they leave behind when they are refused: each of them appends fitting nodes
(`differentiate_grows`, `Training.compile_grows`). A graph that calls have led to, in any
order, is therefore lawful: every node has exactly the shape that its rule gives, and no
call changes a node that was there before (`Graph.performCalls_lawful`).
-/

namespace TensorLoom

/-! ## Steps that leave the graph alone, and loops -/

namespace Extend.Grows

variable {ε ε' α β : Type}

theorem answer (r : Except Fault (Except ε α)) : (Extend.answer r).Grows := by
  intro g r' g' h
  cases r with
  | error fault => cases h
  | ok a =>
    cases h
    exact .refl g

theorem get : (get : Extend ε Graph).Grows := by
  intro g r g' h
  cases h
  exact .refl g

theorem throw (e : ε) : (throw e : Extend ε α).Grows := answer (.ok (.error e))

theorem adapt {b : Extend ε α} (hb : b.Grows) (f : ε → ε') : Extend.Grows (b.adapt f) := by
  intro g r g' h
  rw [runOn_adapt] at h
  cases hrun : b.runOn g with
  | error fault =>
    rw [hrun] at h
    cases h
  | ok x =>
    rw [hrun] at h
    cases h
    exact hb hrun

theorem ite {c : Prop} [Decidable c] {b b' : Extend ε α} (hb : b.Grows) (hb' : b'.Grows) : Extend.Grows (if c then b else b') := by
  split
  · exact hb
  · exact hb'

theorem mapM {f : α → Extend ε β} (hf : ∀ a, (f a).Grows) (xs : List α) : (xs.mapM f).Grows := by
  induction xs with
  | nil => exact pure _
  | cons x xs ih =>
    rw [List.mapM_cons]
    exact bind (hf x) fun _ => bind ih fun _ => pure _

theorem foldlM {f : β → α → Extend ε β} (hf : ∀ b a, (f b a).Grows) (xs : List α) (b : β) : (xs.foldlM f b).Grows := by
  induction xs generalizing b with
  | nil => exact pure b
  | cons x xs ih => exact bind (hf b x) fun b => ih b

end Extend.Grows

/-! ## Gradients -/

namespace Gradient

open Extend Build

/-- Whatever has been found so far, the graph only grows. -/
def Spreads {γ : Type} (b : Backward γ) : Prop := ∀ table, (b.run table).Grows

namespace Spreads

variable {γ δ : Type}

theorem pure (c : γ) : Spreads (pure c : Backward γ) := fun _ => .pure _

theorem bind {b : Backward γ} {f : γ → Backward δ} (hb : Spreads b) (hf : ∀ c, Spreads (f c)) : Spreads (b >>= f) :=
  fun table => .bind (hb table) fun r => hf r.1 r.2

/-- A construction in between. -/
theorem build {b : Build γ} (hb : b.Grows) : Spreads (liftM b : Backward γ) := fun _ => .bind hb fun _ => .pure _

theorem get : Spreads (get : Backward Table) := fun _ => .pure _

theorem modify (f : Table → Table) : Spreads (modify f : Backward PUnit) := fun _ => .pure _

theorem forM {f : γ → Backward PUnit} (hf : ∀ c, Spreads (f c)) (cs : List γ) : Spreads (cs.forM f) := by
  induction cs with
  | nil => exact pure _
  | cons c cs ih => exact bind (hf c) fun _ => ih

end Spreads

theorem fetch_grows (x : Nat) : (fetch x).Grows := .bind .get fun _ => .words _

theorem unbroadcast_grows (x c : Nat) : (unbroadcast x c).Grows := by
  refine .bind (fetch_grows x) fun n => .bind (fetch_grows c) fun m => .ite (.pure c) (.bind (.words _) fun axes => ?_)
  have hshaped (d : Nat) : (fetch d >>= fun nd => if nd.shape = n.shape then pure d else Build.reshape d n.shape).Grows :=
    .bind (fetch_grows d) fun _ => .ite (.pure d) (reshape_grows d n.shape)
  exact .ite (.bind (.pure c) hshaped) (.bind (reduce_grows .sum c axes true) hshaped)

variable (needs : Needs)

theorem contribute_spreads (x c : Nat) : Spreads (contribute needs x c) := by
  unfold contribute
  split
  · refine .bind (.build (unbroadcast_grows x c)) fun part => .bind .get fun table => ?_
    split
    · exact .modify _
    · exact .bind (.build (binary_grows .add _ part)) fun _ => .modify _
  · exact .pure _

theorem contributeBy_spreads (x : Nat) {part : Build NodeId} (hpart : part.Grows) :
    Spreads (contributeBy needs x part) := by
  unfold contributeBy
  split
  · exact .bind (.build hpart) fun c => contribute_spreads needs x c
  · exact .pure _

theorem unaryRule_spreads (id : Nat) (op : UnaryOp) (x up : Nat) : Spreads (unaryRule needs id op x up) := by
  refine contributeBy_spreads needs x ?_
  cases op with
  | exp => exact binary_grows .mul up id
  | log => exact binary_grows .div up x
  | sin =>
    exact .bind (constant_grows _) fun _ => .bind (binary_grows ..) fun _ => .bind (unary_grows ..) fun _ => binary_grows ..
  | sqrt => exact .bind (constant_grows _) fun _ => .bind (binary_grows ..) fun _ => binary_grows ..
  | cast => exact .pure up
  | nop => exact .pure up

theorem binaryRule_spreads (id : Nat) (op : BinaryOp) (lhs rhs up : Nat) : Spreads (binaryRule needs id op lhs rhs up) := by
  have hone (f : BinaryOp) (a b : Nat) (x : Nat) : Spreads (contributeBy needs x (Build.binary f a b)) :=
    contributeBy_spreads needs x (binary_grows f a b)
  cases op with
  | add => exact .bind (contribute_spreads needs lhs up) fun _ => contribute_spreads needs rhs up
  | sub => exact .bind (contribute_spreads needs lhs up) fun _ => contributeBy_spreads needs rhs (neg_grows up)
  | mul => exact .bind (hone .mul up rhs lhs) fun _ => hone .mul up lhs rhs
  | div =>
    refine .bind (hone .div up rhs lhs) fun _ => contributeBy_spreads needs rhs ?_
    exact .bind (binary_grows ..) fun _ => .bind (binary_grows ..) fun _ => .bind (binary_grows ..) fun _ => neg_grows _
  | pow =>
    refine .bind (contributeBy_spreads needs lhs ?_) fun _ => contributeBy_spreads needs rhs ?_
    · exact .bind (constant_grows _) fun _ => .bind (binary_grows ..) fun _ => .bind (binary_grows ..) fun _ =>
        .bind (binary_grows ..) fun _ => binary_grows ..
    · exact .bind (unary_grows ..) fun _ => .bind (binary_grows ..) fun _ => binary_grows ..
  | cmp => exact .pure _
  | max =>
    refine .bind (.build (binary_grows .cmp id lhs)) fun mask => .bind (hone .mul up mask lhs) fun _ => ?_
    exact contributeBy_spreads needs rhs (.bind (constant_grows _) fun _ => .bind (binary_grows ..) fun _ => binary_grows ..)

theorem reduceRule_spreads (id : Nat) (op : ReduceOp) (x : Nat) (axes : List Nat) (keepDims : Bool) (up : Nat) :
    Spreads (reduceRule needs id op x axes keepDims up) := by
  refine contributeBy_spreads needs x (.bind (fetch_grows x) fun n => .bind (.answer _) fun kept => ?_)
  -- a node is taken as it is, or reshaped first
  have hkept {f : NodeId → Build NodeId} (d : Nat) (hf : ∀ d, (f d).Grows) :
      (if keepDims then pure d >>= f else Build.reshape d kept >>= f : Build NodeId).Grows :=
    .ite (.bind (.pure d) hf) (.bind (reshape_grows d kept) hf)
  refine hkept up fun up => ?_
  cases op with
  | sum => exact .bind (full_grows ..) fun _ => binary_grows ..
  | max =>
    exact hkept id fun _ => .bind (binary_grows ..) fun _ => .bind (reduce_grows ..) fun _ =>
      .bind (binary_grows ..) fun _ => binary_grows ..

theorem asMatrix_grows (x : Nat) (shape : Shape) (matrix : Shape.Matrix) : (asMatrix x shape matrix).Grows :=
  .ite (.pure x) (reshape_grows x matrix.shape)

theorem ofMatrix_grows (x : Nat) (shape : Shape) : (ofMatrix x shape).Grows := .ite (.pure x) (reshape_grows x shape)

theorem matmulRule_spreads (lhs rhs up : Nat) : Spreads (matmulRule needs lhs rhs up) := by
  unfold matmulRule
  split
  · refine .bind (.build (fetch_grows lhs)) fun nl => .bind (.build (fetch_grows rhs)) fun nr => ?_
    refine .bind (.build (.answer _)) fun matrices => ?_
    refine .bind (.build (asMatrix_grows ..)) fun left => .bind (.build (asMatrix_grows ..)) fun right => ?_
    refine .bind (contributeBy_spreads needs lhs ?_) fun _ => contributeBy_spreads needs rhs ?_
    · exact .bind (transpose_grows right) fun _ => .bind (matmul_grows ..) fun _ => ofMatrix_grows ..
    · exact .bind (transpose_grows left) fun _ => .bind (matmul_grows ..) fun _ => ofMatrix_grows ..
  · exact .pure _

theorem rule_spreads (id : Nat) (kind : Kind) (up : Nat) : Spreads (rule needs id kind up) := by
  cases kind with
  | input => exact .pure _
  | weight => exact .pure _
  | constant value => exact .pure _
  | unary op x => exact unaryRule_spreads needs id op x up
  | binary op lhs rhs => exact binaryRule_spreads needs id op lhs rhs up
  | reduce op x axes keepDims => exact reduceRule_spreads needs id op x axes keepDims up
  | reshape x =>
    exact .bind (.build (fetch_grows x)) fun n => .bind (.build (reshape_grows up n.shape)) fun c =>
      contribute_spreads needs x c
  | permute x perm =>
    exact .bind (.build (.words _)) fun inverse => .bind (.build (permute_grows up inverse)) fun c =>
      contribute_spreads needs x c
  | matmul lhs rhs => exact matmulRule_spreads needs lhs rhs up

theorem propagateAt_spreads (i : Nat) : Spreads (propagateAt needs i) := by
  unfold propagateAt
  split
  · refine .bind .get fun table => ?_
    split
    · exact .pure _
    · exact .bind (.build (fetch_grows i)) fun node => rule_spreads needs i node.kind _
  · exact .pure _

theorem propagate_spreads (root : Nat) : Spreads (propagate needs root) :=
  .bind (.build (fetch_grows root)) fun n => .bind (.build (full_grows n.shape 1.0)) fun _ => .bind (.modify _) fun _ =>
    .forM (propagateAt_spreads needs) _

theorem gradientOf_grows (table : Table) (target : Nat) : (gradientOf table target).Grows := by
  unfold gradientOf
  split
  · exact .pure _
  · exact .bind (fetch_grows target) fun _ => full_grows ..

theorem gradients_grows (root : Nat) (targets : List Nat) : (gradients root targets).Grows :=
  .bind .get fun _ => .bind (propagate_spreads _ root []) fun _ =>
    .foldlM (fun _ t => .bind (gradientOf_grows _ t) fun _ => .pure _) targets []

end Gradient

theorem differentiate_grows (root : Nat) (targets : List Nat) : (differentiate root targets).Grows :=
  .bind .get fun _ => .bind (.answer _) fun _ => .adapt (Gradient.gradients_grows root targets) _

/-! ## Compiled graphs and training steps -/

section
variable {α : Type} (A : Arith α)

theorem compileGraph_grows (root : Nat) (targets : List Nat) (backend : Backend α) :
    (compileGraph A root targets backend).Grows := by
  refine .bind (.adapt (.bind .get fun _ => .answer _) _) fun _ => ?_
  refine .ite (.bind (.pure []) fun _ => ?_) (.bind (.adapt (differentiate_grows root targets) _) fun _ => ?_)
  all_goals
    exact .bind .get fun _ => .bind (.adapt (.answer _) _) fun _ => .bind (.adapt (.answer _) _) fun _ => .pure _

namespace Training

theorem planLoss_grows (root : Nat) : (planLoss root).Grows :=
  .bind (.bind (.bind .get fun _ => .answer _) fun _ => .pure _) fun shape =>
    .bind (Build.leaf_grows rfl "input" shape) fun _ => .bind (Build.binary_grows ..) fun _ =>
      .bind (Build.binary_grows ..) fun _ => .pure _

theorem planUpdates_grows (rate : Float) (grads : Gradients) : (planUpdates rate grads).Grows :=
  .bind (Build.constant_grows rate) fun _ => .mapM (fun _ =>
    .bind (Build.binary_grows ..) fun _ => .bind (Build.binary_grows ..) fun _ => .pure _) grads

theorem plan_grows (root : Nat) (rate : Float) : (plan root rate).Grows :=
  .bind (.adapt (planLoss_grows root) _) fun _ => .bind .get fun _ => .bind (.adapt (.answer _) _) fun _ =>
    .bind (.adapt (differentiate_grows ..) _) fun _ => .bind (.adapt (planUpdates_grows ..) _) fun _ => .pure _

theorem leafHandle_grows (id : Nat) : (leafHandle id).Grows := .bind .get fun _ => .answer _

/-- A training step, compiled or refused, appends fitting nodes. -/
theorem compile_grows (root : Nat) (rate : Float) (backend : Backend α) : (compile A root rate backend).Grows := by
  refine .ite (.bind (.throw _) fun _ => ?_) ?_
  all_goals
    refine .bind (plan_grows root rate) fun _ => .bind .get fun _ => .bind (.adapt (.answer _) _) fun _ => ?_
    refine .bind (.adapt (.answer _) _) fun _ => .bind (.adapt (.mapM leafHandle_grows _) _) fun _ => ?_
    exact .bind (.adapt (leafHandle_grows _) _) fun _ => .pure _

end Training

/-! ## Graphs that calls lead to -/

namespace Graph

/-- A call that can extend a graph. -/
inductive Call (α : Type) where
  | construct (c : Construction)
  | differentiate (root : NodeId) (targets : List NodeId)
  | compile (root : NodeId) (targets : List NodeId) (backend : Backend α)
  | train (root : NodeId) (rate : Float) (backend : Backend α)

/-- What a call leaves of a graph, whether it is answered or refused. -/
def Call.perform (call : Call α) (g : Graph) : Except Fault Graph :=
  match call with
  | construct c => (c.build.runOn g).map Prod.snd
  | differentiate root targets => ((TensorLoom.differentiate root targets).runOn g).map Prod.snd
  | compile root targets backend => ((compileGraph A root targets backend).runOn g).map Prod.snd
  | train root rate backend => ((Training.compile A root rate backend).runOn g).map Prod.snd

/-- Calls one after the other. -/
def performCalls (calls : List (Call α)) (g : Graph) : Except Fault Graph := calls.foldlM (fun g call => call.perform A g) g

/-- Operands come first, extents are positive, and every node is what its operation asks for. -/
structure Lawful (g : Graph) : Prop where
  operand_lt : ∀ {id : Nat} {n}, g.node? id = some n → ∀ x : Nat, x ∈ n.kind.operands → x < id
  positive : ∀ {id : Nat} {n}, g.node? id = some n → ∀ d ∈ n.shape, 0 < d
  ruled : ∀ {id : Nat} {n}, g.node? id = some n → n.kind.Ruled g n.shape
  axes : ∀ {id x : Nat} {op axes keepDims s}, g.node? id = some ⟨.reduce op x axes keepDims, s⟩ →
    axes ≠ [] ∧ axes.Pairwise (· < ·) ∧ ∀ a ∈ axes, a < (g.shapeAt x).length
  perm : ∀ {id x : Nat} {perm s}, g.node? id = some ⟨.permute x perm, s⟩ → perm.Perm (List.range (g.shapeAt x).length)
  count : ∀ {id x : Nat} {s}, g.node? id = some ⟨.reshape x, s⟩ →
    Shape.size s = Shape.size (g.shapeAt x) ∧ ∃ n, Shape.elementCount s = .ok n ∧ Shape.elementCount (g.shapeAt x) = .ok n

/-- A graph grown from nothing is lawful. -/
theorem Grows.lawful {g : Graph} (h : Grows {} g) : g.Lawful := by
  have hg := h.wellFormed wellFormed_empty
  have hruled {id : Nat} {n : Node} (hn : g.node? id = some n) : n.kind.Ruled g n.shape :=
    h.ruled wellFormed_empty (fun hn => by simp [node?] at hn) hn
  refine ⟨hg.operand_lt, hg.positive, hruled, fun hn => ?_, fun hn => ?_, fun hn => ?_⟩
  · have haxes := (Shape.normalizeAxes_eq_ok (hruled hn).1).1
    exact ⟨haxes.ne_nil, haxes.increasing, haxes.lt_rank⟩
  · exact (Shape.permute_eq_ok.1 (hruled hn)).1.perm_range
  · obtain ⟨-, -, n, hx, hs⟩ := Shape.counts_of_reshape (hruled hn)
    exact ⟨(Shape.reshape_eq_ok (hruled hn)).2.1, n, hs, hx⟩

variable {A}

theorem Call.perform_grows {call : Call α} {g g' : Graph} (h : call.perform A g = .ok g') : g.Grows g' := by
  have hgrows {ε γ : Type} {b : Extend ε γ} (hb : b.Grows) (hrun : (b.runOn g).map Prod.snd = .ok g') : g.Grows g' := by
    cases hx : b.runOn g with
    | error fault =>
      rw [hx] at hrun
      cases hrun
    | ok x =>
      rw [hx] at hrun
      cases hrun
      exact hb hx
  cases call with
  | construct c => exact hgrows c.build_grows h
  | differentiate root targets => exact hgrows (differentiate_grows root targets) h
  | compile root targets backend => exact hgrows (compileGraph_grows A root targets backend) h
  | train root rate backend => exact hgrows (Training.compile_grows A root rate backend) h

theorem performCalls_grows {calls : List (Call α)} {g g' : Graph} (h : performCalls A calls g = .ok g') : g.Grows g' := by
  induction calls generalizing g with
  | nil =>
    cases h
    exact .refl _
  | cons call calls ih =>
    obtain ⟨g₁, hcall, hcalls⟩ := bind_eq_ok.1 h
    exact (Call.perform_grows hcall).trans (ih hcalls)

variable (A) in
/-- Calls from the empty graph, answered or refused, lead to lawful graphs only, and one more
call keeps the nodes that are there. -/
theorem performCalls_lawful {calls : List (Call α)} {g : Graph} (h : performCalls A calls {} = .ok g) :
    g.Lawful ∧ ∀ (call : Call α) {g' : Graph}, call.perform A g = .ok g' → g.nodes <+: g'.nodes ∧ g'.Lawful := by
  have hgrown := performCalls_grows h
  refine ⟨hgrown.lawful, fun call g' hcall => ?_⟩
  have hgrows := Call.perform_grows hcall
  exact ⟨hgrows.toExtends, (hgrown.trans hgrows).lawful⟩

/-- The sum of a product, then a permutation and a reshape that are refused, a negation that is
refused after its constant was appended, and a gradient. -/
def Call.productSum : List (Call Float) := [
  .construct (.weight [2, 1]), .construct (.input [3]), .construct (.binary .mul 0 1),
  .construct (.reduce .sum 2 [1, 0] false), .construct (.permute 2 [0, 0]), .construct (.reshape 2 [5]),
  .construct (.neg 9), .differentiate 3 [0]]

theorem performCalls_lawful_productSum :
    ∃ g g', performCalls .double Call.productSum {} = .ok g ∧ (Call.train 3 0.1 (.machine .double)).perform .double g = .ok g' ∧
      g.Lawful ∧ g.nodes <+: g'.nodes ∧ g'.Lawful := by
  have hrun : (performCalls .double Call.productSum {} >>= (Call.train 3 0.1 (.machine .double)).perform .double).isOk = true := by
    decide +kernel
  obtain ⟨g', hrun⟩ := exists_eq_ok hrun
  obtain ⟨g, hcalls, htrain⟩ := bind_eq_ok.1 hrun
  obtain ⟨hg, hnext⟩ := performCalls_lawful .double hcalls
  exact ⟨g, g', hcalls, htrain, hg, hnext _ htrain⟩

end Graph

end

end TensorLoom
