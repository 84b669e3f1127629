import TensorLoom.Graph.Build
import TensorLoom.Proofs.Shape.Axes
import TensorLoom.Proofs.Shape.Rearrange
/-
# Well-formed graphs

In a well-formed graph operands come before the nodes that read them, every extent is
positive, and the shape of a node is the one its operation gives. A construction, whether it
is answered or refused, appends nodes whose operands are there and whose shapes their rules
gave (`Construction.build_grows`), and nothing else happens to a graph; so every graph that
callers can build is well-formed (`Graph.Built.wellFormed`).
-/

namespace TensorLoom

namespace Graph

/-- The shape of a node; a missing node counts as a scalar. -/
def shapeAt (g : Graph) (x : Nat) : Shape := ((g.node? x).map Node.shape).getD []

theorem shapeAt_of_node? {g : Graph} {x : Nat} {n : Node} (h : g.node? x = some n) : g.shapeAt x = n.shape := by
  simp [shapeAt, h]

theorem node?_lt {g : Graph} {x : Nat} {n : Node} (h : g.node? x = some n) : x < g.length :=
  (List.getElem?_eq_some_iff.1 h).1

theorem exists_node? {g : Graph} {x : Nat} (h : x < g.length) : ∃ n, g.node? x = some n :=
  ⟨_, List.getElem?_eq_getElem h⟩

theorem node_eq_ok {g : Graph} {x : Nat} {n : Node} : g.node x = .ok n ↔ g.node? x = some n := by
  unfold node
  cases g.node? x <;> simp

theorem node_eq_error {g : Graph} {x : Nat} (h : g.node? x = none) : g.node x = .error (.unknownNode x) := by
  simp [node, h]

/-- The graph with one more node. -/
def push (g : Graph) (kind : Kind) (shape : Shape) : Graph := ⟨g.nodes ++ [⟨kind, shape⟩]⟩

/-- The second graph has the nodes of the first, and perhaps more behind them. -/
def Extends (g g' : Graph) : Prop := g.nodes <+: g'.nodes

theorem Extends.refl (g : Graph) : g.Extends g := List.prefix_refl _

theorem Extends.trans {g₁ g₂ g₃ : Graph} (h : g₁.Extends g₂) (h' : g₂.Extends g₃) : g₁.Extends g₃ :=
  List.IsPrefix.trans h h'

theorem extends_push (g : Graph) (kind : Kind) (shape : Shape) : g.Extends (g.push kind shape) :=
  List.prefix_append _ _

theorem Extends.length_le {g g' : Graph} (h : g.Extends g') : g.length ≤ g'.length := List.IsPrefix.length_le h

theorem Extends.node? {g g' : Graph} (h : g.Extends g') {x : Nat} (hx : x < g.length) :
    g'.node? x = g.node? x := by
  obtain ⟨ns, hns⟩ := h
  unfold Graph.node?
  rw [← hns, List.getElem?_append_left hx]

theorem Extends.shapeAt {g g' : Graph} (h : g.Extends g') {x : Nat} (hx : x < g.length) :
    g'.shapeAt x = g.shapeAt x := by
  rw [Graph.shapeAt, h.node? hx, Graph.shapeAt]

theorem length_push (g : Graph) (kind : Kind) (shape : Shape) : (g.push kind shape).length = g.length + 1 := by
  simp [length, push]

theorem node?_push_self (g : Graph) (kind : Kind) (shape : Shape) :
    (g.push kind shape).node? g.length = some ⟨kind, shape⟩ := by
  simp [Graph.node?, push, length]

theorem node?_push {g : Graph} {kind : Kind} {shape : Shape} {x : Nat} {n : Node}
    (h : (g.push kind shape).node? x = some n) : g.node? x = some n ∨ (x = g.length ∧ n = ⟨kind, shape⟩) := by
  have hx := node?_lt h
  rw [length_push] at hx
  by_cases hlt : x < g.length
  · rw [(extends_push g kind shape).node? hlt] at h
    exact .inl h
  · have : x = g.length := by omega
    subst this
    rw [node?_push_self] at h
    exact .inr ⟨rfl, (Option.some.inj h).symm⟩

end Graph

/-- The shape is the one that the operation gives for the shapes of its operands. -/
def Kind.Fits (g : Graph) (kind : Kind) (shape : Shape) : Prop :=
  match kind with
  | .input | .weight | .constant _ => True
  | .unary _ x => shape = g.shapeAt x
  | .binary _ lhs rhs => Shape.broadcast (g.shapeAt lhs) (g.shapeAt rhs) = .ok shape
  | .reduce _ x axes keepDims =>
    Shape.SortedAxes axes (g.shapeAt x).length ∧ shape = Shape.reduced axes keepDims (g.shapeAt x)
  | .reshape x => Shape.size shape = Shape.size (g.shapeAt x)
  | .permute x perm => Shape.permute (g.shapeAt x) perm = .ok shape
  | .matmul lhs rhs => Shape.matmul (g.shapeAt lhs) (g.shapeAt rhs) = .ok shape

theorem Kind.Fits.of_extends {g g' : Graph} (h : g.Extends g') {kind : Kind} {shape : Shape}
    (hx : ∀ x : Nat, x ∈ kind.operands → x < g.length) (hf : kind.Fits g shape) : kind.Fits g' shape := by
  cases kind <;> simp_all [Kind.Fits, Kind.operands, h.shapeAt]

/-- Operands come first, extents are positive and shapes are right. -/
structure Graph.WellFormed (g : Graph) : Prop where
  operand_lt : ∀ {id : Nat} {n}, g.node? id = some n → ∀ x : Nat, x ∈ n.kind.operands → x < id
  positive : ∀ {id : Nat} {n}, g.node? id = some n → n.shape.Positive
  fits : ∀ {id : Nat} {n}, g.node? id = some n → n.kind.Fits g n.shape

namespace Graph

theorem wellFormed_empty : WellFormed {} :=
  ⟨fun h => by simp [node?] at h, fun h => by simp [node?] at h, fun h => by simp [node?] at h⟩

theorem WellFormed.shapeAt_positive {g : Graph} (h : g.WellFormed) (x : Nat) : (g.shapeAt x).Positive := by
  unfold Graph.shapeAt
  cases hn : g.node? x with
  | none => exact Shape.positive_nil
  | some n => exact h.positive hn

/-- A fitting node behind the others keeps a graph well-formed. -/
theorem WellFormed.push {g : Graph} (h : g.WellFormed) {kind : Kind} {shape : Shape}
    (hx : ∀ x : Nat, x ∈ kind.operands → x < g.length) (hp : shape.Positive) (hf : kind.Fits g shape) :
    (g.push kind shape).WellFormed := by
  have hext := extends_push g kind shape
  refine ⟨fun {id n} hn => ?_, fun {id n} hn => ?_, fun {id n} hn => ?_⟩
  · rcases node?_push hn with hn | ⟨rfl, rfl⟩
    · exact h.operand_lt hn
    · exact hx
  · rcases node?_push hn with hn | ⟨rfl, rfl⟩
    · exact h.positive hn
    · exact hp
  · rcases node?_push hn with hn | ⟨rfl, rfl⟩
    · have hlt := node?_lt hn
      exact (h.fits hn).of_extends hext fun x hx => Nat.lt_trans (h.operand_lt hn x hx) hlt
    · exact hf.of_extends hext hx

end Graph

/-! ## Growth -/

/-- The shape is what the rule of the operation answers for the shapes of the operands. -/
def Kind.Ruled (g : Graph) (kind : Kind) (shape : Shape) : Prop :=
  match kind with
  | .input | .weight | .constant _ => Shape.validate shape = .ok ()
  | .unary _ x => shape = g.shapeAt x
  | .binary _ lhs rhs => Shape.broadcast (g.shapeAt lhs) (g.shapeAt rhs) = .ok shape
  | .reduce _ x axes keepDims =>
    Shape.normalizeAxes axes (g.shapeAt x).length = .ok axes ∧ Shape.reduce (g.shapeAt x) axes keepDims = .ok shape
  | .reshape x => Shape.reshape (g.shapeAt x) shape = .ok (.ok shape)
  | .permute x perm => Shape.permute (g.shapeAt x) perm = .ok shape
  | .matmul lhs rhs => Shape.matmul (g.shapeAt lhs) (g.shapeAt rhs) = .ok shape

namespace Kind.Ruled

variable {g : Graph} {kind : Kind} {shape : Shape}

theorem of_extends {g' : Graph} (h : g.Extends g') (hx : ∀ x : Nat, x ∈ kind.operands → x < g.length)
    (hr : kind.Ruled g shape) : kind.Ruled g' shape := by
  cases kind <;> simp_all [Kind.Ruled, Kind.operands, h.shapeAt]

theorem fits (h : kind.Ruled g shape) : kind.Fits g shape := by
  cases kind with
  | input => trivial
  | weight => trivial
  | constant value => trivial
  | unary op x => exact h
  | binary op lhs rhs => exact h
  | reduce op x axes keepDims =>
    obtain ⟨haxes, hreduce⟩ := h
    obtain ⟨ns, hns, hshape⟩ := Shape.reduce_eq_ok.1 hreduce
    obtain rfl : axes = ns := Except.ok.inj (haxes.symm.trans hns)
    exact ⟨(Shape.normalizeAxes_eq_ok haxes).1, hshape⟩
  | reshape x => exact (Shape.reshape_eq_ok h).2.1
  | permute x perm => exact h
  | matmul lhs rhs => exact h

/-- The rules give positive extents for positive extents. -/
theorem positive (h : kind.Ruled g shape) (hg : g.WellFormed) : shape.Positive := by
  cases kind with
  | input => exact Shape.validate_eq_ok_iff.1 h
  | weight => exact Shape.validate_eq_ok_iff.1 h
  | constant value => exact Shape.validate_eq_ok_iff.1 h
  | unary op x => exact h ▸ hg.shapeAt_positive x
  | binary op lhs rhs => exact Shape.broadcast_positive h (hg.shapeAt_positive lhs) (hg.shapeAt_positive rhs)
  | reduce op x axes keepDims =>
    obtain ⟨ns, -, rfl⟩ := Shape.reduce_eq_ok.1 h.2
    exact (hg.shapeAt_positive x).reduced keepDims
  | reshape x => exact (Shape.reshape_eq_ok h).1
  | permute x perm => exact Shape.permute_positive h (hg.shapeAt_positive x)
  | matmul lhs rhs => exact Shape.matmul_positive h (hg.shapeAt_positive lhs) (hg.shapeAt_positive rhs)

end Kind.Ruled

namespace Graph

/-- The second graph continues the first, one node after the other: the operands of each are
there when it comes, and its shape is what the rule answers. -/
inductive Grows : Graph → Graph → Prop
  | refl (g : Graph) : Grows g g
  | push {g g' : Graph} {kind : Kind} {shape : Shape} : Grows g g' → (∀ x : Nat, x ∈ kind.operands → x < g'.length) →
    kind.Ruled g' shape → Grows g (g'.push kind shape)

namespace Grows

variable {g g₁ g₂ : Graph}

theorem trans (h : g.Grows g₁) (h' : g₁.Grows g₂) : g.Grows g₂ := by
  induction h' with
  | refl => exact h
  | push _ hx hr ih => exact .push ih hx hr

theorem toExtends (h : g.Grows g₁) : g.Extends g₁ := by
  induction h with
  | refl => exact .refl _
  | push _ _ _ ih => exact ih.trans (extends_push ..)

theorem wellFormed (h : g.Grows g₁) (hg : g.WellFormed) : g₁.WellFormed := by
  induction h with
  | refl => exact hg
  | push _ hx hr ih => exact ih.push hx (hr.positive ih) hr.fits

/-- Later nodes do not change what the rules answer for earlier ones. -/
theorem ruled (h : g.Grows g₁) (hg : g.WellFormed) (hr : ∀ {id : Nat} {n}, g.node? id = some n → n.kind.Ruled g n.shape)
    {id : Nat} {n : Node} (hn : g₁.node? id = some n) : n.kind.Ruled g₁ n.shape := by
  induction h with
  | refl => exact hr hn
  | push hgrows hx hrule ih =>
    rcases node?_push hn with hn | ⟨rfl, rfl⟩
    · refine (ih hn).of_extends (extends_push ..) fun x hx => ?_
      exact Nat.lt_trans ((hgrows.wellFormed hg).operand_lt hn x hx) (node?_lt hn)
    · exact hrule.of_extends (extends_push ..) hx

end Grows

end Graph

/-! ## Running constructions -/

namespace Extend

variable {ε α β : Type} {g : Graph}

theorem runOn_bind (b : Extend ε α) (f : α → Extend ε β) (g : Graph) :
    (b >>= f).runOn g =
      match b.runOn g with
      | .error fault => .error fault
      | .ok (.error e, g') => .ok (.error e, g')
      | .ok (.ok a, g') => (f a).runOn g' := by
  unfold runOn
  rw [ExceptT.run_bind, StateT.run_bind]
  cases b.run.run g with
  | error fault => rfl
  | ok p =>
    obtain ⟨r, g'⟩ := p
    cases r <;> rfl

theorem runOn_bind_ok {b : Extend ε α} {f : α → Extend ε β} {a : α} {g' : Graph} (h : b.runOn g = .ok (.ok a, g')) :
    (b >>= f).runOn g = (f a).runOn g' := by
  rw [runOn_bind, h]

theorem runOn_map (f : α → β) (b : Extend ε α) (g : Graph) :
    (f <$> b).runOn g = (b.runOn g).map fun (r, g') => (r.map f, g') := by
  unfold runOn
  rw [ExceptT.run_map, StateT.run_map]
  cases b.run.run g <;> rfl

@[simp] theorem runOn_pure (a : α) (g : Graph) : (pure a : Extend ε α).runOn g = .ok (.ok a, g) := rfl

@[simp] theorem runOn_get (g : Graph) : (get : Extend ε Graph).runOn g = .ok (.ok g, g) := rfl

@[simp] theorem runOn_request (r : Except ε α) (g : Graph) : (request r).runOn g = .ok (r, g) := rfl

theorem runOn_words (r : Except Fault α) (g : Graph) :
    (words r : Extend ε α).runOn g = match r with | .error fault => .error fault | .ok a => .ok (.ok a, g) := by
  cases r <;> rfl

theorem runOn_adapt {ε' : Type} (b : Extend ε α) (f : ε → ε') (g : Graph) :
    runOn (b.adapt f) g = (b.runOn g).map fun (r, g') => (r.mapError f, g') :=
  StateT.run_map ..

theorem runOn_adapt_ok {ε' : Type} {b : Extend ε α} {a : α} {g' : Graph} (h : b.runOn g = .ok (.ok a, g'))
    (f : ε → ε') : runOn (b.adapt f) g = .ok (.ok a, g') := by
  rw [runOn_adapt, h]
  rfl

/-- Whatever a computation answers, it appends fitting nodes and nothing else. -/
def Grows (b : Extend ε α) : Prop := ∀ ⦃g r g'⦄, b.runOn g = .ok (r, g') → g.Grows g'

theorem Grows.pure (a : α) : (pure a : Extend ε α).Grows := by
  intro g r g' h
  cases h
  exact .refl g

/-- A step in words leaves the graph alone. -/
theorem Grows.words (r : Except Fault α) : (words r : Extend ε α).Grows := by
  intro g r' g' h
  cases r with
  | error fault => cases h
  | ok a =>
    cases h
    exact .refl g

theorem Grows.bind {b : Extend ε α} {f : α → Extend ε β} (hb : b.Grows) (hf : ∀ a, (f a).Grows) : (b >>= f).Grows := by
  intro g r g' h
  rw [runOn_bind] at h
  split at h
  · cases h
  · rename_i h'
    cases h
    exact hb h'
  · rename_i h'
    exact (hb h').trans (hf _ h)

end Extend

namespace Build

open Extend

@[simp] theorem runOn_push (kind : Kind) (shape : Shape) (g : Graph) :
    (push kind shape).runOn g = .ok (.ok g.length, g.push kind shape) := rfl

theorem runOn_shapeOf {x : Nat} {n : Node} {g : Graph} (h : g.node? x = some n) :
    (shapeOf x).runOn g = .ok (.ok n.shape, g) := by
  simp [shapeOf, node, runOn_bind, runOn_map, Graph.node_eq_ok.2 h, Except.map]

theorem runOn_shapeOf_missing {x : Nat} {g : Graph} (h : g.node? x = none) :
    (shapeOf x).runOn g = .ok (.error (.unknownNode x), g) := by
  simp [shapeOf, node, runOn_bind, runOn_map, Graph.node_eq_error h, Except.map]

theorem runOn_rule_ok {α : Type} (op : String) (a : α) (g : Graph) :
    (rule op (.ok a)).runOn g = .ok (.ok a, g) := rfl

/-- A computation that looks up a shape first: it is refused and changes nothing, or goes
on with the shape of a node that exists. -/
theorem grows_shapeOf {α : Type} {x : Nat} {f : Shape → Build α} {g g' : Graph} {r : Except GraphError α}
    (hrun : (shapeOf x >>= f).runOn g = .ok (r, g'))
    (h : x < g.length → (f (g.shapeAt x)).runOn g = .ok (r, g') → g.Grows g') : g.Grows g' := by
  rw [runOn_bind] at hrun
  cases hn : g.node? x with
  | none =>
    rw [runOn_shapeOf_missing hn] at hrun
    cases hrun
    exact .refl g
  | some n =>
    rw [runOn_shapeOf hn, ← Graph.shapeAt_of_node? hn] at hrun
    exact h (Graph.node?_lt hn) hrun

/-- A computation that applies a shape rule first: it is refused and changes nothing, or
goes on with the result of the rule. -/
theorem grows_rule {α β : Type} {op : String} {s : Except ShapeError α} {f : α → Build β} {g g' : Graph}
    {r : Except GraphError β} (hrun : (rule op s >>= f).runOn g = .ok (r, g'))
    (h : ∀ a, s = .ok a → (f a).runOn g = .ok (r, g') → g.Grows g') : g.Grows g' := by
  rw [runOn_bind] at hrun
  cases s with
  | error e => cases hrun; exact .refl g
  | ok a => exact h a rfl hrun

/-- A fitting node is appended. -/
theorem grows_push {g g' : Graph} {r : Except GraphError NodeId} {kind : Kind} {shape : Shape}
    (hrun : (push kind shape).runOn g = .ok (r, g')) (hx : ∀ x : Nat, x ∈ kind.operands → x < g.length)
    (hr : kind.Ruled g shape) : g.Grows g' := by
  cases hrun
  exact .push (.refl g) hx hr

/-! ## Every construction -/

theorem leaf_grows {kind : Kind} (hk : kind.isLeaf = true) (op : String) (shape : Shape) : (leaf kind op shape).Grows := by
  intro g r g' hrun
  refine grows_rule hrun fun u hv hrun => ?_
  have hpush : g.Grows (g.push kind shape) := by
    refine .push (.refl g) (fun x hx => ?_) ?_
    · cases kind <;> simp_all [Kind.isLeaf, Kind.operands]
    · cases kind <;> simp_all [Kind.isLeaf, Kind.Ruled]
  rw [runOn_bind, runOn_push] at hrun
  have hcount : (words (Shape.elementCount shape) >>= fun _ => pure g.length : Build NodeId).Grows :=
    .bind (.words _) fun _ => .pure _
  exact hpush.trans (hcount hrun)

theorem constant_grows (value : Float) : (constant value).Grows := by
  intro g r g' hrun
  exact grows_push hrun (by simp [Kind.operands]) (Shape.validate_eq_ok_iff.2 Shape.positive_nil)

theorem full_grows (shape : Shape) (value : Float) : (full shape value).Grows := by
  intro g r g' hrun
  refine grows_rule hrun fun u hv hrun => ?_
  exact grows_push hrun (by simp [Kind.operands]) hv

theorem unary_grows (op : UnaryOp) (x : Nat) : (unary op x).Grows := by
  intro g r g' hrun
  refine grows_shapeOf hrun fun hx hrun => ?_
  exact grows_push hrun (fun y hy => List.mem_singleton.1 hy ▸ hx) rfl

theorem binary_grows (op : BinaryOp) (lhs rhs : Nat) : (binary op lhs rhs).Grows := by
  intro g r g' hrun
  refine grows_shapeOf hrun fun hl hrun => grows_shapeOf hrun fun hr hrun => grows_rule hrun fun s hs hrun => ?_
  refine grows_push hrun (fun y hy => ?_) hs
  rcases List.mem_pair.1 hy with rfl | rfl
  · exact hl
  · exact hr

theorem reduce_grows (op : ReduceOp) (x : Nat) (axes : List Nat) (keepDims : Bool) :
    (reduce op x axes keepDims).Grows := by
  intro g r g' hrun
  refine grows_shapeOf hrun fun hx hrun => ?_
  refine grows_rule hrun fun s hs hrun => grows_rule hrun fun ns hns hrun => ?_
  -- the node keeps the axes in their normal form, for which the rule answers the same
  have hnormal := (Shape.normalizeAxes_eq_ok hns).1.normalizeAxes
  obtain ⟨ns', hns', hreduced⟩ := Shape.reduce_eq_ok.1 hs
  obtain rfl : ns' = ns := Except.ok.inj (hns'.symm.trans hns)
  refine grows_push hrun (fun y hy => List.mem_singleton.1 hy ▸ hx) ⟨hnormal, ?_⟩
  exact Shape.reduce_eq_ok.2 ⟨ns', hnormal, hreduced⟩

theorem matmul_grows (lhs rhs : Nat) : (matmul lhs rhs).Grows := by
  intro g r g' hrun
  refine grows_shapeOf hrun fun hl hrun => grows_shapeOf hrun fun hr hrun => grows_rule hrun fun s hs hrun => ?_
  refine grows_push hrun (fun y hy => ?_) hs
  rcases List.mem_pair.1 hy with rfl | rfl
  · exact hl
  · exact hr

theorem permute_grows (x : Nat) (perm : List Nat) : (permute x perm).Grows := by
  intro g r g' hrun
  refine grows_shapeOf hrun fun hx hrun => grows_rule hrun fun s hs hrun => ?_
  exact grows_push hrun (fun y hy => List.mem_singleton.1 hy ▸ hx) hs

theorem reshape_grows (x : Nat) (dims : Shape) : (reshape x dims).Grows := by
  intro g r g' hrun
  refine grows_shapeOf hrun fun hx hrun => ?_
  rw [runOn_bind, runOn_words] at hrun
  cases hs : Shape.reshape (g.shapeAt x) dims with
  | error fault => simp [hs] at hrun
  | ok ruled =>
    simp only [hs] at hrun
    refine grows_rule hrun fun s hr hpush => ?_
    subst hr
    obtain ⟨-, -, rfl⟩ := Shape.reshape_eq_ok hs
    exact grows_push hpush (fun y hy => List.mem_singleton.1 hy ▸ hx) hs

theorem transpose_grows (x : Nat) : (transpose x).Grows := by
  intro g r g' hrun
  refine grows_shapeOf hrun fun _ hrun => ?_
  split at hrun
  · exact permute_grows x [1, 0] hrun
  · cases hrun
    exact .refl g

theorem sumAll_grows (x : Nat) : (sumAll x).Grows := by
  intro g r g' hrun
  refine grows_shapeOf hrun fun _ hrun => ?_
  split at hrun
  · cases hrun
    exact .refl g
  · exact reduce_grows .sum x _ false hrun

theorem neg_grows (x : Nat) : (neg x).Grows := .bind (constant_grows _) fun _ => binary_grows _ _ _

theorem gt_grows (lhs rhs : Nat) : (gt lhs rhs).Grows :=
  .bind (binary_grows _ _ _) fun _ => .bind (binary_grows _ _ _) fun _ => .bind (constant_grows _) fun _ =>
    binary_grows _ _ _

theorem relu_grows (x : Nat) : (relu x).Grows := .bind (constant_grows _) fun _ => binary_grows _ _ _

theorem sigmoid_grows (x : Nat) : (sigmoid x).Grows :=
  .bind (constant_grows _) fun _ => .bind (neg_grows _) fun _ => .bind (unary_grows _ _) fun _ =>
    .bind (binary_grows _ _ _) fun _ => binary_grows _ _ _

end Build

/-- Every construction, answered or refused, appends fitting nodes. -/
theorem Construction.build_grows (c : Construction) : c.build.Grows := by
  cases c with
  | input shape => exact Build.leaf_grows rfl "input" shape
  | weight shape => exact Build.leaf_grows rfl "weight" shape
  | constant value => exact Build.constant_grows value
  | full shape value => exact Build.full_grows shape value
  | unary op x => exact Build.unary_grows op x
  | binary op lhs rhs => exact Build.binary_grows op lhs rhs
  | reduce op x axes keepDims => exact Build.reduce_grows op x axes keepDims
  | matmul lhs rhs => exact Build.matmul_grows lhs rhs
  | reshape x dims => exact Build.reshape_grows x dims
  | permute x perm => exact Build.permute_grows x perm
  | transpose x => exact Build.transpose_grows x
  | sumAll x => exact Build.sumAll_grows x
  | neg x => exact Build.neg_grows x
  | square x => exact Build.binary_grows .mul x x
  | gt lhs rhs => exact Build.gt_grows lhs rhs
  | relu x => exact Build.relu_grows x
  | sigmoid x => exact Build.sigmoid_grows x

/-- The graphs that callers can build: the empty one, and what a construction leaves of
one, whatever it answers. -/
inductive Graph.Built : Graph → Prop
  | empty : Built {}
  | call {g g' : Graph} {r : Except GraphError NodeId} (c : Construction) :
    Built g → c.build.runOn g = .ok (r, g') → Built g'

theorem Graph.Built.wellFormed {g : Graph} (h : g.Built) : g.WellFormed := by
  induction h with
  | empty => exact wellFormed_empty
  | call c _ hrun ih => exact (c.build_grows hrun).wellFormed ih

end TensorLoom
