import TensorLoom.Proofs.Graph.Element
/-
# What constructions append

`Makes b g Q` says what a construction that fits its graph does: it is never refused, it
faults only if a number of elements does not fit a word, and otherwise it appends inner
nodes, none larger than those already there, and ends with a result that `Q` describes.
For every construction there is one rule, which says what tensor the new node is.
-/

namespace TensorLoom

namespace Graph

/-- The shape has one element, or no more than some node. -/
def Covers (g : Graph) (s : Shape) : Prop :=
  Shape.size s ≤ 1 ∨ ∃ x < g.length, Shape.size s ≤ Shape.size (g.shapeAt x)

/-- The second graph continues the first with inner nodes, none larger than those there. -/
structure Appends (g g' : Graph) : Prop where
  grows : g.Extends g'
  inner : ∀ {x : Nat} {n : Node}, g'.node? x = some n → g.length ≤ x → n.kind.isLeaf = false
  covered : ∀ x : Nat, x < g'.length → g.Covers (g'.shapeAt x)

section
variable {g g₁ g₂ : Graph} {s : Shape}

theorem covers_node {x : Nat} (h : x < g.length) : g.Covers (g.shapeAt x) := .inr ⟨x, h, Nat.le_refl _⟩

theorem Covers.of_size_le {r : Shape} (h : g.Covers s) (hr : Shape.size r ≤ Shape.size s) : g.Covers r :=
  h.imp (Nat.le_trans hr) fun ⟨x, hx, hs⟩ => ⟨x, hx, Nat.le_trans hr hs⟩

theorem Covers.lt {n : Nat} (h : g.Covers s) (hg : g.SizesBelow n) (hn : 1 < n) : Shape.size s < n := by
  rcases h with hone | ⟨x, hx, hs⟩
  · exact Nat.lt_of_le_of_lt hone hn
  · exact Nat.lt_of_le_of_lt hs (hg x hx)

theorem Appends.refl (g : Graph) : g.Appends g := by
  refine ⟨.refl g, fun hn hle => ?_, fun x hx => covers_node hx⟩
  have := node?_lt hn
  omega

theorem Appends.length_le (h : g.Appends g₁) : g.length ≤ g₁.length := h.grows.length_le

theorem Appends.covers (h : g.Appends g₁) (hs : g₁.Covers s) : g.Covers s := by
  rcases hs with hone | ⟨x, hx, hs⟩
  · exact .inl hone
  · exact (h.covered x hx).of_size_le hs

theorem Appends.sizesBelow {n : Nat} (h : g.Appends g₁) (hg : g.SizesBelow n) (hn : 1 < n) : g₁.SizesBelow n :=
  fun x hx => (h.covered x hx).lt hg hn

theorem Appends.trans (h₁ : g.Appends g₁) (h₂ : g₁.Appends g₂) : g.Appends g₂ := by
  refine ⟨h₁.grows.trans h₂.grows, fun {x n} hn hle => ?_, fun x hx => h₁.covers (h₂.covered x hx)⟩
  by_cases hx : x < g₁.length
  · rw [h₂.grows.node? hx] at hn
    exact h₁.inner hn hle
  · exact h₂.inner hn (by omega)

/-- An inner node that is not too large. -/
theorem appends_push {kind : Kind} (hkind : kind.isLeaf = false) (hs : g.Covers s) : g.Appends (g.push kind s) := by
  refine ⟨extends_push g kind s, fun {x n} hn hle => ?_, fun x hx => ?_⟩
  · rcases node?_push hn with hn | ⟨_, rfl⟩
    · have := node?_lt hn
      omega
    · exact hkind
  · rw [length_push] at hx
    by_cases hlt : x < g.length
    · rw [(extends_push g kind s).shapeAt hlt]
      exact covers_node hlt
    · obtain rfl : x = g.length := by omega
      rwa [shapeAt_of_node? (node?_push_self g kind s)]

end

end Graph

/-! ## Constructions that fit -/

namespace Extend

variable {ε γ δ : Type} {g : Graph} {b : Extend ε γ} {Q : γ → Graph → Prop}

/-- The construction is not refused, and its result is as described. -/
def Makes (b : Extend ε γ) (g : Graph) (Q : γ → Graph → Prop) : Prop :=
  match b.runOn g with
  | .error _ => ¬ g.SizesBelow Word.limit
  | .ok (.error _, _) => False
  | .ok (.ok a, g') => g'.WellFormed ∧ g.Appends g' ∧ Q a g'

theorem Makes.pure {a : γ} (hg : g.WellFormed) (h : Q a g) : (pure a : Extend ε γ).Makes g Q :=
  ⟨hg, .refl g, h⟩

theorem Makes.bind {f : γ → Extend ε δ} {R : δ → Graph → Prop} (hb : b.Makes g Q)
    (hf : ∀ {a : γ} {g' : Graph}, g'.WellFormed → g.Appends g' → Q a g' → (f a).Makes g' R) :
    (b >>= f).Makes g R := by
  unfold Makes at hb ⊢
  rw [runOn_bind]
  cases hrun : b.runOn g with
  | error fault => rwa [hrun] at hb
  | ok p =>
    obtain ⟨r, g'⟩ := p
    cases r with
    | error e => rwa [hrun] at hb
    | ok a =>
      rw [hrun] at hb
      obtain ⟨hg', happ, hQ⟩ := hb
      have hrest := hf hg' happ hQ
      unfold Makes at hrest
      simp only
      split
      · rename_i hfault
        rw [hfault] at hrest
        exact fun hsmall => hrest (happ.sizesBelow hsmall (by decide))
      · rename_i hrefused
        rw [hrefused] at hrest
        exact hrest
      · rename_i hdone
        rw [hdone] at hrest
        exact ⟨hrest.1, happ.trans hrest.2.1, hrest.2.2⟩

theorem Makes.mono {R : γ → Graph → Prop} (hb : b.Makes g Q) (h : ∀ {a g'}, g.Appends g' → Q a g' → R a g') :
    b.Makes g R := by
  unfold Makes at hb ⊢
  split at hb
  · exact hb
  · exact hb
  · exact ⟨hb.1, hb.2.1, h hb.2.1 hb.2.2⟩

/-- A step that only reads. -/
theorem Makes.read {a : γ} {f : γ → Extend ε δ} {R : δ → Graph → Prop} (hb : b.runOn g = .ok (.ok a, g))
    (hf : (f a).Makes g R) : (b >>= f).Makes g R := by
  unfold Makes at hf ⊢
  rwa [runOn_bind, hb]

/-- A step in words that can fault only where a number of elements is too large. -/
theorem Makes.words {r : Except Fault γ} {f : γ → Extend ε δ} {R : δ → Graph → Prop}
    (hok : g.SizesBelow Word.limit → ∃ a, r = .ok a) (hf : ∀ a, r = .ok a → (f a).Makes g R) :
    (words r >>= f).Makes g R := by
  cases r with
  | error fault =>
    have hlarge : ¬ g.SizesBelow Word.limit := fun hsmall => by simpa using hok hsmall
    unfold Makes
    rwa [runOn_bind, runOn_words]
  | ok a => exact Makes.read rfl (hf a rfl)

theorem Makes.adapt {ε' : Type} (hb : b.Makes g Q) (f : ε → ε') : Makes (b.adapt f) g Q := by
  unfold Makes at hb ⊢
  rw [runOn_adapt]
  split at hb
  · rename_i hrun
    rw [hrun]
    exact hb
  · exact hb.elim
  · rename_i hrun
    rw [hrun]
    exact hb

/-- A construction for each member of a list, where later nodes do no harm to earlier ones. -/
theorem Makes.mapM {f : γ → Extend ε δ} {R : γ → δ → Graph → Prop}
    (hgrow : ∀ {x y g₁ g₂}, g₁.Appends g₂ → R x y g₁ → R x y g₂) {xs : List γ} (hg : g.WellFormed)
    (hf : ∀ x ∈ xs, ∀ {g'}, g'.WellFormed → g.Appends g' → (f x).Makes g' (R x)) :
    (xs.mapM f).Makes g fun ys g' => List.Forall₂ (fun x y => R x y g') xs ys := by
  induction xs generalizing g with
  | nil => exact Makes.pure hg .nil
  | cons x xs ih =>
    rw [List.mapM_cons]
    refine Makes.bind (hf x List.mem_cons_self hg (.refl g)) fun {y g₁} hg₁ happ₁ hy => ?_
    have hrest := ih hg₁ fun x hx _ hg' happ => hf x (List.mem_cons_of_mem _ hx) hg' (happ₁.trans happ)
    refine Makes.bind hrest fun hg₂ happ₂ hys => Makes.pure hg₂ (.cons (hgrow happ₂ hy) hys)

theorem Makes.run (hb : b.Makes g Q) (hsmall : g.SizesBelow Word.limit) : ∃ r, b.runOn g = .ok r := by
  unfold Makes at hb
  cases hrun : b.runOn g with
  | error fault => rw [hrun] at hb; exact absurd hsmall hb
  | ok r => exact ⟨r, rfl⟩

theorem Makes.of_run {r : Except ε γ × Graph} (hb : b.Makes g Q) (hrun : b.runOn g = .ok r) :
    ∃ a g', r = (.ok a, g') ∧ g'.WellFormed ∧ g.Appends g' ∧ Q a g' := by
  unfold Makes at hb
  rw [hrun] at hb
  obtain ⟨a | a, g'⟩ := r
  · exact hb.elim
  · exact ⟨a, g', rfl, hb⟩

end Extend

/-! ## New nodes as tensors -/

section
variable {α : Type} (A : Algebra α) (leaves : Leaves α)

/-- Node `c` is the tensor `f` of shape `s`. -/
structure Graph.Denotes (g : Graph) (c : Nat) (s : Shape) (f : List Nat → α) : Prop where
  lt : c < g.length
  shape : g.shapeAt c = s
  element : ∀ {idx}, Shape.Mem idx s → g.element A leaves c idx = f idx

/-- The construction ends with a node, not before `base`, that is the tensor `f` of shape `s`. -/
def Build.Produces (base : Nat) (b : Build NodeId) (g : Graph) (s : Shape) (f : List Nat → α) : Prop :=
  b.Makes g fun c g' => base ≤ c ∧ g'.Denotes A leaves c s f

variable {A leaves} {g g' : Graph} {s : Shape} {f : List Nat → α}

theorem Graph.denotes_self {c : Nat} (h : c < g.length) :
    g.Denotes A leaves c (g.shapeAt c) (g.element A leaves c) := ⟨h, rfl, fun _ => rfl⟩

namespace Graph.Denotes

variable {c : Nat}

theorem covers (h : g.Denotes A leaves c s f) : g.Covers s := h.shape ▸ covers_node h.lt

theorem positive (h : g.Denotes A leaves c s f) (hg : g.WellFormed) : s.Positive :=
  h.shape ▸ hg.shapeAt_positive c

theorem congr {f' : List Nat → α} (h : g.Denotes A leaves c s f) (hf : ∀ {idx}, Shape.Mem idx s → f idx = f' idx) :
    g.Denotes A leaves c s f' := ⟨h.lt, h.shape, fun hm => (h.element hm).trans (hf hm)⟩

theorem value (h : g.Denotes A leaves c s f) : g.value A leaves c = (Shape.indices s).map f := by
  rw [value_eq, h.shape]
  exact List.map_congr_left fun i hi => h.element (Shape.mem_indices.1 hi)

/-- A node stays the tensor it is, whatever comes behind it. -/
theorem extend (h : g.Denotes A leaves c s f) (hg : g.WellFormed) (hg' : g'.WellFormed) (hext : g.Extends g') :
    g'.Denotes A leaves c s f := by
  refine ⟨Nat.lt_of_lt_of_le h.lt hext.length_le, ?_, fun hm => ?_⟩
  · rw [hext.shapeAt h.lt, h.shape]
  · rw [hext.element hg hg' h.lt, h.element hm]

theorem grow (h : g.Denotes A leaves c s f) (hg : g.WellFormed) (hg' : g'.WellFormed) (happ : g.Appends g') :
    g'.Denotes A leaves c s f := h.extend hg hg' happ.grows

/-- A new node is one step over the tensors of its operands. -/
theorem of_push {kind : Kind} (hg : (g.push kind s).WellFormed)
    (h : ∀ {idx}, Shape.Mem idx s →
      elementStep A leaves (g.push kind s) ((g.push kind s).element A leaves) g.length idx = f idx) :
    (g.push kind s).Denotes A leaves g.length s f := by
  refine ⟨by rw [length_push]; omega, shapeAt_of_node? (node?_push_self g kind s), fun hm => ?_⟩
  rw [hg.element_eq, h hm]

theorem unary_step {op : UnaryOp} {x : Nat} (hx : (g.push (.unary op x) s).Denotes A leaves x s f) {idx : List Nat}
    (hm : Shape.Mem idx s) :
    elementStep A leaves (g.push (.unary op x) s) ((g.push (.unary op x) s).element A leaves) g.length idx =
      A.unary op (f idx) := by
  rw [elementStep, node?_push_self]
  simp only [hx.element hm]

theorem binary_step {op : BinaryOp} {lhs rhs : Nat} {a b : Shape} {fa fb : List Nat → α}
    (hl : (g.push (.binary op lhs rhs) s).Denotes A leaves lhs a fa)
    (hr : (g.push (.binary op lhs rhs) s).Denotes A leaves rhs b fb) (hjoin : Shape.broadcast a b = .ok s)
    {idx : List Nat} (hm : Shape.Mem idx s) :
    elementStep A leaves (g.push (.binary op lhs rhs) s) ((g.push (.binary op lhs rhs) s).element A leaves) g.length idx =
      A.binary op (fa (Shape.restrict a idx)) (fb (Shape.restrict b idx)) := by
  obtain ⟨ha, hb⟩ := Shape.stretches_of_broadcast hjoin
  rw [elementStep, node?_push_self]
  simp only [hl.shape, hr.shape, hl.element (ha.mem_restrict hm), hr.element (hb.mem_restrict hm)]

end Graph.Denotes

namespace Build

open Extend

variable {base : Nat}

theorem Produces.congr {b : Build NodeId} {f' : List Nat → α} (h : Produces A leaves base b g s f)
    (hf : ∀ {idx}, Shape.Mem idx s → f idx = f' idx) : Produces A leaves base b g s f' :=
  Makes.mono h fun _ hQ => ⟨hQ.1, hQ.2.congr hf⟩

theorem Produces.bind {b : Build NodeId} {next : NodeId → Build NodeId} {r : Shape} {f' : List Nat → α}
    (h : Produces A leaves base b g s f)
    (hnext : ∀ {c : Nat} {g' : Graph}, g'.WellFormed → base ≤ c ∧ base ≤ g'.length → g.Appends g' →
      g'.Denotes A leaves c s f → Produces A leaves base (next c) g' r f') :
    Produces A leaves base (b >>= next) g r f' :=
  Makes.bind h fun hg' happ hc => hnext hg' ⟨hc.1, Nat.le_of_lt (Nat.lt_of_le_of_lt hc.1 hc.2.lt)⟩ happ hc.2

/-- A fitting inner node that is not too large. -/
theorem push_produces {kind : Kind} (hg : g.WellFormed) (hb : base ≤ g.length)
    (hx : ∀ x : Nat, x ∈ kind.operands → x < g.length) (hp : s.Positive) (hfits : kind.Fits g s)
    (hkind : kind.isLeaf = false) (hs : g.Covers s)
    (hstep : ∀ {idx}, Shape.Mem idx s → (g.push kind s).WellFormed → g.Appends (g.push kind s) →
      Graph.elementStep A leaves (g.push kind s) ((g.push kind s).element A leaves) g.length idx = f idx) :
    Produces A leaves base (push kind s) g s f := by
  have hg' := hg.push hx hp hfits
  have happ := Graph.appends_push hkind hs
  exact ⟨hg', happ, hb, .of_push hg' fun hm => hstep hm hg' happ⟩

/-- The node that is appended. -/
theorem push_makes {kind : Kind} (hg : g.WellFormed) (hx : ∀ x : Nat, x ∈ kind.operands → x < g.length)
    (hp : s.Positive) (hfits : kind.Fits g s) (hkind : kind.isLeaf = false) (hs : g.Covers s) :
    (push kind s).Makes g fun c g' => g'.node? c = some ⟨kind, s⟩ :=
  ⟨hg.push hx hp hfits, Graph.appends_push hkind hs, Graph.node?_push_self g kind s⟩

theorem runOn_binary (op : BinaryOp) {lhs rhs : Nat} (hl : lhs < g.length) (hr : rhs < g.length)
    (hjoin : Shape.broadcast (g.shapeAt lhs) (g.shapeAt rhs) = .ok s) :
    (binary op lhs rhs).runOn g = .ok (.ok g.length, g.push (.binary op lhs rhs) s) := by
  obtain ⟨nl, hnl⟩ := Graph.exists_node? hl
  obtain ⟨nr, hnr⟩ := Graph.exists_node? hr
  unfold binary
  rw [runOn_bind_ok (runOn_shapeOf hnl), runOn_bind_ok (runOn_shapeOf hnr), ← Graph.shapeAt_of_node? hnl,
    ← Graph.shapeAt_of_node? hnr, hjoin, runOn_bind_ok (runOn_rule_ok op.name s g), runOn_push]

theorem binary_makes (hg : g.WellFormed) (op : BinaryOp) {lhs rhs : Nat} (hl : lhs < g.length) (hr : rhs < g.length)
    (hjoin : Shape.broadcast (g.shapeAt lhs) (g.shapeAt rhs) = .ok s) (hs : g.Covers s) :
    (binary op lhs rhs).Makes g fun c g' => g'.node? c = some ⟨.binary op lhs rhs, s⟩ := by
  unfold Makes
  rw [runOn_binary op hl hr hjoin]
  refine push_makes hg ?_ ?_ hjoin rfl hs
  · intro y hy
    rcases List.mem_pair.1 hy with rfl | rfl
    · exact hl
    · exact hr
  · exact Shape.broadcast_positive hjoin (hg.shapeAt_positive lhs) (hg.shapeAt_positive rhs)

theorem runOn_shapeOf_denotes {x : Nat} (h : g.Denotes A leaves x s f) : (shapeOf x).runOn g = .ok (.ok s, g) := by
  obtain ⟨n, hn⟩ := Graph.exists_node? h.lt
  rw [runOn_shapeOf hn, ← Graph.shapeAt_of_node? hn, h.shape]

theorem constant_produces (hg : g.WellFormed) (hb : base ≤ g.length) (v : Float) :
    Produces A leaves base (constant v) g [] fun _ => A.lit v := by
  refine push_produces hg hb (by simp [Kind.operands]) Shape.positive_nil trivial rfl (.inl (by decide)) ?_
  intro idx _ _ _
  rw [Graph.elementStep, Graph.node?_push_self]

theorem full_produces (hg : g.WellFormed) (hb : base ≤ g.length) (hp : s.Positive) (hs : g.Covers s) (v : Float) :
    Produces A leaves base (full s v) g s fun _ => A.lit v := by
  have hrule : (rule "full" (Shape.validate s)).runOn g = .ok (.ok (), g) := by
    rw [Shape.validate_eq_ok_iff.2 hp, runOn_rule_ok]
  refine Makes.read hrule (push_produces hg hb (by simp [Kind.operands]) hp trivial rfl hs ?_)
  intro idx _ _ _
  rw [Graph.elementStep, Graph.node?_push_self]

theorem unary_produces (hg : g.WellFormed) (hb : base ≤ g.length) (op : UnaryOp) {x : Nat}
    (hx : g.Denotes A leaves x s f) : Produces A leaves base (unary op x) g s fun i => A.unary op (f i) := by
  refine Makes.read (runOn_shapeOf_denotes hx) (push_produces hg hb ?_ (hx.positive hg) hx.shape.symm rfl hx.covers ?_)
  · intro y hy
    rw [List.mem_singleton.1 hy]
    exact hx.lt
  · intro idx hm hg' happ
    exact (hx.grow hg hg' happ).unary_step hm

theorem binary_produces (hg : g.WellFormed) (hb : base ≤ g.length) (op : BinaryOp) {lhs rhs : Nat} {a b r : Shape}
    {fa fb : List Nat → α} (hl : g.Denotes A leaves lhs a fa) (hr : g.Denotes A leaves rhs b fb)
    (hjoin : Shape.broadcast a b = .ok r) (hs : g.Covers r) :
    Produces A leaves base (binary op lhs rhs) g r fun i =>
      A.binary op (fa (Shape.restrict a i)) (fb (Shape.restrict b i)) := by
  refine Makes.read (runOn_shapeOf_denotes hl) (Makes.read (runOn_shapeOf_denotes hr) ?_)
  rw [hjoin]
  refine Makes.read (runOn_rule_ok _ _ g) (push_produces hg hb ?_ ?_ ?_ rfl hs ?_)
  · intro y hy
    rcases List.mem_pair.1 hy with rfl | rfl
    · exact hl.lt
    · exact hr.lt
  · exact Shape.broadcast_positive hjoin (hl.positive hg) (hr.positive hg)
  · simpa only [Kind.Fits, hl.shape, hr.shape] using hjoin
  · intro idx hm hg' happ
    exact (hl.grow hg hg' happ).binary_step (hr.grow hg hg' happ) hjoin hm

/-- The right operand is stretched to the left one. -/
theorem binary_produces_left (hg : g.WellFormed) (hb : base ≤ g.length) (op : BinaryOp) {lhs rhs : Nat} {a b : Shape}
    {fa fb : List Nat → α} (hl : g.Denotes A leaves lhs a fa) (hr : g.Denotes A leaves rhs b fb)
    (hst : Shape.Stretches b a) :
    Produces A leaves base (binary op lhs rhs) g a fun i => A.binary op (fa i) (fb (Shape.restrict b i)) :=
  (binary_produces hg hb op hl hr (Shape.broadcast_of_stretches hst).2 hl.covers).congr fun hm => by
    rw [Shape.restrict_self hm]

/-- The left operand is stretched to the right one. -/
theorem binary_produces_right (hg : g.WellFormed) (hb : base ≤ g.length) (op : BinaryOp) {lhs rhs : Nat} {a b : Shape}
    {fa fb : List Nat → α} (hl : g.Denotes A leaves lhs a fa) (hr : g.Denotes A leaves rhs b fb)
    (hst : Shape.Stretches a b) :
    Produces A leaves base (binary op lhs rhs) g b fun i => A.binary op (fa (Shape.restrict a i)) (fb i) :=
  (binary_produces hg hb op hl hr (Shape.broadcast_of_stretches hst).1 hr.covers).congr fun hm => by
    rw [Shape.restrict_self hm]

theorem binary_produces_same (hg : g.WellFormed) (hb : base ≤ g.length) (op : BinaryOp) {lhs rhs : Nat}
    {fa fb : List Nat → α} (hl : g.Denotes A leaves lhs s fa) (hr : g.Denotes A leaves rhs s fb) :
    Produces A leaves base (binary op lhs rhs) g s fun i => A.binary op (fa i) (fb i) :=
  (binary_produces_left hg hb op hl hr (.refl s)).congr fun hm => by rw [Shape.restrict_self hm]

theorem neg_produces (hg : g.WellFormed) (hb : base ≤ g.length) {x : Nat} (hx : g.Denotes A leaves x s f) :
    Produces A leaves base (neg x) g s fun i => A.binary .mul (f i) (A.lit (-1.0)) := by
  refine (constant_produces hg hb (-1.0)).bind fun hg' hb' happ hc => ?_
  exact binary_produces_left hg' hb'.2 .mul (hx.grow hg hg' happ) hc (.nil s)

theorem reduce_produces (hg : g.WellFormed) (hb : base ≤ g.length) (op : ReduceOp) {x : Nat} {axes : List Nat}
    (keepDims : Bool) (hx : g.Denotes A leaves x s f) (haxes : Shape.SortedAxes axes s.length)
    (hs : g.Covers (Shape.reduced axes keepDims s)) :
    Produces A leaves base (reduce op x axes keepDims) g (Shape.reduced axes keepDims s) fun o =>
      A.reduce op (((Shape.indices s).filter fun i => Shape.collapse axes keepDims i = o).map f) := by
  have hreduce : Shape.reduce s axes keepDims = .ok (Shape.reduced axes keepDims s) :=
    Shape.reduce_eq_ok.2 ⟨axes, haxes.normalizeAxes, rfl⟩
  refine Makes.read (runOn_shapeOf_denotes hx) ?_
  rw [hreduce, haxes.normalizeAxes]
  refine Makes.read (runOn_rule_ok _ _ g) (Makes.read (runOn_rule_ok _ _ g) (push_produces hg hb ?_ ?_ ?_ rfl hs ?_))
  · intro y hy
    rw [List.mem_singleton.1 hy]
    exact hx.lt
  · exact (hx.positive hg).reduced keepDims
  · simp only [Kind.Fits, hx.shape, and_true]
    exact haxes
  · intro idx hm hg' happ
    have hx' := hx.grow hg hg' happ
    rw [Graph.elementStep, Graph.node?_push_self]
    simp only [hx'.shape]
    refine congrArg _ (List.map_congr_left fun i hi => ?_)
    exact hx'.element (Shape.mem_indices.1 (List.mem_filter.1 hi).1)

theorem reshape_produces (hg : g.WellFormed) (hb : base ≤ g.length) {x : Nat} {r : Shape}
    (hx : g.Denotes A leaves x s f) (hp : r.Positive) (hsize : Shape.size r = Shape.size s) :
    Produces A leaves base (reshape x r) g r fun i => f (Shape.indexOf s (Shape.offset i r)) := by
  have hreshape : g.SizesBelow Word.limit → Shape.reshape s r = .ok (.ok r) := fun hsmall =>
    Shape.reshape_of_lt (hx.positive hg) hp hsize (hx.covers.lt hsmall (by decide))
  refine Makes.read (runOn_shapeOf_denotes hx) (Makes.words (fun hsmall => ⟨_, hreshape hsmall⟩) fun ruled hruled => ?_)
  have hruled := Shape.eq_ok_of_reshape hp hsize hruled
  subst hruled
  refine Makes.read (runOn_rule_ok _ _ g) (push_produces hg hb ?_ hp ?_ rfl ?_ ?_)
  · intro y hy
    rw [List.mem_singleton.1 hy]
    exact hx.lt
  · simpa only [Kind.Fits, hx.shape] using hsize
  · exact hx.covers.of_size_le (Nat.le_of_eq hsize)
  · intro idx hm hg' happ
    have hx' := hx.grow hg hg' happ
    rw [Graph.elementStep, Graph.node?_push_self]
    simp only [hx'.shape]
    exact hx'.element (Shape.mem_indexOf (hsize ▸ Shape.offset_lt hm))

theorem permute_produces (hg : g.WellFormed) (hb : base ≤ g.length) {x : Nat} {perm : List Nat} {r : Shape}
    (hx : g.Denotes A leaves x s f) (hperm : Shape.permute s perm = .ok r) (hs : g.Covers r) :
    Produces A leaves base (permute x perm) g r fun i => f (Shape.unpermute perm i) := by
  refine Makes.read (runOn_shapeOf_denotes hx) ?_
  rw [hperm]
  refine Makes.read (runOn_rule_ok _ _ g) (push_produces hg hb ?_ (Shape.permute_positive hperm (hx.positive hg)) ?_ rfl hs ?_)
  · intro y hy
    rw [List.mem_singleton.1 hy]
    exact hx.lt
  · simpa only [Kind.Fits, hx.shape] using hperm
  · intro idx hm hg' happ
    rw [Graph.elementStep, Graph.node?_push_self]
    exact (hx.grow hg hg' happ).element (Shape.mem_unpermute hperm hm)

theorem transpose_produces (hg : g.WellFormed) (hb : base ≤ g.length) {x m n : Nat}
    (hx : g.Denotes A leaves x [m, n] f) :
    Produces A leaves base (transpose x) g [n, m] fun i => f (Shape.unpermute [1, 0] i) := by
  have hsize : Shape.size [n, m] = Shape.size [m, n] := by simp [Shape.size, Nat.mul_comm]
  exact Makes.read (runOn_shapeOf_denotes hx)
    (permute_produces hg hb hx rfl (hx.covers.of_size_le (Nat.le_of_eq hsize)))

theorem matmul_produces (hg : g.WellFormed) (hb : base ≤ g.length) {lhs rhs m k n : Nat} {fa fb : List Nat → α}
    (hl : g.Denotes A leaves lhs [m, k] fa) (hr : g.Denotes A leaves rhs [k, n] fb) (hs : g.Covers [m, n]) :
    Produces A leaves base (matmul lhs rhs) g [m, n] fun i =>
      A.reduce .sum ((List.range k).map fun p =>
        A.binary .mul (fa [i.headD 0, p]) (fb [p, (i.drop 1).headD 0])) := by
  have hmatmul : Shape.matmul [m, k] [k, n] = .ok [m, n] :=
    Shape.matmul_eq_ok.2 ⟨⟨m, k⟩, ⟨k, n⟩, rfl, rfl, rfl, rfl⟩
  refine Makes.read (runOn_shapeOf_denotes hl) (Makes.read (runOn_shapeOf_denotes hr) ?_)
  rw [hmatmul]
  refine Makes.read (runOn_rule_ok _ _ g) (push_produces hg hb ?_ ?_ ?_ rfl hs ?_)
  · intro y hy
    rcases List.mem_pair.1 hy with rfl | rfl
    · exact hl.lt
    · exact hr.lt
  · exact Shape.matmul_positive hmatmul (hl.positive hg) (hr.positive hg)
  · simpa only [Kind.Fits, hl.shape, hr.shape] using hmatmul
  · intro idx hm hg' happ
    have hl' := hl.grow hg hg' happ
    have hr' := hr.grow hg hg' happ
    rw [Graph.elementStep, Graph.node?_push_self]
    obtain ⟨row, col, rfl⟩ : ∃ row col, idx = [row, col] := List.length_eq_two.1 hm.length_eq
    simp only [hl'.shape, hr'.shape, Shape.rowMatrix?, Option.elim_some, List.length_cons, List.length_nil,
      List.headD_cons, List.drop_one, List.tail_cons]
    refine congrArg _ (List.map_congr_left fun p hp => ?_)
    have hp := List.mem_range.1 hp
    exact congrArg₂ _ (hl'.element ⟨hm.1, hp, trivial⟩) (hr'.element ⟨hp, hm.2⟩)

end Build

end

end TensorLoom
