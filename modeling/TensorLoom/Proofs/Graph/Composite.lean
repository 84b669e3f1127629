import TensorLoom.Proofs.Graph.Append
import TensorLoom.Proofs.Shape.Join
/-
# Operations of several steps

`Yields b g s f` says that a construction is answered, by a node that is the tensor `f` of
shape `s`, however large that is. The steps of an operation compose: a node stays the tensor
it is when others follow. A comparison is answered as soon as its operands broadcast
(`gt_yields`), and what an operation builds over a constant of its own is answered as soon as
the operand exists (`withConstant_yields`, `sigmoid_yields`).
-/

namespace TensorLoom

section
variable {α : Type} (A : Algebra α) (leaves : Leaves α)

/-- The construction is answered by a node that is the tensor `f` of shape `s`. -/
def Build.Yields (b : Build NodeId) (g : Graph) (s : Shape) (f : List Nat → α) : Prop :=
  ∃ c g', b.runOn g = .ok (.ok c, g') ∧ g'.WellFormed ∧ g.Extends g' ∧ g'.Denotes A leaves c s f

variable {A leaves} {g g' : Graph} {s r : Shape} {f f' : List Nat → α}

namespace Build

open Extend

/-! ## One step after the other -/

namespace Yields

variable {b : Build NodeId}

theorem congr (h : b.Yields A leaves g s f) (hf : ∀ {idx}, Shape.Mem idx s → f idx = f' idx) :
    b.Yields A leaves g s f' := by
  obtain ⟨c, g', hrun, hg', hext, hc⟩ := h
  exact ⟨c, g', hrun, hg', hext, hc.congr hf⟩

theorem bind {next : NodeId → Build NodeId} (h : b.Yields A leaves g s f)
    (hnext : ∀ {c : Nat} {g' : Graph}, g'.WellFormed → g.Extends g' → g'.Denotes A leaves c s f →
      (next c).Yields A leaves g' r f') : (b >>= next).Yields A leaves g r f' := by
  obtain ⟨c, g₁, hrun, hg₁, hext₁, hc⟩ := h
  obtain ⟨c', g₂, hrun', hg₂, hext₂, hc'⟩ := hnext hg₁ hext₁ hc
  exact ⟨c', g₂, (runOn_bind_ok hrun).trans hrun', hg₂, hext₁.trans hext₂, hc'⟩

/-- A first step of which it is known what it leaves. -/
theorem after {γ : Type} {step : Build γ} {a : γ} {next : γ → Build NodeId} (hstep : step.runOn g = .ok (.ok a, g'))
    (hext : g.Extends g') (h : (next a).Yields A leaves g' s f) : (step >>= next).Yields A leaves g s f := by
  obtain ⟨c, g₂, hrun, hg₂, hext₂, hc⟩ := h
  exact ⟨c, g₂, (runOn_bind_ok hstep).trans hrun, hg₂, hext.trans hext₂, hc⟩

theorem read {γ : Type} {step : Build γ} {a : γ} {next : γ → Build NodeId} (hstep : step.runOn g = .ok (.ok a, g))
    (h : (next a).Yields A leaves g s f) : (step >>= next).Yields A leaves g s f := after hstep (.refl g) h

end Yields

/-- A fitting node. -/
theorem push_yields {kind : Kind} (hg : g.WellFormed) (hx : ∀ x : Nat, x ∈ kind.operands → x < g.length)
    (hp : s.Positive) (hfits : kind.Fits g s)
    (hstep : ∀ {idx}, Shape.Mem idx s → (g.push kind s).WellFormed →
      Graph.elementStep A leaves (g.push kind s) ((g.push kind s).element A leaves) g.length idx = f idx) :
    (push kind s).Yields A leaves g s f := by
  have hg' := hg.push hx hp hfits
  exact ⟨g.length, _, runOn_push kind s g, hg', Graph.extends_push g kind s, .of_push hg' fun hm => hstep hm hg'⟩

theorem runOn_constant (v : Float) (g : Graph) :
    (constant v).runOn g = .ok (.ok g.length, g.push (.constant v) []) := rfl

theorem constant_yields (hg : g.WellFormed) (v : Float) : (constant v).Yields A leaves g [] fun _ => A.lit v := by
  refine push_yields hg (by simp [Kind.operands]) Shape.positive_nil trivial fun _ _ => ?_
  rw [Graph.elementStep, Graph.node?_push_self]

theorem unary_yields (hg : g.WellFormed) (op : UnaryOp) {x : Nat} (hx : g.Denotes A leaves x s f) :
    (unary op x).Yields A leaves g s fun i => A.unary op (f i) := by
  refine .read (runOn_shapeOf_denotes hx) (push_yields hg ?_ (hx.positive hg) hx.shape.symm fun hm hg' => ?_)
  · simp [Kind.operands, hx.lt]
  · exact (hx.extend hg hg' (Graph.extends_push ..)).unary_step hm

theorem binary_yields (hg : g.WellFormed) (op : BinaryOp) {lhs rhs : Nat} {a b : Shape} {fa fb : List Nat → α}
    (hl : g.Denotes A leaves lhs a fa) (hr : g.Denotes A leaves rhs b fb) (hjoin : Shape.broadcast a b = .ok r) :
    (binary op lhs rhs).Yields A leaves g r fun i =>
      A.binary op (fa (Shape.restrict a i)) (fb (Shape.restrict b i)) := by
  refine .read (runOn_shapeOf_denotes hl) (.read (runOn_shapeOf_denotes hr) ?_)
  rw [hjoin]
  refine .read (runOn_rule_ok _ _ g) (push_yields hg ?_ ?_ ?_ fun hm hg' => ?_)
  · simp [Kind.operands, hl.lt, hr.lt]
  · exact Shape.broadcast_positive hjoin (hl.positive hg) (hr.positive hg)
  · simpa only [Kind.Fits, hl.shape, hr.shape] using hjoin
  · have hext := Graph.extends_push g (.binary op lhs rhs) r
    exact (hl.extend hg hg' hext).binary_step (hr.extend hg hg' hext) hjoin hm

/-! ## Comparisons -/

/-- The larger of the right and the left operand is compared with the right one, and the
result taken from 1. -/
theorem gt_yields (hg : g.WellFormed) {lhs rhs : Nat} {a b : Shape} {fa fb : List Nat → α}
    (hl : g.Denotes A leaves lhs a fa) (hr : g.Denotes A leaves rhs b fb) (hjoin : Shape.broadcast a b = .ok r) :
    (gt lhs rhs).Yields A leaves g r fun i =>
      let x := fa (Shape.restrict a i)
      let y := fb (Shape.restrict b i)
      A.binary .sub (A.lit 1.0) (A.binary .cmp (A.binary .max y x) y) := by
  have hjoin' := Shape.broadcast_comm.1 hjoin
  have habsorb := Shape.broadcast_comm.1 (Shape.broadcast_absorbs_right hjoin)
  refine (binary_yields hg .max hr hl hjoin').bind fun hg₁ hext₁ hlarger => ?_
  refine (binary_yields hg₁ .cmp hlarger (hr.extend hg hg₁ hext₁) habsorb).bind fun hg₂ hext₂ hequal => ?_
  refine (constant_yields hg₂ 1.0).bind fun hg₃ hext₃ hone => ?_
  refine (binary_yields hg₃ .sub hone (hequal.extend hg₂ hg₃ hext₃) (Shape.broadcast_nil_left r)).congr fun hm => ?_
  simp only [Shape.restrict_self hm]

/-! ## Operations over a constant of their own -/

variable (A leaves) in
theorem constant_denotes (hg : g.WellFormed) (v : Float) :
    (g.push (.constant v) []).WellFormed ∧ (g.push (.constant v) []).Denotes A leaves g.length [] fun _ => A.lit v := by
  obtain ⟨c, g', hrun, hg', -, hc⟩ : (constant v).Yields A leaves g [] fun _ => A.lit v := constant_yields hg v
  cases hrun
  exact ⟨hg', hc⟩

/-- A scalar is appended and the operand combined with it. The operand may be the scalar. -/
theorem withConstant_yields (hg : g.WellFormed) (op : BinaryOp) (v : Float) {x : Nat} (hx : x ≤ g.length) :
    ∃ s f, (constant v >>= fun c => binary op x c : Build NodeId).Yields A leaves g s f := by
  obtain ⟨hg₁, hc⟩ := constant_denotes A leaves hg v
  have hself : (g.push (.constant v) []).Denotes A leaves x _ _ :=
    Graph.denotes_self (by rw [Graph.length_push]; omega)
  exact ⟨_, _, .after (runOn_constant v g) (Graph.extends_push ..)
    (binary_yields hg₁ op hself hc (Shape.broadcast_nil_right _))⟩

theorem sigmoid_yields (hg : g.WellFormed) {x : Nat} (hx : x ≤ g.length + 1) :
    ∃ s f, (sigmoid x).Yields A leaves g s f := by
  obtain ⟨hg₁, hone⟩ := constant_denotes A leaves hg 1.0
  have hneg : ∃ s f, (neg x).Yields A leaves (g.push (.constant 1.0) []) s f :=
    withConstant_yields hg₁ .mul (-1.0) (by rwa [Graph.length_push])
  obtain ⟨s, f, hneg⟩ := hneg
  have hsigmoid : (sigmoid x).Yields A leaves g s fun i =>
      A.binary .div (A.lit 1.0) (A.binary .add (A.lit 1.0) (A.unary .exp (f i))) := by
    refine .after (runOn_constant 1.0 g) (Graph.extends_push ..) (hneg.bind fun hg₂ hext₂ hminus => ?_)
    refine (unary_yields hg₂ .exp hminus).bind fun hg₃ hext₃ hpower => ?_
    have hone₃ := hone.extend hg₁ hg₃ (hext₂.trans hext₃)
    refine (binary_yields hg₃ .add hone₃ hpower (Shape.broadcast_nil_left s)).bind fun hg₄ hext₄ hsum => ?_
    refine (binary_yields hg₄ .div (hone₃.extend hg₃ hg₄ hext₄) hsum (Shape.broadcast_nil_left s)).congr fun hm => ?_
    simp only [Shape.restrict_self hm]
  exact ⟨s, _, hsigmoid⟩

end Build

end

end TensorLoom
