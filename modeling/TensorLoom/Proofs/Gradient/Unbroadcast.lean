import TensorLoom.Proofs.Gradient.Differentiate
import TensorLoom.Proofs.Lowering.Index
/-
# Unstretching transposes stretching

An operand of shape `a` that is stretched to a shape `r` is read, for every position of `r`,
at one position of `a`: where the index rule of the lowering sends it. A contribution of
shape `r` goes the other way. It is summed over the axes that were stretched, and each
position of `a` gets what all positions that read it contribute (`unbroadcast_transposes`).
Only the reshape at the end counts elements, those of `a`, so nothing else in the graph
can make this fault.
-/

namespace TensorLoom

/-! ## Where a stretched operand is read -/

namespace Lowering

/-- On numbers the index rule is the restriction. -/
theorem broadcastIndex_eq_restrict {operand : Shape} {idx : List Nat} (h : operand.length ≤ idx.length) :
    broadcastIndex 0 idx operand = .ok (Shape.restrict operand idx) := by
  rw [broadcastIndex, if_neg (Nat.not_lt.2 h)]
  rfl

/-- The rule moves coordinates without looking at them, so it commutes with reading them. -/
theorem broadcastIndex_map {β γ : Type} (read : β → γ) (origin : β) (idx : List β) (operand : Shape) :
    broadcastIndex (read origin) (idx.map read) operand = (broadcastIndex origin idx operand).map (List.map read) := by
  unfold broadcastIndex
  rw [List.length_map, ← List.map_drop]
  split
  · rfl
  · rw [Except.map, List.zip_map_right, List.map_map, List.map_map]
    refine congrArg _ (List.map_congr_left fun x _ => ?_)
    simp only [Function.comp_apply, Prod.map_fst, Prod.map_snd, id_eq]
    split <;> rfl

end Lowering

/-! ## The steps -/

theorem Graph.shapeOf_eq_ok {g : Graph} {x : Nat} {s : Shape} :
    g.shapeOf x = .ok s ↔ ∃ n, g.node? x = some n ∧ n.shape = s := by
  unfold shapeOf node
  cases g.node? x <;> simp [bind, Except.bind, pure, Except.pure]

theorem Graph.denotes_node {α : Type} (A : Algebra α) (leaves : Leaves α) {g : Graph} {x : Nat} {n : Node}
    (h : g.node? x = some n) : g.Denotes A leaves x n.shape (g.element A leaves x) :=
  ⟨node?_lt h, shapeAt_of_node? h, fun _ => rfl⟩

theorem Graph.Denotes.shapeOf {α : Type} {A : Algebra α} {leaves : Leaves α} {g : Graph} {x : Nat} {s : Shape}
    {f : List Nat → α} (h : g.Denotes A leaves x s f) : g.shapeOf x = .ok s := by
  obtain ⟨n, hn⟩ := exists_node? h.lt
  exact shapeOf_eq_ok.2 ⟨n, hn, (shapeAt_of_node? hn).symm.trans h.shape⟩

namespace Build

open Extend

variable {g : Graph} {x : Nat} {n : Node}

theorem runOn_reduce (op : ReduceOp) {axes : List Nat} (keepDims : Bool) (hn : g.node? x = some n)
    (haxes : Shape.SortedAxes axes n.shape.length) :
    (reduce op x axes keepDims).runOn g =
      .ok (.ok g.length, g.push (.reduce op x axes keepDims) (Shape.reduced axes keepDims n.shape)) := by
  have hreduce : Shape.reduce n.shape axes keepDims = .ok (Shape.reduced axes keepDims n.shape) :=
    Shape.reduce_eq_ok.2 ⟨axes, haxes.normalizeAxes, rfl⟩
  unfold reduce
  rw [runOn_bind_ok (runOn_shapeOf hn), hreduce, runOn_bind_ok (runOn_rule_ok _ _ g), haxes.normalizeAxes,
    runOn_bind_ok (runOn_rule_ok _ _ g), runOn_push]

theorem runOn_reshape {dims : Shape} (hn : g.node? x = some n) (hreshape : Shape.reshape n.shape dims = .ok (.ok dims)) :
    (reshape x dims).runOn g = .ok (.ok g.length, g.push (.reshape x) dims) := by
  have hwords : (words (Shape.reshape n.shape dims) : Build _).runOn g = .ok (.ok (.ok dims), g) := by
    rw [runOn_words, hreshape]
  unfold reshape
  rw [runOn_bind_ok (runOn_shapeOf hn), runOn_bind_ok hwords, runOn_bind_ok (runOn_rule_ok _ _ g), runOn_push]

end Build

namespace Gradient

open Extend Build

variable {g : Graph} {x c : Nat}

/-- An operand whose elements can be counted is unstretched without a fault. -/
theorem unbroadcast_runs (hg : g.WellFormed) {n m : Node} (hn : g.node? x = some n) (hm : g.node? c = some m)
    (hst : Shape.Stretches n.shape m.shape) (hcount : Shape.size n.shape < Word.limit) :
    ∃ answer, (unbroadcast x c).runOn g = .ok answer := by
  unfold unbroadcast
  rw [runOn_bind_ok (runOn_fetch hn), runOn_bind_ok (runOn_fetch hm)]
  by_cases hsame : n.shape = m.shape
  · simp only [if_pos hsame]
    exact ⟨_, rfl⟩
  · obtain ⟨axes, haxes, hun⟩ := Shape.broadcastAxes_eq_ok hst
    have hnil : axes ≠ [] := fun h => hsame (hun.eq_of_nil h)
    have hwords : (words (Shape.broadcastAxes n.shape m.shape) : Build _).runOn g = .ok (.ok axes, g) := by
      rw [runOn_words, haxes]
    have hsum := runOn_reduce .sum true hm ⟨hun.increasing, hun.lt_rank, hnil⟩
    have hkept : Shape.reduced axes true m.shape = List.replicate (m.shape.length - n.shape.length) 1 ++ n.shape := by
      rw [Shape.reduced_true, hun.shape]
    have hsummed := Graph.node?_push_self g (.reduce .sum c axes true) (Shape.reduced axes true m.shape)
    simp only [if_neg hsame, runOn_bind_ok hwords, if_neg hnil, runOn_bind_ok hsum, runOn_bind_ok (runOn_fetch hsummed)]
    split
    · exact ⟨_, rfl⟩
    · -- the leading axes of extent 1 do not change the number of elements
      have hsize : Shape.size n.shape = Shape.size (Shape.reduced axes true m.shape) := by
        rw [hkept, Shape.size_replicate_append]
      have hreshape := Shape.reshape_of_lt ((hg.positive hm).reduced true) (hg.positive hn) hsize (hsize ▸ hcount)
      exact ⟨_, runOn_reshape hsummed hreshape⟩

/-- The answer has the shape of the operand, and its elements add up what is read there. -/
theorem unbroadcast_answers (hg : g.WellFormed) {n m : Node} (hn : g.node? x = some n) (hm : g.node? c = some m)
    (hst : Shape.Stretches n.shape m.shape) (hcount : Shape.size n.shape < Word.limit) :
    ∃ d g', (unbroadcast x c).runOn g = .ok (.ok d, g') ∧ g'.WellFormed ∧ g.Extends g' ∧ g'.shapeOf d = .ok n.shape ∧
      ∀ {α : Type} [AddCommMonoid α] (A : Algebra α) (leaves : Leaves α), (∀ xs, A.reduce .sum xs = xs.sum) →
        ∀ {i}, Shape.Mem i n.shape → g'.element A leaves d i =
          ∑ j ∈ Shape.box m.shape with Shape.restrict n.shape j = i, g.element A leaves c j := by
  obtain ⟨answer, hrun⟩ := unbroadcast_runs hg hn hm hst hcount
  -- any scalars will do to see that the answer is a node
  have hmakes := unbroadcast_unstretched hg (Nat.zero_le _) (Graph.denotes_node Arith.double.toAlgebra (fun _ => #[]) hn)
    (Graph.denotes_node _ _ hm) (Nat.zero_le _) hst
  obtain ⟨d, g', rfl, hg', happ, -, hd⟩ := hmakes.of_run hrun
  refine ⟨d, g', hrun, hg', happ.grows, hd.shapeOf, fun A leaves hsum _ hi => ?_⟩
  have hproduces := unbroadcast_produces hsum hg (Nat.zero_le _) (Graph.denotes_node A leaves hn)
    (Graph.denotes_node A leaves hm) (Nat.zero_le _) hst
  obtain ⟨_, _, heq, -, -, -, hd⟩ := hproduces.of_run hrun
  cases heq
  exact hd.element hi

end Gradient

open Extend TensorLoom.Gradient

/-- Unstretching undoes broadcasting on shapes and is its transpose on values. If `r` absorbs
`a`, a contribution of shape `r` to an operand of shape `a` is answered by a node of shape
`a`, whatever else is in the graph. Every position of `r` is sent to one position of `a` by
the index rule of the lowering, in whatever form its coordinates are, and where elements are
added up exactly, as in a commutative ring, a position of `a` gets the sum of the
contribution over the positions of `r` that are sent to it. -/
theorem unbroadcast_transposes {g : Graph} (hg : g.WellFormed) {x c : Nat} {a r : Shape} (hx : g.shapeOf x = .ok a)
    (hc : g.shapeOf c = .ok r) (hbroadcast : Shape.broadcast a r = .ok r) (hcount : Shape.size a < Word.limit) :
    (∀ j, Shape.Mem j r → ∃ i, Lowering.broadcastIndex 0 j a = .ok i ∧ Shape.Mem i a ∧
      ∀ (β : Type) (origin : β) (read : β → Nat) (idx : List β), read origin = 0 → idx.map read = j →
        (Lowering.broadcastIndex origin idx a).map (List.map read) = .ok i) ∧
    ∃ d g', (unbroadcast x c).runOn g = .ok (.ok d, g') ∧ g'.WellFormed ∧ g.Extends g' ∧ g'.shapeOf d = .ok a ∧
      ∀ {α : Type} [AddCommMonoid α] (A : Algebra α) (leaves : Leaves α), (∀ xs, A.reduce .sum xs = xs.sum) →
        ∀ i, Shape.Mem i a → g'.element A leaves d i =
          ∑ j ∈ Shape.box r with Lowering.broadcastIndex 0 j a = .ok i, g.element A leaves c j := by
  obtain ⟨hst, -⟩ := Shape.stretches_of_broadcast hbroadcast
  have hrule : ∀ {j}, Shape.Mem j r → Lowering.broadcastIndex 0 j a = .ok (Shape.restrict a j) := fun hj =>
    Lowering.broadcastIndex_eq_restrict (hj.length_eq ▸ hst.1)
  constructor
  · intro j hj
    refine ⟨_, hrule hj, hst.mem_restrict hj, fun β origin read idx hzero hread => ?_⟩
    rw [← Lowering.broadcastIndex_map, hzero, hread, hrule hj]
  · obtain ⟨n, hn, rfl⟩ := Graph.shapeOf_eq_ok.1 hx
    obtain ⟨m, hm, rfl⟩ := Graph.shapeOf_eq_ok.1 hc
    obtain ⟨d, g', hrun, hg', hext, hshape, helement⟩ := unbroadcast_answers hg hn hm hst hcount
    refine ⟨d, g', hrun, hg', hext, hshape, fun A leaves hsum i hi => ?_⟩
    rw [helement A leaves hsum hi]
    refine Finset.sum_congr (Finset.filter_congr fun j hj => ?_) fun _ _ => rfl
    rw [hrule (Shape.mem_box.1 hj), Except.ok.injEq]

/-- A column of three, and a contribution to it of two pages with three rows and four columns. -/
def columnAndPages : Graph := ⟨[⟨.input, [3, 1]⟩, ⟨.input, [2, 3, 4]⟩]⟩

/-- The middle of the column gets the middle rows of both pages: the numbers 4 to 7 and 16 to 19. -/
theorem unbroadcast_transposes_column : ∃ d g', (unbroadcast 0 1).runOn columnAndPages = .ok (.ok d, g') ∧
    g'.shapeOf d = .ok [3, 1] ∧
    g'.element Scalars.rational.algebra (fun _ => (Array.range 24).map Nat.cast) d [1, 0] = 92 := by
  have hbuilt : columnAndPages.Built := .call (.input [2, 3, 4]) (.call (.input [3, 1]) .empty rfl) rfl
  obtain ⟨-, d, g', hrun, -, -, hshape, hsum⟩ := unbroadcast_transposes hbuilt.wellFormed
    (rfl : columnAndPages.shapeOf 0 = .ok [3, 1]) (rfl : columnAndPages.shapeOf 1 = .ok [2, 3, 4]) rfl (by decide)
  refine ⟨d, g', hrun, hshape, ?_⟩
  have hmiddle : Shape.Mem [1, 0] [3, 1] := by simp [Shape.Mem]
  rw [hsum Scalars.rational.algebra _ (fun _ => rfl) [1, 0] hmiddle]
  decide +kernel

end TensorLoom
