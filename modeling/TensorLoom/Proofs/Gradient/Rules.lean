import TensorLoom.Proofs.Gradient.Contribution
/-
# What the derivative rules contribute

For every node the tensors that its operands take of the derivative by the node, over any
scalars (`Setting.parts`). The rules build them, each by the same scalar operations in the
same order whatever is wanted: after the rule of a node the table holds what was found
before it, and these parts behind it (`rule_takes`).
-/

namespace TensorLoom.Gradient

open Extend Build

/-! ## Element by element -/

section
variable {α : Type} (A : Algebra α)

/-- What an element `x` takes of the derivative `u` by the result `y` of an operation on it. -/
def unaryPart (op : UnaryOp) (u x y : α) : α :=
  match op with
  | .exp => A.binary .mul u y
  | .log => A.binary .div u x
  | .sin => A.binary .mul u (A.unary .sin (A.binary .add x (A.lit 1.5707963267948966)))
  | .sqrt => A.binary .mul u (A.binary .div (A.lit 0.5) y)
  | .cast | .nop => u

/-- What the first of two elements `a` and `b` takes of the derivative `u` by the result `y`. -/
def leftPart (op : BinaryOp) (u a b y : α) : α :=
  match op with
  | .add | .sub => u
  | .mul => A.binary .mul u b
  | .div => A.binary .div u b
  | .pow => A.binary .mul u (A.binary .mul b (A.binary .pow a (A.binary .sub b (A.lit 1.0))))
  | .cmp => A.lit 0.0
  | .max => A.binary .mul u (A.binary .cmp y a)

/-- What the second takes. -/
def rightPart (op : BinaryOp) (u a b y : α) : α :=
  match op with
  | .add => u
  | .sub => A.binary .mul u (A.lit (-1.0))
  | .mul => A.binary .mul u a
  | .div => A.binary .mul (A.binary .div (A.binary .mul u a) (A.binary .mul b b)) (A.lit (-1.0))
  | .pow => A.binary .mul u (A.binary .mul (A.unary .log a) y)
  | .cmp => A.lit 0.0
  | .max => A.binary .mul u (A.binary .sub (A.lit 1.0) (A.binary .cmp y a))

/-- What the elements `X` take of the derivative `U` by their sums, or by their maxima `Y`.
Elements that share a maximum share its derivative. -/
def reducePart (op : ReduceOp) (axes : List Nat) (keepDims : Bool) (input : Shape) (U X Y : List Nat → α)
    (i : List Nat) : α :=
  let mask (j : List Nat) : α := A.binary .cmp (X j) (Y (Shape.collapse axes keepDims j))
  match op with
  | .sum => A.binary .mul (U (Shape.collapse axes keepDims i)) (A.lit 1.0)
  | .max =>
    A.binary .mul (U (Shape.collapse axes keepDims i)) (A.binary .div (mask i) (A.reduce .sum
      (((Shape.indices input).filter fun j => Shape.collapse axes keepDims j = Shape.collapse axes keepDims i).map mask)))

end

/-! ## Reductions -/

/-- Elements that fall together when axes are kept do so when they are dropped. -/
theorem collapse_eq_iff {axes i j : List Nat} {s : Shape} (hi : Shape.Mem i s) (hj : Shape.Mem j s) (keepDims : Bool) :
    Shape.collapse axes true j = Shape.collapse axes true i ↔
      Shape.collapse axes keepDims j = Shape.collapse axes keepDims i := by
  cases keepDims with
  | true => rfl
  | false =>
    rw [Shape.collapse_true, Shape.collapse_true, Shape.collapse_false, Shape.collapse_false]
    constructor
    · intro h
      rw [← Shape.outside_blank 0 0 j, h, Shape.outside_blank]
    · intro h
      have hlen : j.length = i.length := hj.length_eq.trans hi.length_eq.symm
      rw [← Shape.weave_replicate_outside, ← Shape.weave_replicate_outside, h, hlen,
        Shape.length_inside_congr 0 j Nat i hlen]

section
variable {α : Type} {axes : List Nat} {keepDims : Bool} {input : Shape} {U : List Nat → α}

/-- A reduced tensor as it would be with its axes kept. -/
def kept (axes : List Nat) (keepDims : Bool) (input : Shape) (U : List Nat → α) (k : List Nat) : α :=
  if keepDims then U k
  else U (Shape.indexOf (Shape.reduced axes keepDims input) (Shape.offset k (Shape.reduced axes true input)))

/-- It is read where the reduction put the elements. -/
theorem kept_restrict {i : List Nat} (hi : Shape.Mem i input) (U : List Nat → α) :
    kept axes keepDims input U (Shape.restrict (Shape.reduced axes true input) i) =
      U (Shape.collapse axes keepDims i) := by
  rw [Shape.reduced_true, Shape.restrict_blank hi, kept, Shape.reduced_true]
  cases keepDims with
  | true => rw [if_pos rfl, Shape.collapse_true]
  | false =>
    rw [if_neg (by simp), (Shape.mem_blank 0 hi).2, Shape.reduced_false, Shape.collapse_false,
      Shape.indexOf_offset (Shape.mem_outside hi)]

/-- The reduced tensor is reshaped if its axes were dropped. -/
theorem makes_kept {A : Algebra α} {leaves : Leaves α} {g : Graph} {c : Nat} (hg : g.WellFormed)
    (hinput : input.Positive) (hc : g.Denotes A leaves c (Shape.reduced axes keepDims input) U)
    {next : NodeId → Build NodeId} {Q : NodeId → Graph → Prop}
    (hnext : ∀ {d : Nat} {g' : Graph}, g'.WellFormed → g.Appends g' →
      g'.Denotes A leaves d (Shape.reduced axes true input) (kept axes keepDims input U) → (next d).Makes g' Q) :
    (if keepDims then pure c >>= next else Build.reshape c (Shape.reduced axes true input) >>= next : Build NodeId).Makes
      g Q := by
  cases keepDims with
  | true => exact Makes.read (runOn_pure c g) (hnext hg (.refl g) hc)
  | false =>
    have hsize : Shape.size (Shape.reduced axes true input) = Shape.size (Shape.reduced axes false input) := by
      rw [Shape.size_reduced, Shape.size_reduced]
    exact Makes.bind (reshape_produces hg (Nat.zero_le _) hc (hinput.reduced true) hsize) fun hg' happ hd =>
      hnext hg' happ hd.2

end

/-! ## Matrices -/

/-- The matrix with the given entries. -/
def entries {α : Type} (F : Nat → Nat → α) (i : List Nat) : α := F (i.headD 0) ((i.drop 1).headD 0)

theorem mem_matrix {m n : Nat} {idx : List Nat} (h : Shape.Mem idx [m, n]) : ∃ k < m, ∃ l < n, idx = [k, l] := by
  obtain ⟨k, l, rfl⟩ := List.length_eq_two.1 h.length_eq
  exact ⟨k, h.1, l, h.2.1, rfl⟩

/-- Matrices with elements have positive extents. -/
theorem matrix_positive {m : Shape.Matrix} (h : 0 < Shape.size m.shape) : m.shape.Positive := by
  simp only [Shape.Matrix.shape, Shape.size, Nat.mul_one] at h
  refine Shape.positive_cons.2 ⟨Nat.pos_of_mul_pos_right h, Shape.positive_cons.2 ⟨?_, Shape.positive_nil⟩⟩
  exact Nat.pos_of_mul_pos_left h

section
variable {s : Shape} {M : Shape.Matrix} {index : Nat → Nat → List Nat}

/-- How an operand holds the entries of its matrix. -/
structure MatrixAt (s : Shape) (M : Shape.Matrix) (index : Nat → Nat → List Nat) : Prop where
  size : Shape.size M.shape = Shape.size s
  place : ∀ {k p : Nat}, k < M.rows → p < M.cols →
    Shape.Mem (index k p) s ∧ Shape.offset (index k p) s = Shape.offset [k, p] M.shape
  matrix : s.length = 2 → s = M.shape

/-- It has its entries where the operand has them. -/
theorem MatrixAt.entry {α : Type} (h : MatrixAt s M index) (F : Nat → Nat → α) {k p : Nat} (hk : k < M.rows)
    (hp : p < M.cols) :
    entries F (Shape.indexOf M.shape (Shape.offset (index k p) s)) = F k p := by
  have hmem : Shape.Mem [k, p] M.shape := ⟨hk, hp, trivial⟩
  rw [(h.place hk hp).2, Shape.indexOf_offset hmem]
  rfl

theorem matrixAt_row {a : Shape.Matrix} (h : Shape.rowMatrix? s = some a) : MatrixAt s a (Shape.rowIndex s) := by
  refine ⟨Shape.size_rowMatrix h, Shape.rowIndex_spec h, fun hlen => ?_⟩
  rcases Shape.rowMatrix?_eq_some h with ⟨hrow, -⟩ | hrow
  · rw [hrow] at hlen
    cases hlen
  · exact hrow

theorem matrixAt_col {b : Shape.Matrix} (h : Shape.colMatrix? s = some b) : MatrixAt s b (Shape.colIndex s) := by
  refine ⟨Shape.size_colMatrix h, Shape.colIndex_spec h, fun hlen => ?_⟩
  rcases Shape.colMatrix?_eq_some h with ⟨hcol, -⟩ | hcol
  · rw [hcol] at hlen
    cases hlen
  · exact hcol

variable {α : Type} {A : Algebra α} {leaves : Leaves α} {g : Graph} {f : List Nat → α} {F : Nat → Nat → α}
  {x c m n base : Nat}

/-- An operand as a matrix. -/
theorem asMatrix_makes (hg : g.WellFormed) (h : MatrixAt s M index) (hx : g.Denotes A leaves x s f) :
    (asMatrix x s M).Makes g fun c g' => g'.Denotes A leaves c M.shape (entries fun k p => f (index k p)) := by
  have hpos : M.shape.Positive := matrix_positive (h.size ▸ Shape.size_pos (hx.positive hg))
  have hentry : ∀ {i}, Shape.Mem i M.shape →
      f (Shape.indexOf s (Shape.offset i M.shape)) = entries (fun k p => f (index k p)) i := by
    intro i hi
    obtain ⟨k, hk, p, hp, rfl⟩ := mem_matrix hi
    obtain ⟨hmem, hoffset⟩ := h.place hk hp
    rw [← hoffset, Shape.indexOf_offset hmem]
    rfl
  unfold asMatrix
  split
  · rename_i hlen
    refine Makes.pure hg ?_
    obtain rfl := h.matrix hlen
    exact hx.congr fun hm => by rw [← hentry hm, Shape.indexOf_offset hm]
  · exact Makes.mono (reshape_produces hg (Nat.zero_le _) hx hpos h.size) fun _ hd => hd.2.congr hentry

/-- A matrix in the shape of an operand. -/
theorem ofMatrix_produces (hg : g.WellFormed) (hb : base ≤ g.length) (h : MatrixAt s M index) (hs : s.Positive)
    (hc : g.Denotes A leaves c M.shape f) (hbase : base ≤ c) :
    Produces A leaves base (ofMatrix c s) g s fun j => f (Shape.indexOf M.shape (Shape.offset j s)) := by
  unfold ofMatrix
  split
  · rename_i hlen
    refine Makes.pure hg ⟨hbase, ?_⟩
    rw [h.matrix hlen]
    exact hc.congr fun hm => by rw [Shape.indexOf_offset hm]
  · exact reshape_produces hg hb hc hs h.size.symm

theorem transpose_entries (hg : g.WellFormed) (hb : base ≤ g.length) (hc : g.Denotes A leaves c [m, n] (entries F)) :
    Produces A leaves base (Build.transpose c) g [n, m] (entries fun l k => F k l) := by
  refine (transpose_produces hg hb hc).congr fun hm => ?_
  obtain ⟨l, -, k, -, rfl⟩ := mem_matrix hm
  rfl

end

/-- What the rows of a product of matrices take: the derivative `U` times `R`, transposed. -/
def leftProduct {α : Type} (A : Algebra α) (s : Shape) (a : Shape.Matrix) (cols : Nat) (U : List Nat → α)
    (R : Nat → Nat → α) (j : List Nat) : α :=
  entries (fun k p => A.reduce .sum ((List.range cols).map fun l => A.binary .mul (U [k, l]) (R p l)))
    (Shape.indexOf a.shape (Shape.offset j s))

/-- What its columns take: `L`, transposed, times the derivative. -/
def rightProduct {α : Type} (A : Algebra α) (s : Shape) (b : Shape.Matrix) (rows : Nat) (U : List Nat → α)
    (L : Nat → Nat → α) (j : List Nat) : α :=
  entries (fun p l => A.reduce .sum ((List.range rows).map fun k => A.binary .mul (L k p) (U [k, l])))
    (Shape.indexOf b.shape (Shape.offset j s))

/-! ## The rules -/

namespace Setting

variable {α : Type} (σ : Setting α)

/-- The element of an operand that is read at an index of the stretched result. -/
def read (x : Nat) (idx : List Nat) : α := σ.value x (Shape.restrict (σ.shape x) idx)

/-- What the operands of a node take of the derivative `U` by the node, in the order in which
its rule contributes. -/
def parts (id : Nat) (node : Node) (U : List Nat → α) : List (Part α) :=
  match node.kind with
  | .input | .weight | .constant _ => []
  | .unary op x => [⟨x, node.shape, fun i => unaryPart σ.algebra op (U i) (σ.value x i) (σ.value id i)⟩]
  | .binary .cmp _ _ => []
  | .binary op lhs rhs =>
    [⟨lhs, node.shape, fun i => leftPart σ.algebra op (U i) (σ.read lhs i) (σ.read rhs i) (σ.value id i)⟩,
      ⟨rhs, node.shape, fun i => rightPart σ.algebra op (U i) (σ.read lhs i) (σ.read rhs i) (σ.value id i)⟩]
  | .reduce op x axes keepDims =>
    [⟨x, σ.shape x, reducePart σ.algebra op axes keepDims (σ.shape x) U (σ.value x) (σ.value id)⟩]
  | .reshape x => [⟨x, σ.shape x, fun j => U (Shape.indexOf node.shape (Shape.offset j (σ.shape x)))⟩]
  | .permute x perm =>
    [⟨x, σ.shape x, fun j => U (Shape.unpermute ((Shape.inversePermutation perm).toOption.getD []) j)⟩]
  | .matmul lhs rhs =>
    match Shape.matrices (σ.shape lhs) (σ.shape rhs) with
    | .error _ => []
    | .ok (a, b) =>
      [⟨lhs, σ.shape lhs, leftProduct σ.algebra (σ.shape lhs) a b.cols U fun p l =>
          σ.value rhs (Shape.colIndex (σ.shape rhs) p l)⟩,
        ⟨rhs, σ.shape rhs, rightProduct σ.algebra (σ.shape rhs) b a.rows U fun k p =>
          σ.value lhs (Shape.rowIndex (σ.shape lhs) k p)⟩]

variable {σ} {needs : Needs} {F : Found α} {table : Table} {g : Graph} {s : Shape} {U : List Nat → α} {id up x : Nat}

theorem unaryRule_takes (h : σ.Holds needs F table g) {op : UnaryOp} (hn : σ.graph.node? id = some ⟨.unary op x, s⟩)
    (hroot : id ≤ σ.root) (hup : σ.Fresh g up s U) :
    σ.Takes needs ((σ.parts id ⟨.unary op x, s⟩ U).foldl σ.add F) (unaryRule needs id op x up) table g := by
  have hlt : x < id := σ.wellFormed.operand_lt hn x (by simp [Kind.operands])
  have hx := Nat.lt_trans hlt (Graph.node?_lt hn)
  obtain rfl : s = σ.shape x := σ.wellFormed.fits hn
  have hl := h.toLater
  refine contributeBy_takes h (by omega) ?_ (.refl _)
  cases op with
  | exp => exact binary_produces_same hl.wellFormed hl.base_le .mul hup.2 (hl.denotes_id hn)
  | log => exact binary_produces_same hl.wellFormed hl.base_le .div hup.2 (hl.denotes hx)
  | sin =>
    refine hl.bind (constant_produces hl.wellFormed hl.base_le _) fun h₁ happ₁ hquarter => ?_
    refine h₁.bind (binary_produces_left h₁.wellFormed h₁.base_le .add (h₁.denotes hx) hquarter (.nil _))
      fun h₂ happ₂ hshifted => ?_
    refine h₂.bind (unary_produces h₂.wellFormed h₂.base_le .sin hshifted) fun h₃ happ₃ hcosine => ?_
    exact binary_produces_same h₃.wellFormed h₃.base_le .mul (hl.keep h₃ ((happ₁.trans happ₂).trans happ₃) hup.2) hcosine
  | sqrt =>
    refine hl.bind (constant_produces hl.wellFormed hl.base_le _) fun h₁ happ₁ hhalf => ?_
    refine h₁.bind (binary_produces_right h₁.wellFormed h₁.base_le .div hhalf (h₁.denotes_id hn) (.nil _))
      fun h₂ happ₂ hscale => ?_
    exact binary_produces_same h₂.wellFormed h₂.base_le .mul (hl.keep h₂ (happ₁.trans happ₂) hup.2) hscale
  | cast => exact Makes.pure hl.wellFormed hup
  | nop => exact Makes.pure hl.wellFormed hup

theorem binaryRule_takes (h : σ.Holds needs F table g) {op : BinaryOp} {lhs rhs : Nat}
    (hn : σ.graph.node? id = some ⟨.binary op lhs rhs, s⟩) (hroot : id ≤ σ.root) (hup : σ.Fresh g up s U) :
    σ.Takes needs ((σ.parts id ⟨.binary op lhs rhs, s⟩ U).foldl σ.add F) (binaryRule needs id op lhs rhs up) table g := by
  have hltl : lhs < id := σ.wellFormed.operand_lt hn lhs (by simp [Kind.operands])
  have hltr : rhs < id := σ.wellFormed.operand_lt hn rhs (by simp [Kind.operands])
  have hid := Graph.node?_lt hn
  have hlroot : lhs ≤ σ.root := by omega
  have hrroot : rhs ≤ σ.root := by omega
  have hjoin : Shape.broadcast (σ.shape lhs) (σ.shape rhs) = .ok s := σ.wellFormed.fits hn
  obtain ⟨hstl, hstr⟩ := Shape.stretches_of_broadcast hjoin
  have hdl : ∀ {g}, σ.Later g → σ.Denotes g lhs _ _ := fun h => h.denotes (Nat.lt_trans hltl hid)
  have hdr : ∀ {g}, σ.Later g → σ.Denotes g rhs _ _ := fun h => h.denotes (Nat.lt_trans hltr hid)
  have hl := h.toLater
  unfold binaryRule
  cases op with
  | add =>
    exact Takes.andThen (contribute_takes h hlroot hup hstl) fun h' happ =>
      contribute_takes h' hrroot ⟨hup.1, hl.keep h'.toLater happ hup.2⟩ hstr
  | sub =>
    refine Takes.andThen (contribute_takes h hlroot hup hstl) fun h' happ => contributeBy_takes h' hrroot ?_ hstr
    exact neg_produces h'.wellFormed h'.base_le (hl.keep h'.toLater happ hup.2)
  | mul =>
    refine Takes.andThen (contributeBy_takes h hlroot ?_ hstl) fun h' happ => contributeBy_takes h' hrroot ?_ hstr
    · exact binary_produces_left hl.wellFormed hl.base_le .mul hup.2 (hdr hl) hstr
    · exact binary_produces_left h'.wellFormed h'.base_le .mul (hl.keep h'.toLater happ hup.2) (hdl h'.toLater) hstl
  | div =>
    refine Takes.andThen (contributeBy_takes h hlroot ?_ hstl) fun h' happ => contributeBy_takes h' hrroot ?_ hstr
    · exact binary_produces_left hl.wellFormed hl.base_le .div hup.2 (hdr hl) hstr
    · have hl' := h'.toLater
      refine hl'.bind (binary_produces_left hl'.wellFormed hl'.base_le .mul (hl.keep hl' happ hup.2) (hdl hl') hstl)
        fun h₁ happ₁ hnum => ?_
      refine h₁.bind (binary_produces_same h₁.wellFormed h₁.base_le .mul (hdr h₁) (hdr h₁)) fun h₂ happ₂ hden => ?_
      refine h₂.bind (binary_produces_left h₂.wellFormed h₂.base_le .div (h₁.keep h₂ happ₂ hnum) hden hstr)
        fun h₃ happ₃ hquot => ?_
      exact neg_produces h₃.wellFormed h₃.base_le hquot
  | pow =>
    refine Takes.andThen (contributeBy_takes h hlroot ?_ hstl) fun h' happ => contributeBy_takes h' hrroot ?_ hstr
    · refine hl.bind (constant_produces hl.wellFormed hl.base_le 1.0) fun h₁ happ₁ hone => ?_
      refine h₁.bind (binary_produces_left h₁.wellFormed h₁.base_le .sub (hdr h₁) hone (.nil _)) fun h₂ happ₂ hexp => ?_
      refine h₂.bind (binary_produces h₂.wellFormed h₂.base_le .pow (hdl h₂) hexp hjoin (h₂.denotes_id hn).covers)
        fun h₃ happ₃ hlow => ?_
      refine h₃.bind (binary_produces_right h₃.wellFormed h₃.base_le .mul (hdr h₃) hlow hstr) fun h₄ happ₄ hscale => ?_
      have happ' := ((happ₁.trans happ₂).trans happ₃).trans happ₄
      exact binary_produces_same h₄.wellFormed h₄.base_le .mul (hl.keep h₄ happ' hup.2) hscale
    · have hl' := h'.toLater
      refine hl'.bind (unary_produces hl'.wellFormed hl'.base_le .log (hdl hl')) fun h₁ happ₁ hlog => ?_
      refine h₁.bind (binary_produces_right h₁.wellFormed h₁.base_le .mul hlog (h₁.denotes_id hn) hstl)
        fun h₂ happ₂ hscale => ?_
      have happ' := (happ.trans happ₁).trans happ₂
      exact binary_produces_same h₂.wellFormed h₂.base_le .mul (hl.keep h₂ happ' hup.2) hscale
  | cmp => exact Takes.nothing h
  | max =>
    refine Takes.after h (binary_produces_left hl.wellFormed hl.base_le .cmp (hl.denotes_id hn) (hdl hl) hstl)
      fun {mask g₁} h₁ happ₁ hmask => ?_
    have hl₁ := h₁.toLater
    have hup₁ := hl.keep hl₁ happ₁ hup.2
    refine Takes.andThen (contributeBy_takes h₁ hlroot ?_ hstl) fun h' happ => contributeBy_takes h' hrroot ?_ hstr
    · exact binary_produces_same hl₁.wellFormed hl₁.base_le .mul hup₁ hmask.2
    · have hl' := h'.toLater
      refine hl'.bind (constant_produces hl'.wellFormed hl'.base_le 1.0) fun h₂ happ₂ hone => ?_
      have hmask₂ := hl₁.keep h₂ (happ.trans happ₂) hmask.2
      refine h₂.bind (binary_produces_right h₂.wellFormed h₂.base_le .sub hone hmask₂ (.nil _)) fun h₃ happ₃ hrest => ?_
      exact binary_produces_same h₃.wellFormed h₃.base_le .mul (hl₁.keep h₃ ((happ.trans happ₂).trans happ₃) hup₁) hrest

section
variable {axes : List Nat} {keepDims : Bool}

/-- A reduction with its axes kept is stretched to what it was taken over. -/
theorem stretches_reduced (axes : List Nat) (input : Shape) : Shape.Stretches (Shape.reduced axes true input) input := by
  rw [Shape.reduced_true]
  exact Shape.stretches_blank _

theorem sumPart_produces (h : σ.Later g) (hx : x < σ.graph.length) (Y : List Nat → α)
    (hup : σ.Denotes g up (Shape.reduced axes true (σ.shape x)) (kept axes keepDims (σ.shape x) U)) :
    σ.Produces (do
        let ones ← Build.full (σ.shape x) 1.0
        Build.binary .mul up ones) g (σ.shape x)
      (reducePart σ.algebra .sum axes keepDims (σ.shape x) U (σ.value x) Y) := by
  refine h.bind (h.full hx 1.0) fun h₁ happ₁ hones => ?_
  refine (binary_produces_right h₁.wellFormed h₁.base_le .mul (h.keep h₁ happ₁ hup) hones (stretches_reduced ..)).congr
    fun hm => ?_
  rw [kept_restrict hm]
  rfl

theorem maxPart_produces {m : Nat} {Y : List Nat → α} (h : σ.Later g) (hx : x < σ.graph.length)
    (haxes : Shape.SortedAxes axes (σ.shape x).length)
    (hup : σ.Denotes g up (Shape.reduced axes true (σ.shape x)) (kept axes keepDims (σ.shape x) U))
    (hmax : σ.Denotes g m (Shape.reduced axes true (σ.shape x)) (kept axes keepDims (σ.shape x) Y)) :
    σ.Produces (do
        let mask ← Build.binary .cmp x m
        let ties ← Build.reduce .sum mask axes true
        let share ← Build.binary .div mask ties
        Build.binary .mul up share) g (σ.shape x)
      (reducePart σ.algebra .max axes keepDims (σ.shape x) U (σ.value x) Y) := by
  have hst := stretches_reduced axes (σ.shape x)
  refine h.bind (binary_produces_left h.wellFormed h.base_le .cmp (h.denotes hx) hmax hst) fun h₁ happ₁ hcmp => ?_
  have hmask : σ.Denotes _ _ (σ.shape x) fun i => σ.algebra.binary .cmp (σ.value x i) (Y (Shape.collapse axes keepDims i)) :=
    hcmp.congr fun hm => by rw [kept_restrict hm]
  refine h₁.bind (reduce_produces h₁.wellFormed h₁.base_le .sum true hmask haxes (h.keep h₁ happ₁ hmax).covers)
    fun h₂ happ₂ hties => ?_
  refine h₂.bind (binary_produces_left h₂.wellFormed h₂.base_le .div (h₁.keep h₂ happ₂ hmask) hties hst)
    fun h₃ happ₃ hshare => ?_
  have hup₃ := h.keep h₃ ((happ₁.trans happ₂).trans happ₃) hup
  refine (binary_produces_right h₃.wellFormed h₃.base_le .mul hup₃ hshare hst).congr fun {i} hm => ?_
  -- the ties are counted with the axes kept
  have hsame : ((Shape.indices (σ.shape x)).filter fun j => Shape.collapse axes true j =
        Shape.restrict (Shape.reduced axes true (σ.shape x)) i) =
      (Shape.indices (σ.shape x)).filter fun j => Shape.collapse axes keepDims j = Shape.collapse axes keepDims i := by
    rw [Shape.reduced_true, Shape.restrict_blank hm, ← Shape.collapse_true]
    refine List.filter_congr fun j hj => ?_
    rw [decide_eq_decide]
    exact collapse_eq_iff hm (Shape.mem_indices.1 hj) keepDims
  rw [kept_restrict hm, hsame]
  rfl

theorem reduceRule_takes (h : σ.Holds needs F table g) {op : ReduceOp}
    (hn : σ.graph.node? id = some ⟨.reduce op x axes keepDims, s⟩) (hroot : id ≤ σ.root) (hup : σ.Fresh g up s U) :
    σ.Takes needs ((σ.parts id ⟨.reduce op x axes keepDims, s⟩ U).foldl σ.add F)
      (reduceRule needs id op x axes keepDims up) table g := by
  have hlt : x < id := σ.wellFormed.operand_lt hn x (by simp [Kind.operands])
  have hx := Nat.lt_trans hlt (Graph.node?_lt hn)
  obtain ⟨haxes, rfl⟩ : Shape.SortedAxes axes (σ.shape x).length ∧ s = Shape.reduced axes keepDims (σ.shape x) :=
    σ.wellFormed.fits hn
  have hpos : (σ.shape x).Positive := σ.wellFormed.shapeAt_positive x
  obtain ⟨node, hfetch, hshape⟩ := h.fetch_shape hx
  have hrule : Shape.reduce (σ.shape x) axes true = .ok (Shape.reduced axes true (σ.shape x)) :=
    Shape.reduce_eq_ok.2 ⟨axes, haxes.normalizeAxes, rfl⟩
  unfold reduceRule
  refine contributeBy_takes h (by omega) ?_ (.refl _)
  refine Makes.read hfetch ?_
  simp only [hshape, hrule]
  refine Makes.read (runOn_rule_ok _ _ g) ?_
  refine makes_kept h.wellFormed hpos hup.2 fun {up₁ g₁} hg₁ happ₁ hup₁ => ?_
  have h₁ := h.toLater.grow hg₁ happ₁
  cases op with
  | sum => exact sumPart_produces h₁ hx (σ.value id) hup₁
  | max =>
    refine makes_kept h₁.wellFormed hpos (h₁.denotes_id hn) fun {m g₂} hg₂ happ₂ hmax => ?_
    have h₂ := h₁.grow hg₂ happ₂
    exact maxPart_produces h₂ hx haxes (h₁.keep h₂ happ₂ hup₁) hmax

end

/-- A contribution that is built in any case, in the shape of the operand. -/
theorem contribute_built_takes (h : σ.Holds needs F table g) {C : List Nat → α} {part : Build NodeId} (hx : x ≤ σ.root)
    (hpart : σ.Produces part g (σ.shape x) C) :
    σ.Takes needs (σ.add F ⟨x, σ.shape x, C⟩) (liftM part >>= contribute needs x) table g :=
  Takes.after h hpart fun h' _ hc => contribute_takes h' hx hc (.refl _)

theorem reshapeRule_takes (h : σ.Holds needs F table g) (hn : σ.graph.node? id = some ⟨.reshape x, s⟩)
    (hroot : id ≤ σ.root) (hup : σ.Fresh g up s U) :
    σ.Takes needs ((σ.parts id ⟨.reshape x, s⟩ U).foldl σ.add F) (rule needs id (.reshape x) up) table g := by
  have hlt : x < id := σ.wellFormed.operand_lt hn x (by simp [Kind.operands])
  have hsize : Shape.size s = Shape.size (σ.shape x) := σ.wellFormed.fits hn
  obtain ⟨node, hfetch, hshape⟩ := h.fetch_shape (Nat.lt_trans hlt (Graph.node?_lt hn))
  refine Takes.read h hfetch ?_
  rw [hshape]
  refine contribute_built_takes h (by omega) ?_
  exact reshape_produces h.wellFormed h.base_le hup.2 (σ.wellFormed.shapeAt_positive x) hsize.symm

theorem parts_permute {perm inv : List Nat} (hinv : Shape.inversePermutation perm = .ok inv) :
    σ.parts id ⟨.permute x perm, s⟩ U = [⟨x, σ.shape x, fun j => U (Shape.unpermute inv j)⟩] := by
  simp only [parts, hinv]
  rfl

theorem permuteRule_takes (h : σ.Holds needs F table g) {perm : List Nat}
    (hn : σ.graph.node? id = some ⟨.permute x perm, s⟩) (hroot : id ≤ σ.root) (hup : σ.Fresh g up s U) :
    σ.Takes needs ((σ.parts id ⟨.permute x perm, s⟩ U).foldl σ.add F) (rule needs id (.permute x perm) up) table g := by
  have hlt : x < id := σ.wellFormed.operand_lt hn x (by simp [Kind.operands])
  have hx := Nat.lt_trans hlt (Graph.node?_lt hn)
  have hpermute : Shape.permute (σ.shape x) perm = .ok s := σ.wellFormed.fits hn
  obtain ⟨inv, hinv, hinverse⟩ := Shape.inversePermutation_eq_ok (Shape.permute_eq_ok.1 hpermute).1
  have hwords : (Extend.words (Shape.inversePermutation perm) : Build (List Nat)).runOn g = .ok (.ok inv, g) := by
    rw [hinv]
    rfl
  rw [parts_permute hinv]
  refine Takes.read h hwords (contribute_built_takes h (by omega) ?_)
  exact permute_produces h.wellFormed h.base_le hup.2 (hinverse.permute hpermute) (h.denotes hx).covers

section
variable {lhs rhs : Nat} {a b : Shape.Matrix}

theorem leftProduct_produces {R : Nat → Nat → α} {right : Nat} (h : σ.Later g) (hl : lhs < σ.graph.length)
    (ha : Shape.rowMatrix? (σ.shape lhs) = some a) (hab : a.cols = b.rows) (hup : σ.Denotes g up [a.rows, b.cols] U)
    (hright : σ.Denotes g right b.shape (entries R)) :
    σ.Produces (do
        let flipped ← Build.transpose right
        let product ← Build.matmul up flipped
        ofMatrix product (σ.shape lhs)) g (σ.shape lhs) (leftProduct σ.algebra (σ.shape lhs) a b.cols U R) := by
  have hshape : a.shape = [a.rows, b.rows] := by rw [Shape.Matrix.shape, hab]
  refine h.bind (transpose_entries h.wellFormed h.base_le hright) fun h₁ happ₁ hflipped => ?_
  have hcovers := (h₁.denotes hl).covers.of_size_le (Nat.le_of_eq (Shape.size_rowMatrix ha))
  rw [hshape] at hcovers
  refine Makes.bind (matmul_produces h₁.wellFormed h₁.base_le (h.keep h₁ happ₁ hup) hflipped hcovers)
    fun hg₂ happ₂ hproduct => ?_
  have h₂ := h₁.grow hg₂ happ₂
  exact ofMatrix_produces h₂.wellFormed h₂.base_le (matrixAt_row ha) (σ.wellFormed.shapeAt_positive lhs)
    (hshape ▸ hproduct.2) hproduct.1

theorem rightProduct_produces {L : Nat → Nat → α} {left : Nat} (h : σ.Later g) (hr : rhs < σ.graph.length)
    (hb : Shape.colMatrix? (σ.shape rhs) = some b) (hab : a.cols = b.rows) (hup : σ.Denotes g up [a.rows, b.cols] U)
    (hleft : σ.Denotes g left a.shape (entries L)) :
    σ.Produces (do
        let flipped ← Build.transpose left
        let product ← Build.matmul flipped up
        ofMatrix product (σ.shape rhs)) g (σ.shape rhs) (rightProduct σ.algebra (σ.shape rhs) b a.rows U L) := by
  have hshape : b.shape = [a.cols, b.cols] := by rw [Shape.Matrix.shape, hab]
  refine h.bind (transpose_entries h.wellFormed h.base_le hleft) fun h₁ happ₁ hflipped => ?_
  have hcovers := (h₁.denotes hr).covers.of_size_le (Nat.le_of_eq (Shape.size_colMatrix hb))
  rw [hshape] at hcovers
  refine Makes.bind (matmul_produces h₁.wellFormed h₁.base_le hflipped (h.keep h₁ happ₁ hup) hcovers)
    fun hg₂ happ₂ hproduct => ?_
  have h₂ := h₁.grow hg₂ happ₂
  exact ofMatrix_produces h₂.wellFormed h₂.base_le (matrixAt_col hb) (σ.wellFormed.shapeAt_positive rhs)
    (hshape ▸ hproduct.2) hproduct.1

theorem matmulRule_takes (h : σ.Holds needs F table g) (hn : σ.graph.node? id = some ⟨.matmul lhs rhs, s⟩)
    (hroot : id ≤ σ.root) (hup : σ.Fresh g up s U) :
    σ.Takes needs ((σ.parts id ⟨.matmul lhs rhs, s⟩ U).foldl σ.add F) (matmulRule needs lhs rhs up) table g := by
  have hltl : lhs < id := σ.wellFormed.operand_lt hn lhs (by simp [Kind.operands])
  have hltr : rhs < id := σ.wellFormed.operand_lt hn rhs (by simp [Kind.operands])
  have hl := Nat.lt_trans hltl (Graph.node?_lt hn)
  have hr := Nat.lt_trans hltr (Graph.node?_lt hn)
  have hfits : Shape.matmul (σ.shape lhs) (σ.shape rhs) = .ok s := σ.wellFormed.fits hn
  obtain ⟨a, b, ha, hb, hab, rfl⟩ := Shape.matmul_eq_ok.1 hfits
  obtain ⟨nl, hfetchl, hshapel⟩ := h.fetch_shape hl
  obtain ⟨nr, hfetchr, hshaper⟩ := h.fetch_shape hr
  unfold parts matmulRule
  simp only [Shape.matrices_eq_ok.2 ⟨ha, hb⟩]
  split
  · refine Takes.read h hfetchl (Takes.read h hfetchr ?_)
    rw [hshapel, hshaper, Shape.matrices_eq_ok.2 ⟨ha, hb⟩]
    refine Takes.read h (runOn_rule_ok _ _ g) ?_
    refine Takes.after h (asMatrix_makes h.wellFormed (matrixAt_row ha) (h.denotes hl)) fun {left g₁} h₁ happ₁ hleft => ?_
    refine Takes.after h₁ (asMatrix_makes h₁.wellFormed (matrixAt_col hb) (h₁.denotes hr))
      fun {right g₂} h₂ happ₂ hright => ?_
    have hup₂ := h.toLater.keep h₂.toLater (happ₁.trans happ₂) hup.2
    refine Takes.andThen (contributeBy_takes h₂ (by omega) (leftProduct_produces h₂.toLater hl ha hab hup₂ hright) (.refl _))
      fun h₃ happ₃ => contributeBy_takes h₃ (by omega) ?_ (.refl _)
    exact rightProduct_produces h₃.toLater hr hb hab (h₂.toLater.keep h₃.toLater happ₃ hup₂)
      (h₁.toLater.keep h₃.toLater (happ₂.trans happ₃) hleft)
  · rename_i hidle
    simp only [Bool.or_eq_true, not_or, Bool.not_eq_true] at hidle
    refine Takes.nothing (h.skip _ fun p hp => ?_)
    rcases List.mem_pair.1 hp with rfl | rfl
    · exact ⟨by simp only; omega, hidle.1⟩
    · exact ⟨by simp only; omega, hidle.2⟩

end

/-- After the rule of a node the table holds what its operands take, behind what it held. -/
theorem rule_takes (h : σ.Holds needs F table g) {node : Node} (hn : σ.graph.node? id = some node) (hroot : id ≤ σ.root)
    (hup : σ.Fresh g up node.shape U) :
    σ.Takes needs ((σ.parts id node U).foldl σ.add F) (rule needs id node.kind up) table g := by
  obtain ⟨kind, s⟩ := node
  cases kind with
  | input => exact Takes.nothing h
  | weight => exact Takes.nothing h
  | constant c => exact Takes.nothing h
  | unary op x => exact unaryRule_takes h hn hroot hup
  | binary op lhs rhs => exact binaryRule_takes h hn hroot hup
  | reduce op x axes keepDims => exact reduceRule_takes h hn hroot hup
  | reshape x => exact reshapeRule_takes h hn hroot hup
  | permute x perm => exact permuteRule_takes h hn hroot hup
  | matmul lhs rhs => exact matmulRule_takes h hn hroot hup

theorem parts_of_isLeaf {node : Node} (h : node.kind.isLeaf) : σ.parts id node U = [] := by
  obtain ⟨kind, s⟩ := node
  cases kind with
  | input | weight => rfl
  | _ => cases h

/-- The parts of a node are those of its operands, which are stretched to them. -/
theorem mem_parts {node : Node} (hn : σ.graph.node? id = some node) {p : Part α} (hp : p ∈ σ.parts id node U) :
    p.node ∈ σ.graph.operandsOf id ∧ Shape.Stretches (σ.shape p.node) p.shape := by
  rw [Graph.operandsOf_eq hn]
  obtain ⟨kind, s⟩ := node
  cases kind with
  | input | weight | constant _ => cases hp
  | unary op x =>
    obtain rfl := List.mem_singleton.1 hp
    obtain rfl : s = σ.shape x := σ.wellFormed.fits hn
    exact ⟨by simp [Kind.operands], .refl _⟩
  | binary op lhs rhs =>
    have hjoin : Shape.broadcast (σ.shape lhs) (σ.shape rhs) = .ok s := σ.wellFormed.fits hn
    obtain ⟨hstl, hstr⟩ := Shape.stretches_of_broadcast hjoin
    unfold parts at hp
    split at hp <;> rename_i hkind <;> cases hkind
    · cases hp
    · rcases List.mem_pair.1 hp with rfl | rfl
      · exact ⟨by simp [Kind.operands], hstl⟩
      · exact ⟨by simp [Kind.operands], hstr⟩
  | reduce op x axes keepDims | reshape x | permute x perm =>
    obtain rfl := List.mem_singleton.1 hp
    exact ⟨by simp [Kind.operands], .refl _⟩
  | matmul lhs rhs =>
    unfold parts at hp
    simp only at hp
    split at hp
    · cases hp
    · rcases List.mem_pair.1 hp with rfl | rfl
      · exact ⟨by simp [Kind.operands], .refl _⟩
      · exact ⟨by simp [Kind.operands], .refl _⟩

end Setting

end TensorLoom.Gradient
