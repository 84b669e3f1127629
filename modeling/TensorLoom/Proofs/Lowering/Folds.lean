import TensorLoom.Proofs.Lowering.Bodies
/-
# Reductions and matrix products

Both are bodies that accumulate: a reduction over the axes that go, a matrix product over
the inner extent.
-/

namespace TensorLoom

namespace Lowering

open BodyM

/-! ## Woven indices -/

theorem length_weave {β γ : Type} {axes : List Nat} {pos : Nat} {s : List γ} {inner outer : List β}
    (hi : inner.length = (Shape.inside axes pos s).length) (ho : outer.length = (Shape.outside axes pos s).length) :
    (weave axes pos s.length inner outer).length = s.length := by
  induction s generalizing pos inner outer with
  | nil => rfl
  | cons x s ih =>
    by_cases hp : pos ∈ axes
    · rw [Shape.inside, if_pos hp] at hi
      rw [Shape.outside, if_pos hp] at ho
      cases inner with
      | nil => cases hi
      | cons i inner => simp [weave, hp, ih (Nat.succ.inj hi) ho]
    · rw [Shape.inside, if_neg hp] at hi
      rw [Shape.outside, if_neg hp] at ho
      cases outer with
      | nil => cases ho
      | cons o outer => simp [weave, hp, ih hi (Nat.succ.inj ho)]

theorem mem_of_mem_weave {β : Type} {axes : List Nat} {pos rank : Nat} {inner outer : List β} {c : β}
    (h : c ∈ weave axes pos rank inner outer) : c ∈ inner ∨ c ∈ outer := by
  fun_induction weave axes pos rank inner outer with
  | case1 => cases h
  | case2 => cases h
  | case3 pos rank _ outer i inner ih =>
    rcases List.mem_cons.1 h with rfl | h
    · exact .inl (List.mem_cons_self ..)
    · exact (ih h).imp_left (List.mem_cons_of_mem _)
  | case4 => cases h
  | case5 pos rank inner _ o outer ih =>
    rcases List.mem_cons.1 h with rfl | h
    · exact .inr (List.mem_cons_self ..)
    · exact (ih h).imp_right (List.mem_cons_of_mem _)

theorem indexIs_weave {α : Type} {s : Frame α} {axes : List Nat} {pos rank : Nat} {inner outer : List Coord}
    {is os : List Nat} (hi : IndexIs s inner is) (ho : IndexIs s outer os) :
    IndexIs s (weave axes pos rank inner outer) (weave axes pos rank is os) := by
  induction rank generalizing pos inner outer is os with
  | zero => exact .nil
  | succ rank ih =>
    by_cases hp : pos ∈ axes
    · cases hi with
      | nil => simp [weave, hp, IndexIs]
      | cons hc hi =>
        simp only [weave, if_pos hp]
        exact .cons hc (ih hi ho)
    · cases ho with
      | nil => simp [weave, hp, IndexIs]
      | cons hc ho =>
        simp only [weave, if_neg hp]
        exact .cons hc (ih hi ho)

/-! ## Reductions -/

section
variable {g : Graph} {id x : Nat} {op : ReduceOp} {axes : List Nat} {keepDims : Bool} {shape : Shape}

/-- The extents and output strides of the loops over the axes that stay. -/
def outerLoops (axes : List Nat) (keepDims : Bool) (input output : Shape) : List (Nat × Nat) :=
  (Shape.dropAxes axes input).zip (if keepDims then Shape.dropAxes axes (Shape.strides output) else Shape.strides output)

/-- The loops over the axes that go. -/
def innerLoops (axes : List Nat) (input : Shape) : List (Nat × Nat) := (axes.filterMap (input[·]?)).map fun d => (d, 0)

theorem map_fst_outerLoops (axes : List Nat) (keepDims : Bool) (input : Shape) :
    (outerLoops axes keepDims input (Shape.reduced axes keepDims input)).map Prod.fst = Shape.outside axes 0 input := by
  have hlen : (Shape.outside axes 0 input).length =
      (if keepDims then Shape.dropAxes axes (Shape.strides (Shape.reduced axes keepDims input))
        else Shape.strides (Shape.reduced axes keepDims input)).length := by
    cases keepDims with
    | true =>
      rw [if_pos rfl, Shape.dropAxes_eq_outside]
      refine Shape.length_outside 0 _ _ _ ?_
      rw [Shape.length_strides, Shape.reduced_true, Shape.length_blank]
    | false => rw [if_neg Bool.false_ne_true, Shape.length_strides, Shape.reduced_false]
  rw [outerLoops, Shape.dropAxes_eq_outside input, List.map_fst_zip (Nat.le_of_eq hlen)]

/-- The loops step through the output by the strides of its extents. -/
theorem map_snd_outerLoops (axes : List Nat) (keepDims : Bool) (input : Shape) :
    (outerLoops axes keepDims input (Shape.reduced axes keepDims input)).map Prod.snd =
      Shape.strides (Shape.outside axes 0 input) := by
  have heq : (if keepDims then Shape.dropAxes axes (Shape.strides (Shape.reduced axes keepDims input))
      else Shape.strides (Shape.reduced axes keepDims input)) = Shape.strides (Shape.outside axes 0 input) := by
    cases keepDims with
    | true => rw [if_pos rfl, Shape.dropAxes_eq_outside, Shape.reduced_true, Shape.outside_strides_blank]
    | false => rw [if_neg Bool.false_ne_true, Shape.reduced_false]
  rw [outerLoops, heq, Shape.dropAxes_eq_outside, List.map_snd_zip (Nat.le_of_eq (Shape.length_strides _))]

theorem map_fst_innerLoops {input : Shape} (h : Shape.SortedAxes axes input.length) :
    (innerLoops axes input).map Prod.fst = Shape.inside axes 0 input := by
  rw [innerLoops, List.map_map, h.filterMap_eq_inside]
  exact List.map_id _

theorem reduceBody_eq {element : ElementEmitter} {input output : Shape} {d : Draft} {l : Lowering}
    (h : Shape.rowMajorStrides output = .ok (Shape.strides output)) :
    (reduceBody element input output op x axes keepDims).runOn d l =
      (foldBody (outerLoops axes keepDims input output) (innerLoops axes input) op
        (fun os is => element x (weave axes 0 input.length is os))
        (fun os => if keepDims then weave axes 0 input.length (axes.map fun _ => Coord.origin) os else os)
        output).runOn d l := by
  unfold reduceBody foldBody
  rw [runOn_bind_ok (runOn_words h d l), innerLoops]
  simp only [List.mapM_map]
  rfl

/-- A reduction folds the elements that collapse to the index. -/
theorem foldsTo_reduce (hg : g.WellFormed) (hn : g.node? id = some ⟨.reduce op x axes keepDims, shape⟩) :
    FoldsTo g id (Shape.outside axes 0 (g.shapeAt x)) (Shape.inside axes 0 (g.shapeAt x)) op
      (fun A leaves os is => g.element A.toAlgebra leaves x (weave axes 0 (g.shapeAt x).length is os))
      (Shape.spread axes keepDims (g.shapeAt x).length) := by
  obtain ⟨hsorted, hshape⟩ : Shape.SortedAxes axes (g.shapeAt x).length ∧ shape = Shape.reduced axes keepDims (g.shapeAt x) :=
    hg.fits hn
  have hid : g.shapeAt id = Shape.reduced axes keepDims (g.shapeAt x) := by rw [Graph.shapeAt_of_node? hn, hshape]
  have hpos := hg.shapeAt_positive x
  refine ⟨by rw [hid, Shape.size_reduced], hpos.inside 0, fun hm => ?_, fun hm => ?_, fun hm α A leaves => ?_⟩
  · rw [hid]
    exact (hsorted.mem_spread hpos keepDims hm).1
  · rw [hid]
    exact (hsorted.mem_spread hpos keepDims hm).2
  · rw [hg.element_eq, Graph.elementStep, hn]
    simp only
    rw [hsorted.filter_collapse hpos keepDims hm, List.map_map]
    rfl

/-- The terms of a reduction are elements of its operand. -/
theorem emitsTerm_reduce {element : List Coord → BodyM ValueId} (helement : EmitsElement g false x element) :
    EmitsTerm g (Shape.outside axes 0 (g.shapeAt x)) (Shape.inside axes 0 (g.shapeAt x))
      (fun os is => element (weave axes 0 (g.shapeAt x).length is os))
      (fun A leaves os is => g.element A.toAlgebra leaves x (weave axes 0 (g.shapeAt x).length is os)) := by
  intro site d l nodes os is hs hd hos his hlo hli
  have hlive : ∀ c ∈ weave axes 0 (g.shapeAt x).length is os, c.Live site d.code := fun c hc =>
    (mem_of_mem_weave hc).elim (his c) (hos c)
  obtain ⟨v, d', l', nodes', hrun, e⟩ := helement hs hd hlive (length_weave hli hlo)
  refine ⟨v, d', l', nodes', hrun, e.toProgress, e.live, fun A leaves w s os' is' hready hknows hos' his' hmo hmi => ?_⟩
  obtain ⟨s', hran, -, hv⟩ := e.runs A leaves w .all s _ ⟨Access.closed_all g l, fun _ => rfl⟩ hready hknows
    (indexIs_weave his' hos') (Shape.mem_weave hmi hmo).1 trivial
  exact ⟨s', hran, hv⟩

/-- The index of the result, for the counters of the outer loops. -/
theorem indexIs_spread {α : Type} {s : Frame α} {rank : Nat} {os : List Coord} {os' : List Nat} (h : IndexIs s os os') :
    IndexIs s (if keepDims then weave axes 0 rank (axes.map fun _ => Coord.origin) os else os)
      (Shape.spread axes keepDims rank os') := by
  unfold Shape.spread
  cases keepDims with
  | false => exact h
  | true =>
    refine indexIs_weave ?_ h
    rw [IndexIs, List.forall₂_map_left_iff, List.forall₂_map_right_iff]
    exact List.forall₂_same.2 fun _ _ => rfl

theorem live_spread {site : Site} {code : List Instr} {rank : Nat} {os : List Coord} (h : ∀ c ∈ os, c.Live site code) :
    ∀ c ∈ (if keepDims then weave axes 0 rank (axes.map fun _ => Coord.origin) os else os), c.Live site code := by
  intro c hc
  cases keepDims with
  | false => exact h c hc
  | true =>
    rcases mem_of_mem_weave hc with hc | hc
    · obtain ⟨_, _, rfl⟩ := List.mem_map.1 hc
      trivial
    · exact h c hc

theorem reduceBody_ok (hg : g.WellFormed) (hn : g.node? id = some ⟨.reduce op x axes keepDims, shape⟩)
    (hsize : Shape.size (g.shapeAt id) < 9223372036854775808) (hsize' : Shape.size (g.shapeAt x) < 9223372036854775808)
    {element : ElementEmitter} (helement : EmitsElement g false x (element x)) {l : Lowering} {nodes : List Nat}
    (hs : Sound g l nodes) :
    ∃ d l' nodes', (reduceBody element (g.shapeAt x) (g.shapeAt id) op x axes keepDims).runOn {} l = .ok (((), d), l') ∧
      BodyOk g id l nodes d l' nodes' := by
  obtain ⟨hsorted, hshape⟩ : Shape.SortedAxes axes (g.shapeAt x).length ∧ shape = Shape.reduced axes keepDims (g.shapeAt x) :=
    hg.fits hn
  have hid : g.shapeAt id = Shape.reduced axes keepDims (g.shapeAt x) := by rw [Graph.shapeAt_of_node? hn, hshape]
  have hpos := hg.shapeAt_positive x
  have houter := map_fst_outerLoops axes keepDims (g.shapeAt x)
  have hinner := map_fst_innerLoops hsorted
  rw [← hid] at houter
  have hfolds := foldsTo_reduce hg hn
  have hterm : EmitsTerm g (Shape.outside axes 0 (g.shapeAt x)) (Shape.inside axes 0 (g.shapeAt x))
      (fun os is => element x (weave axes 0 (g.shapeAt x).length is os))
      (fun A leaves os is => g.element A.toAlgebra leaves x (weave axes 0 (g.shapeAt x).length is os)) :=
    emitsTerm_reduce helement
  rw [← houter, ← hinner] at hfolds hterm
  rw [reduceBody_eq (Shape.rowMajorStrides_eq_ok (hg.shapeAt_positive id) (Nat.lt_trans hsize (by decide)))]
  refine foldBody_ok hg hsize _ _ ?_ ?_ (fun r hr => ?_) hfolds hterm live_spread (fun _ h => indexIs_spread h) hs
  · rw [houter, hid]
    exact map_snd_outerLoops axes keepDims (g.shapeAt x)
  · intro hnil
    have hlen := hsorted.length_inside rfl
    rw [← hinner, hnil] at hlen
    exact hsorted.ne_nil (List.eq_nil_of_length_eq_zero hlen.symm)
  · have hmem : r.1 ∈ g.shapeAt x := by
      rcases List.mem_append.1 hr with hr | hr
      · exact Shape.mem_of_mem_outside (houter ▸ List.mem_map_of_mem hr)
      · exact Shape.mem_of_mem_inside (hinner ▸ List.mem_map_of_mem hr)
    exact ⟨hpos r.1 hmem, Nat.le_of_lt (Nat.lt_of_le_of_lt (hpos.le_size hmem) hsize')⟩

end

/-! ## Matrix products -/

section
variable {g : Graph} {id lhs rhs : Nat} {shape : Shape}

/-- The product of the elements at row `i`, column `j` and inner index `p`. -/
def productTerm (element : ElementEmitter) (lhsShape rhsShape : Shape) (lhs rhs : Nat) (os is : List Coord) :
    BodyM ValueId :=
  match os, is with
  | [i, j], [p] => do
    let left ← element lhs (if lhsShape.length = 2 then [i, p] else [p])
    let right ← element rhs (if rhsShape.length = 2 then [p, j] else [p])
    instr (.binary .mul left right)
  | _, _ => throw .rank

theorem closeLoops_one : closeLoops 1 = closeLoop := by
  show (closeLoop >>= fun _ => pure ()) = closeLoop
  exact bind_pure _

theorem matmulBody_eq {element : ElementEmitter} {lhsShape rhsShape output : Shape} {a b : Shape.Matrix}
    (h : Shape.matrices lhsShape rhsShape = .ok (a, b)) :
    matmulBody element lhsShape rhsShape output lhs rhs =
      foldBody [(a.rows, b.cols), (b.cols, 1)] [(a.cols, 0)] .sum (productTerm element lhsShape rhsShape lhs rhs)
        (fun os => os) output := by
  unfold matmulBody foldBody
  rw [h]
  simp only [List.mapM_cons, List.mapM_nil, bind_assoc, pure_bind, productTerm, List.length_cons, List.length_nil,
    Nat.zero_add, closeLoops_one]
  rfl

/-- The product of two elements, as a function of row and column and of the inner index. -/
def product (g : Graph) (lhs rhs : Nat) {α : Type} (A : Arith α) (leaves : Leaves α) (os is : List Nat) : α :=
  A.binary .mul
    (g.element A.toAlgebra leaves lhs (if (g.shapeAt lhs).length = 1 then [is.headD 0] else [os.headD 0, is.headD 0]))
    (g.element A.toAlgebra leaves rhs
      (if (g.shapeAt rhs).length = 1 then [is.headD 0] else [is.headD 0, (os.drop 1).headD 0]))

theorem indices_one (n : Nat) : Shape.indices [n] = (List.range n).map fun p => [p] := by
  simp [Shape.indices, List.map_eq_flatMap]

theorem foldsTo_matmul (hg : g.WellFormed) (hn : g.node? id = some ⟨.matmul lhs rhs, shape⟩) {a b : Shape.Matrix}
    (ha : Shape.rowMatrix? (g.shapeAt lhs) = some a) (hshape : shape = [a.rows, b.cols]) (hpos : 0 < a.cols) :
    FoldsTo g id [a.rows, b.cols] [a.cols] .sum (product g lhs rhs) (fun os => os) := by
  have hid : g.shapeAt id = [a.rows, b.cols] := by rw [Graph.shapeAt_of_node? hn, hshape]
  refine ⟨by rw [hid], by simpa [Shape.Positive] using hpos, fun hm => ?_, fun hm => ?_, fun hm α A leaves => ?_⟩
  · rwa [hid]
  · rw [hid]
  · rw [hg.element_eq, Graph.elementStep, hn, indices_one, List.map_map]
    simp only [ha, Option.elim_some]
    rfl

/-- The index of a left operand, a vector or a matrix. -/
theorem left_index {s : Shape} {a : Shape.Matrix} (h : Shape.rowMatrix? s = some a) {i p : Nat} (hi : i < a.rows)
    (hp : p < a.cols) : Shape.Mem (if s.length = 1 then [p] else [i, p]) s ∧
      (if s.length = 2 then [i, p] else [p]) = if s.length = 1 then [p] else [i, p] := by
  rcases Shape.rowMatrix?_eq_some h with ⟨rfl, -⟩ | rfl
  · exact ⟨⟨hp, trivial⟩, rfl⟩
  · exact ⟨⟨hi, hp, trivial⟩, rfl⟩

theorem right_index {s : Shape} {b : Shape.Matrix} (h : Shape.colMatrix? s = some b) {p j : Nat} (hp : p < b.rows)
    (hj : j < b.cols) : Shape.Mem (if s.length = 1 then [p] else [p, j]) s ∧
      (if s.length = 2 then [p, j] else [p]) = if s.length = 1 then [p] else [p, j] := by
  rcases Shape.colMatrix?_eq_some h with ⟨rfl, -⟩ | rfl
  · exact ⟨⟨hp, trivial⟩, rfl⟩
  · exact ⟨⟨hp, hj, trivial⟩, rfl⟩

/-- The coordinates of an operand of a product are among those of the loops. -/
theorem length_operand_index {β : Type} {s : Shape} (h : s.length = 1 ∨ s.length = 2) (x y z : β) :
    (if s.length = 2 then [x, y] else [z]).length = s.length := by
  rcases h with h | h <;> simp [h]

theorem live_operand_index {site : Site} {code : List Instr} {P : Prop} [Decidable P] {x y z : Coord} (hx : x.Live site code)
    (hy : y.Live site code) (hz : z.Live site code) : ∀ c ∈ (if P then [x, y] else [z]), c.Live site code := by
  intro c hc
  split at hc <;> simp only [List.mem_cons, List.not_mem_nil, or_false] at hc
  · rcases hc with rfl | rfl
    · exact hx
    · exact hy
  · exact hc ▸ hz

theorem indexIs_operand_index {α : Type} {s : Frame α} {P : Prop} [Decidable P] {x y z : Coord} {i j k : Nat} (hx : x.Is s i)
    (hy : y.Is s j) (hz : z.Is s k) : IndexIs s (if P then [x, y] else [z]) (if P then [i, j] else [k]) := by
  split
  · exact .cons hx (.cons hy .nil)
  · exact .cons hz .nil

theorem emitsTerm_matmul {a b : Shape.Matrix} (ha : Shape.rowMatrix? (g.shapeAt lhs) = some a)
    (hb : Shape.colMatrix? (g.shapeAt rhs) = some b) (hab : a.cols = b.rows) {element : ElementEmitter}
    (hlhs : EmitsElement g false lhs (element lhs)) (hrhs : EmitsElement g false rhs (element rhs)) :
    EmitsTerm g [a.rows, b.cols] [a.cols] (productTerm element (g.shapeAt lhs) (g.shapeAt rhs) lhs rhs)
      (product g lhs rhs) := by
  intro site d l nodes os is hs hd hos his hlo hli
  obtain ⟨i, j, rfl⟩ := List.length_eq_two.1 hlo
  obtain ⟨p, rfl⟩ := List.length_eq_one_iff.1 hli
  have hi := hos i (by simp)
  have hj := hos j (by simp)
  have hp := his p (by simp)
  have hrankl : (g.shapeAt lhs).length = 1 ∨ (g.shapeAt lhs).length = 2 := by
    rcases Shape.rowMatrix?_eq_some ha with ⟨h, -⟩ | h <;> simp [h]
  have hrankr : (g.shapeAt rhs).length = 1 ∨ (g.shapeAt rhs).length = 2 := by
    rcases Shape.colMatrix?_eq_some hb with ⟨h, -⟩ | h <;> simp [h]
  obtain ⟨u, d₁, l₁, nodes₁, hrun₁, e₁⟩ := hlhs hs hd (live_operand_index hi hp hp) (length_operand_index hrankl i p p)
  have hlive₂ : ∀ c ∈ (if (g.shapeAt rhs).length = 2 then [p, j] else [p]), c.Live site d.code :=
    live_operand_index hp hj hp
  obtain ⟨v, d₂, l₂, nodes₂, hrun₂, e₂⟩ := hrhs e₁.sound e₁.ok (fun c hc => (hlive₂ c hc).grows e₁.code)
    (length_operand_index hrankr p j p)
  obtain ⟨hprogress, hruns⟩ := e₁.combine e₂ .mul hlive₂
  refine ⟨_, _, l₂, nodes₂, ?_, hprogress, Site.live_last e₂.ok.base rfl, ?_⟩
  · unfold productTerm
    rw [runOn_bind_ok hrun₁, runOn_bind_ok hrun₂, runOn_instr]
  · intro α A leaves w s os' is' hready hknows hos' his' hmo hmi
    rcases hos' with _ | ⟨hi', _ | ⟨hj', _ | _⟩⟩
    rcases his' with _ | ⟨hp', _ | _⟩
    obtain ⟨hml, heql⟩ := left_index ha hmo.1 hmi.1
    obtain ⟨hmr, heqr⟩ := right_index hb (hab ▸ hmi.1) hmo.2.1
    obtain ⟨s', hran, -, hv⟩ := hruns A leaves w .all s _ _ ⟨Access.closed_all g l, fun _ => rfl⟩ hready hknows
      (heql ▸ indexIs_operand_index hi' hp' hp') hml trivial (heqr ▸ indexIs_operand_index hp' hj' hp') hmr trivial
    exact ⟨s', hran, hv⟩

theorem matmulBody_ok (hg : g.WellFormed) (hn : g.node? id = some ⟨.matmul lhs rhs, shape⟩)
    (hsize : Shape.size (g.shapeAt id) < 9223372036854775808) (hsize' : Shape.size (g.shapeAt lhs) < 9223372036854775808)
    {element : ElementEmitter} (hlhs : EmitsElement g false lhs (element lhs))
    (hrhs : EmitsElement g false rhs (element rhs)) {l : Lowering} {nodes : List Nat} (hs : Sound g l nodes) :
    ∃ d l' nodes', (matmulBody element (g.shapeAt lhs) (g.shapeAt rhs) (g.shapeAt id) lhs rhs).runOn {} l =
      .ok (((), d), l') ∧ BodyOk g id l nodes d l' nodes' := by
  obtain ⟨a, b, ha, hb, hab, hshape⟩ := Shape.matmul_eq_ok.1 (hg.fits hn)
  have hid : g.shapeAt id = [a.rows, b.cols] := by rw [Graph.shapeAt_of_node? hn, hshape]
  have hpos := hg.shapeAt_positive id
  have hposl := hg.shapeAt_positive lhs
  have hcols : a.cols ∈ g.shapeAt lhs := by
    rcases Shape.rowMatrix?_eq_some ha with ⟨h, -⟩ | h <;> simp [h]
  have hfolds := foldsTo_matmul hg hn ha hshape (hposl _ hcols)
  have hterm : EmitsTerm g [a.rows, b.cols] [a.cols] (productTerm element (g.shapeAt lhs) (g.shapeAt rhs) lhs rhs)
      (product g lhs rhs) := emitsTerm_matmul ha hb hab hlhs hrhs
  rw [matmulBody_eq (Shape.matrices_eq_ok.2 ⟨ha, hb⟩)]
  refine foldBody_ok hg hsize [(a.rows, b.cols), (b.cols, 1)] [(a.cols, 0)] (by simp [Shape.strides, Shape.size]) (by simp)
    (fun r hr => ?_) hfolds hterm (fun h => h) (fun _ h => h) hs
  have hbound : ∀ {s : Shape}, s.Positive → Shape.size s < 9223372036854775808 → ∀ {d}, d ∈ s →
      0 < d ∧ d ≤ 9223372036854775808 := fun hs hlt _ hd =>
    ⟨hs _ hd, Nat.le_of_lt (Nat.lt_of_le_of_lt (hs.le_size hd) hlt)⟩
  simp only [List.cons_append, List.nil_append, List.mem_cons, List.not_mem_nil, or_false] at hr
  rcases hr with rfl | rfl | rfl
  · exact hbound hpos hsize (by simp [hid])
  · exact hbound hpos hsize (by simp [hid])
  · exact hbound hposl hsize' hcols

end

end Lowering

end TensorLoom
