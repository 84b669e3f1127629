import Mathlib.Algebra.BigOperators.Ring.Finset
import TensorLoom.Proofs.Shape.Axes
import TensorLoom.Proofs.Shape.Rearrange
/-
# Sums over the elements of a shape

A sum over all index vectors of a tensor can be taken in another shape of the same size,
along another order of the axes, or in two steps: over the elements of a reduced or
unstretched tensor, and for each over the index vectors that fall on it.
-/

namespace TensorLoom.Shape

/-- The index vectors of a shape. -/
def box (s : Shape) : Finset (List Nat) := (indices s).toFinset

@[simp] theorem mem_box {idx : List Nat} {s : Shape} : idx ∈ box s ↔ Mem idx s := by
  rw [box, List.mem_toFinset, mem_indices]

theorem nodup_indices (s : Shape) : (indices s).Nodup := by
  induction s with
  | nil => exact List.nodup_singleton _
  | cons d s ih =>
    refine List.nodup_flatMap.2 ⟨fun i _ => ih.map (List.cons_injective), ?_⟩
    refine List.nodup_range.imp fun {i j} hij => ?_
    simp only [Function.onFun, List.disjoint_left, List.mem_map]
    rintro idx ⟨is, _, rfl⟩ ⟨js, _, hjs⟩
    exact hij (List.cons.inj hjs).1.symm

section
variable {M : Type} [AddCommMonoid M] {s r : Shape}

theorem sum_map_range (n : Nat) (f : Nat → M) : ((List.range n).map f).sum = ∑ k ∈ Finset.range n, f k := by
  rw [← List.sum_toFinset f List.nodup_range]
  refine Finset.sum_congr ?_ fun _ _ => rfl
  ext k
  simp

theorem sum_indices (s : Shape) (f : List Nat → M) : ((indices s).map f).sum = ∑ i ∈ box s, f i :=
  (List.sum_toFinset f (nodup_indices s)).symm

theorem sum_filter_indices (s : Shape) (p : List Nat → Prop) [DecidablePred p] (f : List Nat → M) :
    (((indices s).filter (fun i => p i)).map f).sum = ∑ i ∈ box s with p i, f i := by
  rw [← List.sum_toFinset f ((nodup_indices s).filter _), List.toFinset_filter]
  simp only [box, decide_eq_true_eq]

/-- A sum in two steps: for every value of `c`, over the index vectors that have it. -/
theorem sum_fibers {c : List Nat → List Nat} (hc : ∀ i, Mem i s → Mem (c i) r) (f : List Nat → List Nat → M) :
    ∑ o ∈ box r, ∑ i ∈ box s with c i = o, f o i = ∑ i ∈ box s, f (c i) i := by
  have hinner : ∀ o ∈ box r, ∑ i ∈ box s with c i = o, f o i = ∑ i ∈ box s with c i = o, f (c i) i := by
    intro o _
    refine Finset.sum_congr rfl fun i hi => ?_
    rw [(Finset.mem_filter.1 hi).2]
  rw [Finset.sum_congr rfl hinner]
  exact Finset.sum_fiberwise_of_maps_to (fun i hi => mem_box.2 (hc i (mem_box.1 hi))) _

theorem sum_collapse (axes : List Nat) (keepDims : Bool) (s : Shape) (f : List Nat → List Nat → M) :
    ∑ o ∈ box (reduced axes keepDims s), ∑ i ∈ box s with collapse axes keepDims i = o, f o i =
      ∑ i ∈ box s, f (collapse axes keepDims i) i :=
  sum_fibers (fun _ => mem_collapse) f

theorem sum_restrict (h : Stretches s r) (f : List Nat → List Nat → M) :
    ∑ i ∈ box s, ∑ j ∈ box r with restrict s j = i, f i j = ∑ j ∈ box r, f (restrict s j) j :=
  sum_fibers (fun _ => h.mem_restrict) f

/-- The elements of a reshaped tensor, in either shape. -/
theorem sum_reshape (h : size r = size s) (f : List Nat → List Nat → M) :
    ∑ i ∈ box r, f i (indexOf s (offset i r)) = ∑ j ∈ box s, f (indexOf r (offset j s)) j := by
  have hthere : ∀ i, Mem i r → Mem (indexOf s (offset i r)) s ∧ indexOf r (offset (indexOf s (offset i r)) s) = i := by
    intro i hi
    have hlt : offset i r < size s := h ▸ offset_lt hi
    rw [offset_indexOf hlt]
    exact ⟨mem_indexOf hlt, indexOf_offset hi⟩
  have hback : ∀ j, Mem j s → Mem (indexOf r (offset j s)) r ∧ indexOf s (offset (indexOf r (offset j s)) r) = j := by
    intro j hj
    have hlt : offset j s < size r := h ▸ offset_lt hj
    rw [offset_indexOf hlt]
    exact ⟨mem_indexOf hlt, indexOf_offset hj⟩
  refine Finset.sum_nbij' (fun i => indexOf s (offset i r)) (fun j => indexOf r (offset j s)) ?_ ?_ ?_ ?_ ?_
  · exact fun i hi => mem_box.2 (hthere i (mem_box.1 hi)).1
  · exact fun j hj => mem_box.2 (hback j (mem_box.1 hj)).1
  · exact fun i hi => (hthere i (mem_box.1 hi)).2
  · exact fun j hj => (hback j (mem_box.1 hj)).2
  · intro i hi
    simp only [(hthere i (mem_box.1 hi)).2]

/-- Over the outermost axis first. -/
theorem sum_box_cons (d : Nat) (s : Shape) (f : List Nat → M) :
    ∑ i ∈ box (d :: s), f i = ∑ k ∈ Finset.range d, ∑ i ∈ box s, f (k :: i) := by
  rw [← sum_indices, indices, List.map_flatMap, List.flatMap_def, List.sum_flatten]
  rw [← sum_map_range]
  simp only [← sum_indices, List.map_map, Function.comp_def]

theorem sum_box_nil (f : List Nat → M) : ∑ i ∈ box [], f i = f [] := by
  rw [← sum_indices]
  simp [indices]

/-- Over the rows and columns of a matrix. -/
theorem sum_box_matrix (m n : Nat) (f : List Nat → M) :
    ∑ i ∈ box [m, n], f i = ∑ k ∈ Finset.range m, ∑ l ∈ Finset.range n, f [k, l] := by
  simp only [sum_box_cons, sum_box_nil]

end

/-! ## Inverse permutations -/

/-- Each permutation lists at `a` the position of `a` in the other. -/
structure Inverse (rank : Nat) (perm inv : List Nat) : Prop where
  left : IsPerm rank perm
  right : IsPerm rank inv
  getElem? : ∀ a < rank, inv[a]? = some (perm.idxOf a)

section
variable {rank : Nat} {perm inv : List Nat}

theorem Inverse.idxOf (h : Inverse rank perm inv) {a : Nat} (ha : a < rank) : inv.idxOf (perm.idxOf a) = a :=
  h.right.idxOf_getElem (h.getElem? a ha)

theorem Inverse.symm (h : Inverse rank perm inv) : Inverse rank inv perm := by
  refine ⟨h.right, h.left, fun b hb => ?_⟩
  obtain ⟨a, ha⟩ : ∃ a, perm[b]? = some a := ⟨_, List.getElem?_eq_getElem (h.left.1 ▸ hb)⟩
  have hlt : a < rank := h.left.2.2 a (List.mem_of_getElem? ha)
  rw [ha, ← h.left.idxOf_getElem ha, h.idxOf hlt]

theorem inversePermutation_eq_ok (h : IsPerm rank perm) :
    ∃ inv, inversePermutation perm = .ok inv ∧ Inverse rank perm inv := by
  have hlen : (List.range rank).length = rank := List.length_range
  obtain ⟨inv, hrun, hinv, hget⟩ := permuteIndex_eq_ok h 0 hlen
  have hget : ∀ a < rank, inv[a]? = some (perm.idxOf a) := by
    intro a ha
    rw [hget a ha, List.getElem?_range (h.idxOf_lt ha)]
  have hmap : inv = (List.range rank).map perm.idxOf := by
    refine List.ext_getElem? fun a => ?_
    by_cases ha : a < rank
    · rw [hget a ha, List.getElem?_map, List.getElem?_range ha]
      rfl
    · rw [List.getElem?_eq_none (by omega), List.getElem?_eq_none (by rw [List.length_map, hlen]; omega)]
  refine ⟨inv, ?_, h, ⟨hinv, ?_, fun b hb => ?_⟩, hget⟩
  · -- writing positions is permuting the list of positions
    have hall : perm.all (· < perm.length) = true := by
      rw [List.all_eq_true]
      intro a ha
      simpa [h.1] using h.2.2 a ha
    unfold Lowering.permuteIndex at hrun
    split at hrun
    · cases hrun
    · rw [inversePermutation, if_pos hall, List.zipIdx_eq_zip_range', ← List.range_eq_range', h.1]
      rwa [h.1] at hrun
  · rw [hmap]
    refine List.nodup_range.map_on fun a ha b hb hab => ?_
    exact (List.idxOf_inj (h.mem (List.mem_range.1 ha))).1 hab
  · rw [hmap] at hb
    obtain ⟨a, ha, rfl⟩ := List.mem_map.1 hb
    exact h.idxOf_lt (List.mem_range.1 ha)

theorem length_unpermute (perm idx : List Nat) : (unpermute perm idx).length = perm.length := by
  simp [unpermute]

theorem Inverse.unpermute_unpermute (h : Inverse rank perm inv) {idx : List Nat} (hl : idx.length = rank) :
    unpermute inv (unpermute perm idx) = idx := by
  have hlen : (unpermute perm idx).length = rank := by rw [length_unpermute, h.left.1]
  refine List.ext_getElem? fun b => ?_
  by_cases hb : b < rank
  · have hlt := h.right.idxOf_lt hb
    rw [getElem?_unpermute h.right hlen hb, getElem?_unpermute h.left hl hlt, h.symm.idxOf hb]
  · rw [List.getElem?_eq_none, List.getElem?_eq_none]
    · omega
    · rw [length_unpermute, h.right.1]
      omega

/-- Permuting by the inverse restores the shape. -/
theorem Inverse.permute {input out : Shape} (h : Inverse input.length perm inv) (hp : permute input perm = .ok out) :
    Shape.permute out inv = .ok input := by
  obtain ⟨_, rfl⟩ := permute_eq_ok.1 hp
  have hlen : (perm.filterMap (input[·]?)).length = input.length := by
    rw [length_filterMap_getElem? h.left.2.2, h.left.1]
  refine permute_eq_ok.2 ⟨hlen ▸ h.right, List.ext_getElem? fun a => ?_⟩
  rw [filterMap_getElem? (hlen ▸ h.right.2.2)]
  by_cases ha : a < input.length
  · rw [h.getElem? a ha, Option.bind_some, filterMap_getElem? h.left.2.2, h.left.getElem?_idxOf ha, Option.bind_some]
  · rw [List.getElem?_eq_none (by omega), List.getElem?_eq_none (by rw [h.right.1]; omega), Option.bind_none]

/-- The elements of a permuted tensor, in either order of the axes. -/
theorem Inverse.sum_permute {M : Type} [AddCommMonoid M] {input out : Shape} (h : Inverse input.length perm inv)
    (hp : Shape.permute input perm = .ok out) (f : List Nat → List Nat → M) :
    ∑ i ∈ box out, f i (unpermute perm i) = ∑ j ∈ box input, f (unpermute inv j) j := by
  have hlen : out.length = input.length := by
    rw [(permute_eq_ok.1 hp).2, length_filterMap_getElem? h.left.2.2, h.left.1]
  have hback := h.permute hp
  refine Finset.sum_nbij' (unpermute perm) (unpermute inv) ?_ ?_ ?_ ?_ ?_
  · exact fun i hi => mem_box.2 (mem_unpermute hp (mem_box.1 hi))
  · exact fun j hj => mem_box.2 (mem_unpermute hback (mem_box.1 hj))
  · exact fun i hi => h.unpermute_unpermute ((mem_box.1 hi).length_eq.trans hlen)
  · exact fun j hj => h.symm.unpermute_unpermute (mem_box.1 hj).length_eq
  · intro i hi
    rw [h.unpermute_unpermute ((mem_box.1 hi).length_eq.trans hlen)]

end

/-! ## Matrices -/

/-- Where a left operand of a product holds an entry of its matrix. -/
def rowIndex (s : Shape) (k p : Nat) : List Nat := if s.length = 1 then [p] else [k, p]

/-- Where a right operand of a product holds an entry of its matrix. -/
def colIndex (s : Shape) (p l : Nat) : List Nat := if s.length = 1 then [p] else [p, l]

theorem rowIndex_spec {s : Shape} {a : Matrix} (h : rowMatrix? s = some a) {k p : Nat} (hk : k < a.rows)
    (hp : p < a.cols) : Mem (rowIndex s k p) s ∧ offset (rowIndex s k p) s = offset [k, p] a.shape := by
  rcases rowMatrix?_eq_some h with ⟨hs, hrows⟩ | hs
  · have hzero : k = 0 := by omega
    simp [hs, rowIndex, Mem, offset, Matrix.shape, hp, hzero, size]
  · simp [hs, rowIndex, Mem, offset, Matrix.shape, hk, hp]

theorem colIndex_spec {s : Shape} {b : Matrix} (h : colMatrix? s = some b) {p l : Nat} (hp : p < b.rows)
    (hl : l < b.cols) : Mem (colIndex s p l) s ∧ offset (colIndex s p l) s = offset [p, l] b.shape := by
  rcases colMatrix?_eq_some h with ⟨hs, hcols⟩ | hs
  · have hzero : l = 0 := by omega
    simp [hs, colIndex, Mem, offset, Matrix.shape, hp, hzero, hcols, size]
  · simp [hs, colIndex, Mem, offset, Matrix.shape, hp, hl]

theorem size_rowMatrix {s : Shape} {a : Matrix} (h : rowMatrix? s = some a) : size a.shape = size s := by
  rcases rowMatrix?_eq_some h with ⟨hs, hrows⟩ | hs
  · simp [hs, hrows, Matrix.shape, size]
  · rw [hs, Matrix.shape]

theorem size_colMatrix {s : Shape} {b : Matrix} (h : colMatrix? s = some b) : size b.shape = size s := by
  rcases colMatrix?_eq_some h with ⟨hs, hcols⟩ | hs
  · simp [hs, hcols, Matrix.shape, size]
  · rw [hs, Matrix.shape]

section
variable {M : Type} [AddCommMonoid M] {s : Shape}

theorem sum_rowMatrix {a : Matrix} (h : rowMatrix? s = some a) (f : List Nat → M) :
    ∑ i ∈ box s, f i = ∑ k ∈ Finset.range a.rows, ∑ p ∈ Finset.range a.cols, f (rowIndex s k p) := by
  rcases rowMatrix?_eq_some h with ⟨hs, hrows⟩ | hs
  · rw [hrows, Finset.sum_range_one]
    simp [hs, rowIndex, sum_box_cons, sum_box_nil]
  · simp [hs, rowIndex, sum_box_cons, sum_box_nil]

theorem sum_colMatrix {b : Matrix} (h : colMatrix? s = some b) (f : List Nat → M) :
    ∑ i ∈ box s, f i = ∑ p ∈ Finset.range b.rows, ∑ l ∈ Finset.range b.cols, f (colIndex s p l) := by
  rcases colMatrix?_eq_some h with ⟨hs, hcols⟩ | hs
  · simp only [hcols, Finset.sum_range_one]
    simp [hs, colIndex, sum_box_cons, sum_box_nil]
  · simp [hs, colIndex, sum_box_cons, sum_box_nil]

end

end TensorLoom.Shape
