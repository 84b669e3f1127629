import Mathlib.Data.List.Basic
import TensorLoom.Shape.Basic
/-
# Row-major order

`offset` and `indexOf` are inverse to each other between the index vectors of a shape and
the numbers below its size, and `indices` lists the index vectors by their offset
(`indices_eq_map_indexOf`). In words nothing is lost as long as the size fits
(`elementCount_eq_ok`, `rowMajorStrides_eq_ok`).
-/

namespace TensorLoom.Shape

/-- Every extent is positive: the shapes that tensors have. -/
def Positive (s : Shape) : Prop := ∀ d ∈ s, 0 < d

instance (s : Shape) : Decidable s.Positive := inferInstanceAs (Decidable (∀ d ∈ s, 0 < d))

theorem positive_nil : Positive [] := by simp [Positive]

theorem positive_cons {d : Nat} {s : Shape} : Positive (d :: s) ↔ 0 < d ∧ Positive s := by
  simp [Positive]

theorem size_pos {s : Shape} (h : s.Positive) : 0 < size s := by
  induction s with
  | nil => simp [size]
  | cons d s ih =>
    obtain ⟨hd, hs⟩ := positive_cons.1 h
    exact Nat.mul_pos hd (ih hs)

/-- No extent is larger than the whole. -/
theorem Positive.le_size {s : Shape} (h : s.Positive) {d : Nat} (hd : d ∈ s) : d ≤ size s := by
  induction s with
  | nil => cases hd
  | cons e s ih =>
    obtain ⟨he, hs⟩ := positive_cons.1 h
    rcases List.mem_cons.1 hd with rfl | hd
    · exact Nat.le_mul_of_pos_right _ (size_pos hs)
    · exact Nat.le_trans (ih hs hd) (Nat.le_mul_of_pos_left _ he)

theorem Mem.length_eq {idx : List Nat} {s : Shape} (h : Mem idx s) : idx.length = s.length := by
  fun_induction Mem idx s with
  | case1 => rfl
  | case2 i idx d s ih => simp [ih h.2]
  | case3 => simp at h

/-- A row and a place in it are found again from their number. -/
theorem row_and_place {i n k : Nat} (h : k < n) : (i * n + k) / n = i ∧ (i * n + k) % n = k := by
  have hn : 0 < n := by omega
  rw [Nat.add_comm]
  exact ⟨by rw [Nat.add_mul_div_right _ _ hn, Nat.div_eq_of_lt h, Nat.zero_add],
    by rw [Nat.add_mul_mod_self_right, Nat.mod_eq_of_lt h]⟩

/-! ## Offsets and index vectors -/

theorem offset_lt {idx : List Nat} {s : Shape} (h : Mem idx s) : offset idx s < size s := by
  fun_induction Mem idx s with
  | case1 => simp [offset, size]
  | case2 i idx d s ih =>
    obtain ⟨hi, hs⟩ := h
    calc i * size s + offset idx s < i * size s + size s := by have := ih hs; omega
      _ = (i + 1) * size s := by rw [Nat.succ_mul]
      _ ≤ d * size s := Nat.mul_le_mul_right _ hi
  | case3 => simp at h

theorem mem_indexOf {s : Shape} {k : Nat} (h : k < size s) : Mem (indexOf s k) s := by
  induction s generalizing k with
  | nil => trivial
  | cons d s ih =>
    have hd : 0 < d := by
      rcases Nat.eq_zero_or_pos d with rfl | hd
      · simp [size] at h
      · exact hd
    have hs : 0 < size s := by
      rcases Nat.eq_zero_or_pos (size s) with hs | hs
      · simp [size, hs] at h
      · exact hs
    exact ⟨Nat.mod_lt _ hd, ih (Nat.mod_lt _ hs)⟩

theorem offset_indexOf {s : Shape} {k : Nat} (h : k < size s) : offset (indexOf s k) s = k := by
  induction s generalizing k with
  | nil =>
    have hk : k < 1 := h
    simp only [offset, indexOf]
    omega
  | cons d s ih =>
    have hs : 0 < size s := by
      rcases Nat.eq_zero_or_pos (size s) with hs | hs
      · simp [size, hs] at h
      · exact hs
    have hlt : k / size s < d := by
      rw [Nat.div_lt_iff_lt_mul hs]; exact h
    simp only [indexOf, offset, Nat.mod_eq_of_lt hlt, ih (Nat.mod_lt _ hs)]
    rw [Nat.mul_comm]
    exact Nat.div_add_mod k (size s)

theorem indexOf_offset {idx : List Nat} {s : Shape} (h : Mem idx s) : indexOf s (offset idx s) = idx := by
  fun_induction Mem idx s with
  | case1 => rfl
  | case2 i idx d s ih =>
    obtain ⟨hi, hs⟩ := h
    obtain ⟨hq, hr⟩ := row_and_place (i := i) (offset_lt hs)
    simp only [indexOf, offset, hq, hr, Nat.mod_eq_of_lt hi, ih hs]
  | case3 => simp at h

theorem offset_inj {i j : List Nat} {s : Shape} (hi : Mem i s) (hj : Mem j s)
    (h : offset i s = offset j s) : i = j := by
  rw [← indexOf_offset hi, ← indexOf_offset hj, h]

/-! ## The list of all index vectors -/

theorem range_mul (d n : Nat) :
    List.range (d * n) = (List.range d).flatMap fun i => (List.range n).map (i * n + ·) := by
  induction d with
  | zero => simp
  | succ d ih => simp [Nat.succ_mul, List.range_add, List.range_succ, List.flatMap_append, ih]

/-- The index vectors are listed by their offset. -/
theorem indices_eq_map_indexOf {s : Shape} (h : s.Positive) :
    indices s = (List.range (size s)).map (indexOf s) := by
  induction s with
  | nil => rfl
  | cons d s ih =>
    obtain ⟨_, hs⟩ := positive_cons.1 h
    simp only [indices, size, ih hs, range_mul, List.map_flatMap, List.map_map]
    refine List.flatMap_congr fun i hi => List.map_congr_left fun k hk => ?_
    obtain ⟨hq, hr⟩ := row_and_place (i := i) (List.mem_range.1 hk)
    simp only [Function.comp_apply, indexOf, hq, hr, Nat.mod_eq_of_lt (List.mem_range.1 hi)]

theorem mem_indices {idx : List Nat} {s : Shape} : idx ∈ indices s ↔ Mem idx s := by
  induction s generalizing idx with
  | nil => cases idx <;> simp [indices, Mem]
  | cons d s ih =>
    cases idx with
    | nil => simp [indices, Mem]
    | cons i idx => simp [indices, Mem, ih]

theorem length_indices (s : Shape) : (indices s).length = size s := by
  induction s with
  | nil => rfl
  | cons d s ih =>
    simp only [indices, size, List.length_flatMap, List.length_map, ih, List.map_const', List.length_range,
      List.sum_replicate_nat]

theorem getElem?_indices {s : Shape} (h : s.Positive) {k : Nat} (hk : k < size s) :
    (indices s)[k]? = some (indexOf s k) := by
  simp [indices_eq_map_indexOf h, hk]

theorem getElem?_indices_offset {idx : List Nat} {s : Shape} (hs : s.Positive) (h : Mem idx s) :
    (indices s)[offset idx s]? = some idx := by
  rw [getElem?_indices hs (offset_lt h), indexOf_offset h]

/-! ## Sizes and strides in words -/

theorem foldlM_mul {s : Shape} (h : s.Positive) {n : Nat} (hn : n * size s < Word.limit) :
    s.foldlM Word.mul n = .ok (n * size s) := by
  induction s generalizing n with
  | nil => simp [size]; rfl
  | cons d s ih =>
    obtain ⟨hd, hs⟩ := positive_cons.1 h
    have hfit : n * d < Word.limit := by
      calc n * d ≤ n * d * size s := Nat.le_mul_of_pos_right _ (size_pos hs)
        _ = n * size (d :: s) := by rw [size, Nat.mul_assoc]
        _ < Word.limit := hn
    have hstep : Word.mul n d = .ok (n * d) := Word.mul_eq_ok.2 ⟨hfit, rfl⟩
    rw [List.foldlM_cons, hstep]
    change s.foldlM Word.mul (n * d) = _
    rw [ih hs (by rw [Nat.mul_assoc]; exact hn), Nat.mul_assoc]
    rfl

theorem elementCount_eq_ok {s : Shape} (h : s.Positive) (hn : size s < Word.limit) :
    elementCount s = .ok (size s) := by
  have := foldlM_mul h (n := 1) (by rwa [Nat.one_mul])
  rwa [Nat.one_mul] at this

theorem stridesAndSize_eq_ok {s : Shape} (h : s.Positive) (hn : size s < Word.limit) :
    stridesAndSize s = .ok (strides s, size s) := by
  induction s with
  | nil => rfl
  | cons d s ih =>
    obtain ⟨hd, hs⟩ := positive_cons.1 h
    have hle : size s ≤ size (d :: s) := Nat.le_mul_of_pos_left _ hd
    have hmul : Word.mul (size s) d = .ok (size (d :: s)) :=
      Word.mul_eq_ok.2 ⟨by rw [Nat.mul_comm]; exact hn, by rw [size, Nat.mul_comm]⟩
    rw [stridesAndSize, ih hs (by omega)]
    simp only [bind, Except.bind, hmul]
    rfl

theorem rowMajorStrides_eq_ok {s : Shape} (h : s.Positive) (hn : size s < Word.limit) :
    rowMajorStrides s = .ok (strides s) := by
  simp only [rowMajorStrides, stridesAndSize_eq_ok h hn]
  rfl

theorem length_strides (s : Shape) : (strides s).length = s.length := by
  induction s with
  | nil => rfl
  | cons d s ih => simp [strides, ih]

end TensorLoom.Shape
