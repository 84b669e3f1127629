import Mathlib.Data.List.Perm.Subperm
import TensorLoom.Lowering.Index
import TensorLoom.Proofs.Shape.Stretch
/-
# Permutations and matrices

A permutation of the axes moves coordinates without losing one: the index vectors that
`permuteIndex` and `unpermute` give agree (`permuteIndex_eq_ok`) and lie in the shape
that is permuted (`mem_unpermute`). Operands of a matrix product are vectors or matrices.
-/

namespace TensorLoom.Shape

variable {perm : List Nat}

/-! ## Permutations -/

theorem permute_eq_ok {input out : Shape} :
    permute input perm = .ok out ↔ IsPerm input.length perm ∧ out = perm.filterMap (input[·]?) := by
  unfold permute
  split
  · rename_i h; simp [h, eq_comm]
  · rename_i h; simp [h]

theorem filterMap_getElem? {β : Type} {xs : List β} {as : List Nat} (h : ∀ a ∈ as, a < xs.length) (j : Nat) :
    (as.filterMap (xs[·]?))[j]? = as[j]?.bind (xs[·]?) := by
  induction as generalizing j with
  | nil => rfl
  | cons a as ih =>
    have ha : a < xs.length := h a (by simp)
    rw [List.filterMap_cons, List.getElem?_eq_getElem ha]
    cases j with
    | zero => simp [List.getElem?_eq_getElem ha]
    | succ j => simpa using ih (fun b hb => h b (List.mem_cons_of_mem _ hb)) j

theorem length_filterMap_getElem? {β : Type} {xs : List β} {as : List Nat} (h : ∀ a ∈ as, a < xs.length) :
    (as.filterMap (xs[·]?)).length = as.length := by
  rw [List.filterMap_length_eq_length.2]
  intro a ha
  simp [h a ha]

theorem permute_positive {input out : Shape} (h : permute input perm = .ok out) (hp : input.Positive) :
    out.Positive := by
  obtain ⟨-, rfl⟩ := permute_eq_ok.1 h
  intro d hd
  obtain ⟨a, -, ha⟩ := List.mem_filterMap.1 hd
  exact hp d (List.mem_of_getElem? ha)

namespace IsPerm

variable {rank : Nat}

theorem mem (h : IsPerm rank perm) {a : Nat} (ha : a < rank) : a ∈ perm := by
  have hsub : perm ⊆ List.range rank := fun b hb => List.mem_range.2 (h.2.2 b hb)
  have hperm : perm.Perm (List.range rank) :=
    (List.subperm_of_subset h.2.1 hsub).perm_of_length_le (by simp [h.1])
  exact hperm.mem_iff.2 (List.mem_range.2 ha)

theorem perm_range (h : IsPerm rank perm) : perm.Perm (List.range rank) := by
  have hsub : perm ⊆ List.range rank := fun a ha => List.mem_range.2 (h.2.2 a ha)
  refine (List.subperm_of_subset h.2.1 hsub).perm_of_length_le (Nat.le_of_eq ?_)
  rw [List.length_range, h.1]

theorem idxOf_lt (h : IsPerm rank perm) {a : Nat} (ha : a < rank) : perm.idxOf a < rank := by
  rw [← h.1]
  exact List.idxOf_lt_length_iff.2 (h.mem ha)

theorem getElem?_idxOf (h : IsPerm rank perm) {a : Nat} (ha : a < rank) : perm[perm.idxOf a]? = some a :=
  List.getElem?_idxOf (h.mem ha)

theorem idxOf_getElem (h : IsPerm rank perm) {j a : Nat} (hj : perm[j]? = some a) : perm.idxOf a = j := by
  obtain ⟨hlt, rfl⟩ := List.getElem?_eq_some_iff.1 hj
  exact h.2.1.idxOf_getElem j hlt

end IsPerm

theorem mem_iff_getElem? {idx : List Nat} {s : Shape} :
    Mem idx s ↔ idx.length = s.length ∧ ∀ (j i d : Nat), idx[j]? = some i → s[j]? = some d → i < d := by
  constructor
  · intro h
    refine ⟨h.length_eq, ?_⟩
    fun_induction Mem idx s with
    | case1 => simp
    | case2 i idx d s ih =>
      intro j i' d' hi hd
      cases j with
      | zero =>
        simp only [List.getElem?_cons_zero, Option.some.injEq] at hi hd
        subst hi hd
        exact h.1
      | succ j => exact ih h.2 j i' d' (by simpa using hi) (by simpa using hd)
    | case3 => simp at h
  · rintro ⟨hlen, h⟩
    induction idx generalizing s with
    | nil =>
      cases s with
      | nil => trivial
      | cons d s => simp at hlen
    | cons i idx ih =>
      cases s with
      | nil => simp at hlen
      | cons d s =>
        exact ⟨h 0 i d rfl rfl, ih (by simpa using hlen) fun j i' d' hi hd =>
          h (j + 1) i' d' (by simpa using hi) (by simpa using hd)⟩

theorem getElem?_unpermute {rank : Nat} (h : IsPerm rank perm) {idx : List Nat} (hl : idx.length = rank) {a : Nat}
    (ha : a < rank) : (unpermute perm idx)[a]? = idx[perm.idxOf a]? := by
  have hi : perm.idxOf a < idx.length := by rw [hl]; exact h.idxOf_lt ha
  simp [unpermute, h.1, ha, List.getElem?_eq_getElem hi]

/-- An index of the permuted tensor is read at an index of the tensor itself. -/
theorem mem_unpermute {input out : Shape} (h : permute input perm = .ok out) {idx : List Nat} (hm : Mem idx out) :
    Mem (unpermute perm idx) input := by
  obtain ⟨hp, rfl⟩ := permute_eq_ok.1 h
  have hlt : ∀ a ∈ perm, a < input.length := hp.2.2
  have hl : idx.length = input.length := by
    rw [hm.length_eq, length_filterMap_getElem? hlt, hp.1]
  rw [mem_iff_getElem?] at hm ⊢
  refine ⟨by simp [unpermute, hp.1], fun a i d hi hd => ?_⟩
  have ha : a < input.length := (List.getElem?_eq_some_iff.1 hd).1
  rw [getElem?_unpermute hp hl ha] at hi
  refine hm.2 _ i d hi ?_
  rw [filterMap_getElem? hlt, hp.getElem?_idxOf ha]
  exact hd

theorem foldl_set_getElem? {β : Type} (ps : List (Nat × β)) (acc : List β) (hn : (ps.map (·.1)).Nodup)
    (hlt : ∀ p ∈ ps, p.1 < acc.length) (a : Nat) :
    (ps.foldl (fun acc (k, x) => acc.set k x) acc)[a]? =
      match ps.lookup a with
      | some x => some x
      | none => acc[a]? := by
  induction ps generalizing acc with
  | nil => simp
  | cons p ps ih =>
    obtain ⟨k, x⟩ := p
    obtain ⟨hk, hn⟩ := List.nodup_cons.1 (by simpa only [List.map_cons] using hn)
    rw [List.foldl_cons, ih (acc.set k x) hn (fun q hq => by simpa using hlt q (List.mem_cons_of_mem _ hq))]
    have hka : k < acc.length := hlt (k, x) (by simp)
    by_cases hak : a = k
    · subst hak
      have hnone : ps.lookup a = none := by
        rw [List.lookup_eq_none_iff]
        intro q hq
        have : q.1 ≠ a := fun e => hk (e ▸ List.mem_map_of_mem hq)
        simpa using fun e => this e.symm
      simp [hnone, hka]
    · have hb : (a == k) = false := by simpa using hak
      simp only [List.lookup_cons, hb]
      rw [List.getElem?_set_ne (Ne.symm hak)]

theorem lookup_zip {β : Type} {as : List Nat} {xs : List β} (hn : as.Nodup) (hl : as.length ≤ xs.length) (a : Nat) :
    (as.zip xs).lookup a = if a ∈ as then xs[as.idxOf a]? else none := by
  induction as generalizing xs with
  | nil => simp
  | cons b as ih =>
    cases xs with
    | nil => simp at hl
    | cons x xs =>
      obtain ⟨hb, hn⟩ := List.nodup_cons.1 hn
      have hl' : as.length ≤ xs.length := by simpa using hl
      by_cases hab : a = b
      · subst hab
        simp
      · have e : (a == b) = false := by simpa using hab
        have e' : (b == a) = false := by simpa using Ne.symm hab
        simp only [List.zip_cons_cons, List.lookup_cons, e, ih hn hl', List.mem_cons, hab, false_or,
          List.idxOf_cons, e', cond_false, List.getElem?_cons_succ]

/-- Coordinate `d` goes to axis `perm[d]`: each axis gets the coordinate of the place at
which it is listed. -/
theorem permuteIndex_eq_ok {β : Type} {rank : Nat} (h : IsPerm rank perm) (origin : β) {idx : List β}
    (hl : idx.length = rank) :
    ∃ source, Lowering.permuteIndex origin idx perm = .ok source ∧ source.length = rank ∧
      ∀ a < rank, source[a]? = idx[perm.idxOf a]? := by
  have hcheck : ¬ (idx.length < perm.length ∨ perm.any (perm.length ≤ ·)) := by
    rintro (hlt | hany)
    · have := h.1
      omega
    · obtain ⟨a, ha, hle⟩ := List.any_eq_true.1 hany
      have := h.2.2 a ha
      have hle : perm.length ≤ a := by simpa using hle
      have := h.1
      omega
  refine ⟨_, by rw [Lowering.permuteIndex, if_neg hcheck], ?_, fun a ha => ?_⟩
  · have hlen : ∀ (ps : List (Nat × β)) (acc : List β),
        (ps.foldl (fun acc (k, x) => acc.set k x) acc).length = acc.length := by
      intro ps
      induction ps with
      | nil => intro acc; rfl
      | cons p ps ih => intro acc; rw [List.foldl_cons, ih, List.length_set]
    rw [hlen, List.length_replicate, h.1]
  · have hkeys : (perm.zip idx).map (·.1) = perm := by
      rw [List.map_fst_zip (Nat.le_of_eq (by rw [h.1, hl]))]
    have hlt : ∀ p ∈ perm.zip idx, p.1 < (List.replicate perm.length origin).length := by
      intro p hp
      rw [List.length_replicate, h.1]
      exact h.2.2 _ (List.of_mem_zip hp).1
    rw [foldl_set_getElem? _ _ (by rw [hkeys]; exact h.2.1) hlt, lookup_zip h.2.1 (Nat.le_of_eq (by rw [h.1, hl])),
      if_pos (h.mem ha)]
    have hi : perm.idxOf a < idx.length := by rw [hl]; exact h.idxOf_lt ha
    rw [List.getElem?_eq_getElem hi]

/-! ## Reshapes -/

theorem foldlM_mul_eq_ok {s : Shape} {n m : Nat} (h : s.foldlM Word.mul n = .ok m) : m = n * size s := by
  induction s generalizing n with
  | nil =>
    cases h
    simp [size]
  | cons d s ih =>
    rw [List.foldlM_cons] at h
    cases hm : Word.mul n d with
    | error fault => rw [hm] at h; cases h
    | ok k =>
      rw [hm] at h
      obtain ⟨-, rfl⟩ := Word.mul_eq_ok.1 hm
      rw [ih h, size, Nat.mul_assoc]

/-- A counted size is the exact one. -/
theorem elementCount_eq_size {s : Shape} {n : Nat} (h : elementCount s = .ok n) : n = size s := by
  have := foldlM_mul_eq_ok h
  rwa [Nat.one_mul] at this

theorem validate_eq_ok_iff {s : Shape} {u : Unit} : validate s = .ok u ↔ s.Positive := by
  unfold validate
  split
  · rename_i hany
    obtain ⟨d, hd, h0⟩ := List.any_eq_true.1 hany
    have h0 : d = 0 := by simpa using h0
    exact ⟨fun h => (by cases h), fun h => absurd (h d hd) (by omega)⟩
  · rename_i hany
    refine ⟨fun _ d hd => ?_, fun _ => rfl⟩
    have : d ≠ 0 := fun e => hany (List.any_eq_true.2 ⟨d, hd, by simp [e]⟩)
    omega

/-- An answered reshape has counted both shapes, and to the same number. -/
theorem counts_of_reshape {input dims out : Shape} (h : reshape input dims = .ok (.ok out)) :
    validate dims = .ok () ∧ out = dims ∧ ∃ n, elementCount input = .ok n ∧ elementCount dims = .ok n := by
  unfold reshape at h
  cases hv : validate dims with
  | error e => simp [hv] at h
  | ok u =>
    cases hi : elementCount input with
    | error fault => simp [hv, hi, bind, Except.bind] at h
    | ok old =>
      cases hd : elementCount dims with
      | error fault => simp [hv, hi, hd, bind, Except.bind] at h
      | ok new =>
        simp only [hv, hi, hd, bind, Except.bind, pure, Except.pure, Except.ok.injEq] at h
        split at h
        · rename_i e
          cases h
          exact ⟨rfl, rfl, old, rfl, e ▸ rfl⟩
        · cases h

theorem reshape_eq_ok {input dims out : Shape} (h : reshape input dims = .ok (.ok out)) :
    dims.Positive ∧ size dims = size input ∧ out = dims := by
  obtain ⟨hv, hout, n, hi, hd⟩ := counts_of_reshape h
  exact ⟨validate_eq_ok_iff.1 hv, (elementCount_eq_size hd).symm.trans (elementCount_eq_size hi), hout⟩

/-- A shape of the right size is never refused. -/
theorem eq_ok_of_reshape {input dims : Shape} {ruled : Except ShapeError Shape} (hp : dims.Positive)
    (hsize : size dims = size input) (h : reshape input dims = .ok ruled) : ruled = .ok dims := by
  have hv : validate dims = .ok () := validate_eq_ok_iff.2 hp
  unfold reshape at h
  rw [hv] at h
  cases hi : elementCount input with
  | error fault => simp [hi, bind, Except.bind] at h
  | ok old =>
    cases hd : elementCount dims with
    | error fault => simp [hi, hd, bind, Except.bind] at h
    | ok new =>
      have hcounts : old = new := by rw [elementCount_eq_size hi, elementCount_eq_size hd, hsize]
      simp only [hi, hd, bind, Except.bind, pure, Except.pure, Except.ok.injEq, if_pos hcounts] at h
      exact h.symm

theorem reshape_of_lt {input dims : Shape} (hi : input.Positive) (hp : dims.Positive) (hsize : size dims = size input)
    (hlt : size input < Word.limit) : reshape input dims = .ok (.ok dims) := by
  have hd : elementCount dims = .ok (size input) := by
    rw [elementCount_eq_ok hp (by omega), hsize]
  have hv : validate dims = .ok () := validate_eq_ok_iff.2 hp
  simp [reshape, hv, elementCount_eq_ok hi hlt, hd, bind, Except.bind, pure, Except.pure]

/-! ## Matrices -/

theorem matrices_eq_ok {lhs rhs : Shape} {a b : Matrix} :
    matrices lhs rhs = .ok (a, b) ↔ rowMatrix? lhs = some a ∧ colMatrix? rhs = some b := by
  unfold matrices
  cases rowMatrix? lhs <;> cases colMatrix? rhs <;> simp

theorem matmul_eq_ok {lhs rhs out : Shape} :
    matmul lhs rhs = .ok out ↔
      ∃ a b, rowMatrix? lhs = some a ∧ colMatrix? rhs = some b ∧ a.cols = b.rows ∧ out = [a.rows, b.cols] := by
  unfold matmul
  constructor
  · intro h
    cases hm : matrices lhs rhs with
    | error e => rw [hm] at h; cases h
    | ok p =>
      obtain ⟨a, b⟩ := p
      rw [hm] at h
      obtain ⟨ha, hb⟩ := matrices_eq_ok.1 hm
      change (if a.cols = b.rows then Except.ok _ else _) = _ at h
      split at h
      · cases h
        exact ⟨a, b, ha, hb, ‹_›, rfl⟩
      · cases h
  · rintro ⟨a, b, ha, hb, hab, rfl⟩
    rw [matrices_eq_ok.2 ⟨ha, hb⟩]
    change (if a.cols = b.rows then Except.ok _ else _) = _
    rw [if_pos hab]

theorem rowMatrix?_eq_some {s : Shape} {a : Matrix} (h : rowMatrix? s = some a) :
    (s = [a.cols] ∧ a.rows = 1) ∨ s = [a.rows, a.cols] := by
  unfold rowMatrix? at h
  split at h <;> cases h <;> simp

theorem colMatrix?_eq_some {s : Shape} {b : Matrix} (h : colMatrix? s = some b) :
    (s = [b.rows] ∧ b.cols = 1) ∨ s = [b.rows, b.cols] := by
  unfold colMatrix? at h
  split at h <;> cases h <;> simp

theorem matmul_positive {lhs rhs out : Shape} (h : matmul lhs rhs = .ok out) (hl : lhs.Positive) (hr : rhs.Positive) :
    out.Positive := by
  obtain ⟨a, b, ha, hb, -, rfl⟩ := matmul_eq_ok.1 h
  have h1 : 0 < a.rows := by
    rcases rowMatrix?_eq_some ha with ⟨-, h1⟩ | rfl
    · omega
    · exact hl _ (by simp)
  have h2 : 0 < b.cols := by
    rcases colMatrix?_eq_some hb with ⟨-, h2⟩ | rfl
    · omega
    · exact hr _ (by simp)
  simp [Positive, h1, h2]

end TensorLoom.Shape
