import TensorLoom.Lowering.Body
import TensorLoom.Proofs.Shape.Stretch
/-
# Reduction axes

A reduction splits an index vector of its input in two: the coordinates along the listed
axes (`inside`) and the others (`outside`); `weave` puts them together again. The index
vectors that collapse to one index of the result are, in row-major order, those woven
from all index vectors along the listed axes (`filter_collapse`), which is the order in
which nested loops visit them.
-/

namespace TensorLoom.Shape

open Lowering (weave)

variable {β : Type} {axes : List Nat}

/-- The entries at listed positions, the first entry having position `pos`. -/
def inside (axes : List Nat) : (pos : Nat) → List β → List β
  | _, [] => []
  | pos, x :: xs => if pos ∈ axes then x :: inside axes (pos + 1) xs else inside axes (pos + 1) xs

/-- The entries at positions that are not listed. -/
def outside (axes : List Nat) : (pos : Nat) → List β → List β
  | _, [] => []
  | pos, x :: xs => if pos ∈ axes then outside axes (pos + 1) xs else x :: outside axes (pos + 1) xs

theorem filterMap_zipIdx_eq_outside (pos : Nat) (xs : List β) :
    ((xs.zipIdx pos).filterMap fun (x, i) => if i ∈ axes then none else some x) = outside axes pos xs := by
  induction xs generalizing pos with
  | nil => rfl
  | cons x xs ih => by_cases h : pos ∈ axes <;> simp [List.zipIdx_cons, outside, h, ih]

theorem dropAxes_eq_outside (xs : List β) : dropAxes axes xs = outside axes 0 xs :=
  filterMap_zipIdx_eq_outside 0 xs

theorem length_outside (pos : Nat) (xs : List β) (γ : Type) (ys : List γ) (h : xs.length = ys.length) :
    (outside axes pos xs).length = (outside axes pos ys).length := by
  induction xs generalizing pos ys with
  | nil => cases ys <;> simp_all [outside]
  | cons x xs ih =>
    cases ys with
    | nil => simp at h
    | cons y ys =>
      have := ih (pos + 1) ys (by simpa using h)
      by_cases hp : pos ∈ axes <;> simp [outside, hp, this]

/-! ## Sorted axes -/

/-- Axes as a node keeps them: increasing, in range, and at least one. -/
structure SortedAxes (axes : List Nat) (rank : Nat) : Prop where
  increasing : axes.Pairwise (· < ·)
  lt_rank : ∀ a ∈ axes, a < rank
  ne_nil : axes ≠ []

theorem inside_congr {axes' : List Nat} {pos : Nat} (h : ∀ a, pos ≤ a → (a ∈ axes ↔ a ∈ axes'))
    (xs : List β) : inside axes pos xs = inside axes' pos xs := by
  induction xs generalizing pos with
  | nil => rfl
  | cons x xs ih =>
    have e : inside axes (pos + 1) xs = inside axes' (pos + 1) xs := ih fun a ha => h a (by omega)
    simp only [inside, h pos (Nat.le_refl _), e]

theorem filterMap_getElem?_eq_inside {pos : Nat} (hs : axes.Pairwise (· < ·)) (hp : ∀ a ∈ axes, pos ≤ a)
    (xs : List β) : (axes.filterMap fun a => xs[a - pos]?) = inside axes pos xs := by
  induction xs generalizing pos axes with
  | nil => simp [inside]
  | cons x xs ih =>
    have shift : ∀ {as : List Nat}, (∀ a ∈ as, pos + 1 ≤ a) →
        (as.filterMap fun a => (x :: xs)[a - pos]?) = as.filterMap fun a => xs[a - (pos + 1)]? := by
      intro as has
      refine List.filterMap_congr fun a ha => ?_
      have := has a ha
      rw [show a - pos = (a - (pos + 1)) + 1 by omega, List.getElem?_cons_succ]
    by_cases hmem : pos ∈ axes
    · -- the smallest listed axis is this one, so it comes first
      cases axes with
      | nil => simp at hmem
      | cons a as =>
        obtain ⟨hlt, hs⟩ := List.pairwise_cons.1 hs
        have ha : a = pos := by
          rcases List.mem_cons.1 hmem with h | h
          · exact h.symm
          · have h1 := hlt pos h
            have h2 := hp a (by simp)
            omega
        subst ha
        have has : ∀ b ∈ as, a + 1 ≤ b := fun b hb => hlt b hb
        have hrest : inside (a :: as) (a + 1) xs = inside as (a + 1) xs :=
          inside_congr (fun b hb => ⟨fun h => (List.mem_cons.1 h).resolve_left (by omega),
            List.mem_cons_of_mem _⟩) xs
        simp only [inside, hmem, if_true, hrest, List.filterMap_cons, Nat.sub_self, List.getElem?_cons_zero]
        rw [shift has, ih hs has]
    · have has : ∀ a ∈ axes, pos + 1 ≤ a := fun a ha => by
        have := hp a ha
        have : a ≠ pos := fun e => hmem (e ▸ ha)
        omega
      simp only [inside, hmem, if_false]
      rw [shift has, ih hs has]

theorem SortedAxes.filterMap_eq_inside {rank : Nat} (h : SortedAxes axes rank) (xs : List β) :
    axes.filterMap (xs[·]?) = inside axes 0 xs :=
  filterMap_getElem?_eq_inside h.increasing (fun a _ => Nat.zero_le a) xs

theorem SortedAxes.length_inside {rank : Nat} (h : SortedAxes axes rank) {xs : List β} (hx : xs.length = rank) :
    (inside axes 0 xs).length = axes.length := by
  rw [← h.filterMap_eq_inside, List.filterMap_length_eq_length.2]
  intro a ha
  have := h.lt_rank a ha
  simp [hx, this]

/-! ## Weaving -/

section
variable {s : Shape} {is os : List Nat}

theorem mem_weave {pos : Nat} (hi : Mem is (inside axes pos s)) (ho : Mem os (outside axes pos s)) :
    Mem (weave axes pos s.length is os) s ∧ outside axes pos (weave axes pos s.length is os) = os := by
  induction s generalizing pos is os with
  | nil => cases os <;> simp_all [outside, weave, Mem]
  | cons d s ih =>
    by_cases hp : pos ∈ axes
    · simp only [inside, outside, hp, if_true] at hi ho
      cases is with
      | nil => simp [Mem] at hi
      | cons i is =>
        obtain ⟨hm, ho'⟩ := ih hi.2 ho
        simp only [List.length_cons, weave, outside, hp, if_true]
        exact ⟨⟨hi.1, hm⟩, ho'⟩
    · simp only [inside, outside, hp, if_false] at hi ho
      cases os with
      | nil => simp [Mem] at ho
      | cons o os =>
        obtain ⟨hm, ho'⟩ := ih hi ho.2
        simp only [List.length_cons, weave, outside, hp, if_false, ho', and_true]
        exact ⟨ho.1, hm⟩

theorem mem_outside {idx : List Nat} {pos : Nat} (h : Mem idx s) : Mem (outside axes pos idx) (outside axes pos s) := by
  induction s generalizing pos idx with
  | nil => cases idx <;> simp_all [outside, Mem]
  | cons d s ih =>
    cases idx with
    | nil => simp [Mem] at h
    | cons i idx =>
      by_cases hp : pos ∈ axes
      · simp only [outside, hp, if_true]
        exact ih h.2
      · simp only [outside, hp, if_false]
        exact ⟨h.1, ih h.2⟩

theorem filter_flatMap_range {d o : Nat} (ho : o < d) (f : Nat → List (List Nat)) :
    ((List.range d).flatMap fun i => if i = o then f i else []) = f o := by
  induction d with
  | zero => omega
  | succ d ih =>
    rw [List.range_succ, List.flatMap_append, List.flatMap_singleton]
    by_cases hd : d = o
    · subst hd
      have hnil : ((List.range d).flatMap fun i => if i = d then f i else []) = [] := by
        rw [List.flatMap_eq_nil_iff]
        intro i hi
        have := List.mem_range.1 hi
        rw [if_neg (by omega)]
      rw [hnil, if_pos rfl, List.nil_append]
    · rw [ih (by omega), if_neg hd, List.append_nil]

/-- The index vectors with given outer coordinates, in row-major order. -/
theorem filter_outside {pos : Nat} (ho : Mem os (outside axes pos s)) :
    (indices s).filter (fun i => outside axes pos i = os) =
      (indices (inside axes pos s)).map fun is => weave axes pos s.length is os := by
  induction s generalizing pos os with
  | nil => cases os <;> simp_all [indices, outside, inside, weave, Mem]
  | cons d s ih =>
    simp only [indices, List.filter_flatMap, List.filter_map]
    by_cases hp : pos ∈ axes
    · -- a listed axis: all its coordinates appear
      simp only [outside, hp, if_true] at ho
      have hf : ∀ i, (indices s).filter ((fun j => decide (outside axes pos j = os)) ∘ (i :: ·)) =
          (indices (inside axes (pos + 1) s)).map fun is => weave axes (pos + 1) s.length is os := by
        intro i
        rw [← ih ho]
        refine List.filter_congr fun j _ => ?_
        simp [outside, hp]
      simp only [hf, inside, hp, if_true, indices, List.map_flatMap, List.map_map]
      refine List.flatMap_congr fun i _ => List.map_congr_left fun is _ => ?_
      simp [weave, hp]
    · -- another axis: only the given coordinate appears
      simp only [outside, hp, if_false] at ho
      cases os with
      | nil => simp [Mem] at ho
      | cons o os =>
        have hf : ∀ i, (indices s).filter ((fun j => decide (outside axes pos j = o :: os)) ∘ (i :: ·)) =
            if i = o then (indices (inside axes (pos + 1) s)).map fun is => weave axes (pos + 1) s.length is os
            else [] := by
          intro i
          by_cases hi : i = o
          · rw [if_pos hi, ← ih ho.2]
            refine List.filter_congr fun j _ => ?_
            simp [outside, hp, hi]
          · rw [if_neg hi, List.filter_eq_nil_iff]
            intro j _
            simp [outside, hp, hi]
        have hmap : ∀ i, ((indices s).filter ((fun j => decide (outside axes pos j = o :: os)) ∘ (i :: ·))).map (i :: ·) =
            if i = o then ((indices (inside axes (pos + 1) s)).map
              fun is => weave axes (pos + 1) s.length is os).map (i :: ·) else [] := by
          intro i
          rw [hf]
          split <;> simp
        simp only [hmap]
        rw [filter_flatMap_range ho.1]
        simp [inside, hp, weave, Function.comp_def]

end

/-! ## The shape of a reduction -/

/-- The shape of a reduction over sorted axes. -/
def reduced (axes : List Nat) (keepDims : Bool) (input : Shape) : Shape :=
  if keepDims then input.zipIdx.map fun (d, i) => if i ∈ axes then 1 else d else dropAxes axes input

/-- The index of the result for the coordinates along the axes that stay. -/
def spread (axes : List Nat) (keepDims : Bool) (rank : Nat) (os : List Nat) : List Nat :=
  if keepDims then weave axes 0 rank (axes.map fun _ => 0) os else os

/-- Entries at listed positions are replaced by `z`. -/
def blank (axes : List Nat) (z : β) : (pos : Nat) → List β → List β
  | _, [] => []
  | pos, x :: xs => (if pos ∈ axes then z else x) :: blank axes z (pos + 1) xs

theorem map_zipIdx_eq_blank (z : β) (pos : Nat) (xs : List β) :
    ((xs.zipIdx pos).map fun (x, i) => if i ∈ axes then z else x) = blank axes z pos xs := by
  induction xs generalizing pos with
  | nil => rfl
  | cons x xs ih => simp [List.zipIdx_cons, blank, ih]

theorem length_blank (z : β) (pos : Nat) (xs : List β) : (blank axes z pos xs).length = xs.length := by
  induction xs generalizing pos with
  | nil => rfl
  | cons x xs ih => simp [blank, ih]

theorem length_inside_congr (pos : Nat) (xs : List β) (γ : Type) (ys : List γ) (h : xs.length = ys.length) :
    (inside axes pos xs).length = (inside axes pos ys).length := by
  induction xs generalizing pos ys with
  | nil => cases ys <;> simp_all [inside]
  | cons x xs ih =>
    cases ys with
    | nil => simp at h
    | cons y ys =>
      have := ih (pos + 1) ys (by simpa using h)
      by_cases hp : pos ∈ axes <;> simp [inside, hp, this]

/-- Weaving with one value along the listed axes blanks them. -/
theorem weave_replicate_outside (z : β) (pos : Nat) (xs : List β) :
    weave axes pos xs.length (List.replicate (inside axes pos xs).length z) (outside axes pos xs) =
      blank axes z pos xs := by
  induction xs generalizing pos with
  | nil => rfl
  | cons x xs ih =>
    by_cases hp : pos ∈ axes
    · simp [weave, inside, outside, blank, hp, List.replicate_succ, ih]
    · simp [weave, inside, outside, blank, hp, ih]

theorem outside_blank (z : β) (pos : Nat) (xs : List β) :
    outside axes pos (blank axes z pos xs) = outside axes pos xs := by
  induction xs generalizing pos with
  | nil => rfl
  | cons x xs ih => by_cases hp : pos ∈ axes <;> simp [blank, outside, hp, ih]

theorem reduced_true (input : Shape) : reduced axes true input = blank axes 1 0 input :=
  map_zipIdx_eq_blank 1 0 input

theorem reduced_false (input : Shape) : reduced axes false input = outside axes 0 input :=
  dropAxes_eq_outside input

theorem collapse_true (idx : List Nat) : collapse axes true idx = blank axes 0 0 idx :=
  map_zipIdx_eq_blank 0 0 idx

theorem collapse_false (idx : List Nat) : collapse axes false idx = outside axes 0 idx :=
  dropAxes_eq_outside idx

theorem mem_of_mem_inside {x : β} {pos : Nat} {xs : List β} (h : x ∈ inside axes pos xs) : x ∈ xs := by
  induction xs generalizing pos with
  | nil => exact h
  | cons y xs ih =>
    by_cases hp : pos ∈ axes
    · simp only [inside, hp, if_true, List.mem_cons] at h
      exact List.mem_cons.2 (h.imp_right ih)
    · simp only [inside, hp, if_false] at h
      exact List.mem_cons_of_mem _ (ih h)

theorem mem_of_mem_outside {x : β} {pos : Nat} {xs : List β} (h : x ∈ outside axes pos xs) : x ∈ xs := by
  induction xs generalizing pos with
  | nil => exact h
  | cons y xs ih =>
    by_cases hp : pos ∈ axes
    · simp only [outside, hp, if_true] at h
      exact List.mem_cons_of_mem _ (ih h)
    · simp only [outside, hp, if_false, List.mem_cons] at h
      exact List.mem_cons.2 (h.imp_right ih)

theorem Positive.inside {s : Shape} (h : s.Positive) (pos : Nat) : Positive (inside axes pos s) :=
  fun d hd => h d (mem_of_mem_inside hd)

theorem Positive.outside {s : Shape} (h : s.Positive) (pos : Nat) : Positive (outside axes pos s) :=
  fun d hd => h d (mem_of_mem_outside hd)

theorem Positive.blank {s : Shape} (h : s.Positive) (pos : Nat) : Positive (blank axes 1 pos s) := by
  induction s generalizing pos with
  | nil => exact positive_nil
  | cons d s ih =>
    obtain ⟨hd, hs⟩ := positive_cons.1 h
    refine positive_cons.2 ⟨?_, ih hs (pos + 1)⟩
    split
    · exact Nat.one_pos
    · exact hd

theorem Positive.reduced {s : Shape} (h : s.Positive) (keepDims : Bool) : Positive (reduced axes keepDims s) := by
  cases keepDims with
  | true => rw [reduced_true]; exact h.blank 0
  | false => rw [reduced_false]; exact h.outside 0

theorem size_blank (pos : Nat) (s : Shape) : size (blank axes 1 pos s) = size (outside axes pos s) := by
  induction s generalizing pos with
  | nil => rfl
  | cons d s ih => by_cases hp : pos ∈ axes <;> simp [blank, outside, size, hp, ih]

/-- An axis of extent 1 changes no stride of another one. -/
theorem outside_strides_blank (pos : Nat) (s : Shape) :
    outside axes pos (strides (blank axes 1 pos s)) = strides (outside axes pos s) := by
  induction s generalizing pos with
  | nil => rfl
  | cons d s ih => by_cases hp : pos ∈ axes <;> simp [blank, outside, strides, hp, ih, size_blank]

/-- Where the listed axes have extent 1, they do not count. -/
theorem size_reduced (keepDims : Bool) (s : Shape) : size (reduced axes keepDims s) = size (outside axes 0 s) := by
  cases keepDims with
  | true => rw [reduced_true, size_blank]
  | false => rw [reduced_false]

theorem mem_blank {idx : List Nat} {s : Shape} (pos : Nat) (h : Mem idx s) :
    Mem (blank axes 0 pos idx) (blank axes 1 pos s) ∧
      offset (blank axes 0 pos idx) (blank axes 1 pos s) = offset (outside axes pos idx) (outside axes pos s) := by
  induction s generalizing pos idx with
  | nil => cases idx <;> simp_all [blank, outside, Mem, offset]
  | cons d s ih =>
    cases idx with
    | nil => simp [Mem] at h
    | cons i idx =>
      obtain ⟨hm, ho⟩ := ih (pos + 1) h.2
      by_cases hp : pos ∈ axes
      · simp only [blank, outside, hp, if_true, offset, ho, Nat.zero_mul, Nat.zero_add, and_true]
        exact ⟨Nat.one_pos, hm⟩
      · simp only [blank, outside, hp, if_false, offset, ho, size_blank, and_true]
        exact ⟨h.1, hm⟩

theorem mem_collapse {keepDims : Bool} {idx : List Nat} {s : Shape} (h : Mem idx s) :
    Mem (collapse axes keepDims idx) (reduced axes keepDims s) := by
  cases keepDims with
  | true => rw [collapse_true, reduced_true]; exact (mem_blank 0 h).1
  | false => rw [collapse_false, reduced_false]; exact mem_outside h

theorem SortedAxes.spread_outside {rank : Nat} (h : SortedAxes axes rank) {keepDims : Bool} {idx : List Nat}
    (hr : idx.length = rank) : spread axes keepDims rank (outside axes 0 idx) = collapse axes keepDims idx := by
  cases keepDims with
  | true =>
    rw [collapse_true, ← weave_replicate_outside, h.length_inside hr, hr]
    simp [spread]
  | false => rw [collapse_false]; rfl

/-- The outer coordinates of some index vector of the input. -/
theorem exists_outside_eq {s : Shape} (hs : s.Positive) {os : List Nat} (ho : Mem os (outside axes 0 s)) :
    ∃ idx, Mem idx s ∧ outside axes 0 idx = os := by
  have hi : Mem (indexOf (inside axes 0 s) 0) (inside axes 0 s) := mem_indexOf (size_pos (hs.inside 0))
  exact ⟨_, mem_weave hi ho⟩

theorem SortedAxes.mem_spread {s : Shape} (h : SortedAxes axes s.length) (hs : s.Positive) (keepDims : Bool)
    {os : List Nat} (ho : Mem os (outside axes 0 s)) :
    Mem (spread axes keepDims s.length os) (reduced axes keepDims s) ∧
      offset (spread axes keepDims s.length os) (reduced axes keepDims s) = offset os (outside axes 0 s) := by
  obtain ⟨idx, hm, rfl⟩ := exists_outside_eq hs ho
  rw [h.spread_outside hm.length_eq]
  refine ⟨mem_collapse hm, ?_⟩
  cases keepDims with
  | true => rw [collapse_true, reduced_true]; exact (mem_blank 0 hm).2
  | false => rw [collapse_false, reduced_false]

theorem collapse_eq_spread_iff {s : Shape} (h : SortedAxes axes s.length) {keepDims : Bool} {idx os : List Nat}
    (hm : Mem idx s) (hs : s.Positive) (ho : Mem os (outside axes 0 s)) :
    collapse axes keepDims idx = spread axes keepDims s.length os ↔ outside axes 0 idx = os := by
  constructor
  · intro e
    obtain ⟨idx', hm', rfl⟩ := exists_outside_eq hs ho
    rw [h.spread_outside hm'.length_eq] at e
    cases keepDims with
    | true =>
      rw [collapse_true, collapse_true] at e
      rw [← outside_blank 0 0 idx, e, outside_blank]
    | false => rwa [collapse_false, collapse_false] at e
  · rintro rfl
    exact (h.spread_outside hm.length_eq).symm

/-- The input indices that a reduction gathers at one index of its result, in row-major
order: one for each index vector along the listed axes. -/
theorem SortedAxes.filter_collapse {s : Shape} (h : SortedAxes axes s.length) (hs : s.Positive) (keepDims : Bool)
    {os : List Nat} (ho : Mem os (outside axes 0 s)) :
    (indices s).filter (fun i => collapse axes keepDims i = spread axes keepDims s.length os) =
      (indices (inside axes 0 s)).map fun is => weave axes 0 s.length is os := by
  rw [← filter_outside ho]
  refine List.filter_congr fun i hi => ?_
  simp only [collapse_eq_spread_iff h (mem_indices.1 hi) hs ho]

/-! ## Normalised axes -/

theorem mem_insertAxis {axis a : Nat} {as : List Nat} : a ∈ insertAxis axis as ↔ a = axis ∨ a ∈ as := by
  induction as with
  | nil => simp [insertAxis]
  | cons b as ih =>
    unfold insertAxis
    split
    · simp
    · simp only [List.mem_cons, ih]
      exact ⟨fun h => by rcases h with h | h | h <;> simp [h], fun h => by rcases h with h | h | h <;> simp [h]⟩

theorem insertAxis_increasing {axis : Nat} {as : List Nat} (h : as.Pairwise (· < ·)) (hn : axis ∉ as) :
    (insertAxis axis as).Pairwise (· < ·) := by
  induction as with
  | nil => simp [insertAxis]
  | cons b as ih =>
    obtain ⟨hb, has⟩ := List.pairwise_cons.1 h
    have hne : axis ≠ b := fun e => hn (by simp [e])
    unfold insertAxis
    split
    · refine List.pairwise_cons.2 ⟨fun a ha => ?_, h⟩
      rcases List.mem_cons.1 ha with rfl | ha
      · omega
      · have := hb a ha
        omega
    · refine List.pairwise_cons.2 ⟨fun a ha => ?_, ih has fun hm => hn (List.mem_cons_of_mem _ hm)⟩
      rcases mem_insertAxis.1 ha with rfl | ha
      · omega
      · exact hb a ha

theorem collectAxes_eq_ok {rank : Nat} {seen axes out : List Nat} (h : collectAxes rank seen axes = .ok out)
    (hs : seen.Pairwise (· < ·)) (hlt : ∀ a ∈ seen, a < rank) :
    out.Pairwise (· < ·) ∧ (∀ a ∈ out, a < rank) ∧ (∀ a, a ∈ out ↔ a ∈ seen ∨ a ∈ axes) := by
  fun_induction collectAxes rank seen axes with
  | case1 seen => cases h; exact ⟨hs, hlt, by simp⟩
  | case2 seen axis axes hr => simp at h
  | case3 seen axis axes hr hm => simp at h
  | case4 seen axis axes hr hm ih =>
    obtain ⟨h1, h2, h3⟩ := ih h (insertAxis_increasing hs hm) fun a ha => by
      rcases mem_insertAxis.1 ha with rfl | ha
      · omega
      · exact hlt a ha
    refine ⟨h1, h2, fun a => ?_⟩
    rw [h3, mem_insertAxis, List.mem_cons]
    exact ⟨fun h => by rcases h with (h | h) | h <;> simp [h], fun h => by rcases h with h | h | h <;> simp [h]⟩

theorem normalizeAxes_eq_ok {axes out : List Nat} {rank : Nat} (h : normalizeAxes axes rank = .ok out) :
    SortedAxes out rank ∧ ∀ a, a ∈ out ↔ a ∈ axes := by
  unfold normalizeAxes at h
  split at h
  · cases h
  · obtain ⟨h1, h2, h3⟩ := collectAxes_eq_ok h .nil (by simp)
    have hmem : ∀ a, a ∈ out ↔ a ∈ axes := by simpa using h3
    refine ⟨⟨h1, h2, ?_⟩, hmem⟩
    rintro rfl
    cases axes with
    | nil => contradiction
    | cons a as => exact absurd ((hmem a).2 (by simp)) (by simp)

theorem insertAxis_of_lt {axis : Nat} {as : List Nat} (h : ∀ a ∈ as, a < axis) : insertAxis axis as = as ++ [axis] := by
  induction as with
  | nil => rfl
  | cons a as ih =>
    have ha := h a (by simp)
    rw [insertAxis, if_neg (by omega), ih fun b hb => h b (List.mem_cons_of_mem _ hb)]
    rfl

theorem collectAxes_of_increasing {rank : Nat} {seen axes : List Nat} (h : (seen ++ axes).Pairwise (· < ·))
    (hlt : ∀ a ∈ axes, a < rank) : collectAxes rank seen axes = .ok (seen ++ axes) := by
  induction axes generalizing seen with
  | nil => simp [collectAxes]
  | cons a as ih =>
    have ha := hlt a (by simp)
    have hseen : ∀ b ∈ seen, b < a := fun b hb => (List.pairwise_append.1 h).2.2 b hb a (by simp)
    have hn : a ∉ seen := fun hm => Nat.lt_irrefl _ (hseen a hm)
    have h' : ((seen ++ [a]) ++ as).Pairwise (· < ·) := by simpa using h
    rw [collectAxes, if_neg (by omega), if_neg hn, insertAxis_of_lt hseen,
      ih h' fun b hb => hlt b (List.mem_cons_of_mem _ hb)]
    simp

/-- Axes in their normal form stay as they are. -/
theorem SortedAxes.normalizeAxes {rank : Nat} (h : SortedAxes axes rank) : normalizeAxes axes rank = .ok axes := by
  unfold Shape.normalizeAxes
  rw [if_neg h.ne_nil, collectAxes_of_increasing (by simpa using h.increasing) h.lt_rank, List.nil_append]

theorem reduce_eq_ok {input out : Shape} {axes : List Nat} {keepDims : Bool} :
    reduce input axes keepDims = .ok out ↔
      ∃ ns, Shape.normalizeAxes axes input.length = .ok ns ∧ out = reduced ns keepDims input := by
  unfold reduce reduced
  cases h : Shape.normalizeAxes axes input.length with
  | error e => simp [bind, Except.bind]
  | ok ns => cases keepDims <;> simp [bind, Except.bind, pure, Except.pure, eq_comm]

end TensorLoom.Shape
