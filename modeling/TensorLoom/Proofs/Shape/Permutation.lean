import TensorLoom.Proofs.Shape.Sum
/-
# Permutations undone

Shapes are permuted by reading and index vectors by writing, and the inverse of a
permutation is written as well: it is what the positions become as an index vector. The
three agree for every permutation (`permute_inverse`). The inverse restores the shape, the
index vector and, inverted once more, the permutation; and a coordinate goes to an axis of
the extent it comes from.
-/

namespace TensorLoom.Shape

open Lowering

section
variable {rank : Nat} {perm inv inv' : List Nat}

theorem isPerm_iff_perm_range : IsPerm rank perm ↔ perm.Perm (List.range rank) := by
  refine ⟨IsPerm.perm_range, fun h => ⟨?_, ?_, fun a ha => ?_⟩⟩
  · rw [h.length_eq, List.length_range]
  · exact h.nodup_iff.2 List.nodup_range
  · exact List.mem_range.1 (h.mem_iff.1 ha)

theorem Inverse.unique (h : Inverse rank perm inv) (h' : Inverse rank perm inv') : inv = inv' := by
  refine List.ext_getElem? fun a => ?_
  by_cases ha : a < rank
  · rw [h.getElem? a ha, h'.getElem? a ha]
  · rw [List.getElem?_eq_none (by rw [h.right.1]; omega), List.getElem?_eq_none (by rw [h'.right.1]; omega)]

/-- A permutation is the inverse of its inverse. -/
theorem Inverse.inversePermutation (h : Inverse rank perm inv) : Shape.inversePermutation inv = .ok perm := by
  obtain ⟨perm', hperm', hinverse⟩ := inversePermutation_eq_ok h.right
  rw [hperm', hinverse.unique h.symm]

/-! ## Index vectors -/

variable {β : Type} {idx source : List β}

/-- The coordinate at position `j` is written to the axis that is listed there. -/
theorem IsPerm.getElem?_permuteIndex (h : IsPerm rank perm) {origin : β} (hl : idx.length = rank)
    (hsource : permuteIndex origin idx perm = .ok source) :
    source.length = rank ∧ ∀ {j a : Nat}, perm[j]? = some a → source[a]? = idx[j]? := by
  obtain ⟨source', hrun, hlen, hget⟩ := permuteIndex_eq_ok h origin hl
  obtain rfl : source = source' := Except.ok.inj (hsource.symm.trans hrun)
  refine ⟨hlen, fun {j a} hj => ?_⟩
  rw [hget a (h.2.2 a (List.mem_of_getElem? hj)), h.idxOf_getElem hj]

/-- Writing along the inverse brings every coordinate back. -/
theorem Inverse.permuteIndex (h : Inverse rank perm inv) (origin : β) (hl : idx.length = rank) :
    ∃ source, Lowering.permuteIndex origin idx perm = .ok source ∧ Lowering.permuteIndex origin source inv = .ok idx := by
  obtain ⟨source, hsource, hlen, hget⟩ := permuteIndex_eq_ok h.left origin hl
  obtain ⟨back, hback, hlen', hget'⟩ := permuteIndex_eq_ok h.right origin hlen
  have heq : back = idx := by
    refine List.ext_getElem? fun b => ?_
    by_cases hb : b < rank
    · rw [hget' b hb, hget _ (h.right.idxOf_lt hb), h.symm.idxOf hb]
    · rw [List.getElem?_eq_none (by omega), List.getElem?_eq_none (by omega)]
  exact ⟨source, hsource, heq ▸ hback⟩

end

section
variable {s out : Shape} {perm : List Nat}

theorem length_permute (h : permute s perm = .ok out) : out.length = s.length := by
  obtain ⟨hperm, rfl⟩ := permute_eq_ok.1 h
  rw [length_filterMap_getElem? hperm.2.2, hperm.1]

/-- The extent at position `j` is read from the axis that is listed there. -/
theorem getElem?_permute (h : permute s perm = .ok out) {j a : Nat} (hj : perm[j]? = some a) : s[a]? = out[j]? := by
  obtain ⟨hperm, rfl⟩ := permute_eq_ok.1 h
  rw [filterMap_getElem? hperm.2.2, hj, Option.bind_some]

/-- Coordinates and extents move alike, so what was in range stays in range. -/
theorem mem_iff_of_moved (h : permute s perm = .ok out) {idx source : List Nat} (hl : idx.length = s.length)
    (hsource : source.length = s.length) (hmoved : ∀ {j a : Nat}, perm[j]? = some a → source[a]? = idx[j]?) :
    Mem idx out ↔ Mem source s := by
  have hperm := (permute_eq_ok.1 h).1
  have hout := length_permute h
  rw [mem_iff_getElem?, mem_iff_getElem?]
  constructor
  · rintro ⟨-, hlt⟩
    refine ⟨hsource, fun a i d hi hd => ?_⟩
    have hj := hperm.getElem?_idxOf (List.getElem?_eq_some_iff.1 hd).1
    exact hlt _ i d (hmoved hj ▸ hi) (getElem?_permute h hj ▸ hd)
  · rintro ⟨-, hlt⟩
    refine ⟨hl.trans hout.symm, fun j i d hi hd => ?_⟩
    have hj : j < perm.length := by
      rw [hperm.1, ← hout]
      exact (List.getElem?_eq_some_iff.1 hd).1
    have hj := List.getElem?_eq_getElem hj
    exact hlt _ i d ((hmoved hj).trans hi) ((getElem?_permute h hj).trans hd)

end

/-- Exactly the permutations of the axes are accepted. The inverse of one exists, restores
the shape and has the permutation for its own inverse. An index vector is carried to one
that the inverse carries back: the coordinate at position `j` goes to the axis `perm[j]`,
which has the extent of position `j`, so an index of the permuted shape goes to an index of
the shape itself, however the coordinates are read. -/
theorem permute_inverse (s : Shape) (perm : List Nat) :
    ((∃ out, permute s perm = .ok out) ↔ perm.Perm (List.range s.length)) ∧
    ∀ out, permute s perm = .ok out →
      ∃ inv, inversePermutation perm = .ok inv ∧ permute out inv = .ok s ∧ inversePermutation inv = .ok perm ∧
        ∀ (β : Type) (origin : β) (idx : List β), idx.length = s.length →
          ∃ source, permuteIndex origin idx perm = .ok source ∧ permuteIndex origin source inv = .ok idx ∧
            (∀ j a : Nat, perm[j]? = some a → source[a]? = idx[j]? ∧ s[a]? = out[j]?) ∧
            ∀ read : β → Nat, Mem (idx.map read) out ↔ Mem (source.map read) s := by
  constructor
  · rw [← isPerm_iff_perm_range]
    refine ⟨?_, fun h => ⟨_, permute_eq_ok.2 ⟨h, rfl⟩⟩⟩
    rintro ⟨out, h⟩
    exact (permute_eq_ok.1 h).1
  · intro out h
    have hperm := (permute_eq_ok.1 h).1
    obtain ⟨inv, hinv, hinverse⟩ := inversePermutation_eq_ok hperm
    refine ⟨inv, hinv, hinverse.permute h, hinverse.inversePermutation, fun β origin idx hl => ?_⟩
    obtain ⟨source, hsource, hback⟩ := hinverse.permuteIndex origin hl
    obtain ⟨hlen, hmoved⟩ := hperm.getElem?_permuteIndex hl hsource
    refine ⟨source, hsource, hback, fun j a hj => ⟨hmoved hj, getElem?_permute h hj⟩, fun read => ?_⟩
    refine mem_iff_of_moved h (by rwa [List.length_map]) (by rwa [List.length_map]) fun hj => ?_
    rw [List.getElem?_map, List.getElem?_map, hmoved hj]

/-- A rotation of three axes, which is not its own inverse. -/
theorem permute_inverse_rotation :
    permute [5, 6, 7] [2, 0, 1] = .ok [7, 5, 6] ∧ ∃ inv, inversePermutation [2, 0, 1] = .ok inv ∧
      permute [7, 5, 6] inv = .ok [5, 6, 7] ∧ inversePermutation inv = .ok [2, 0, 1] ∧
      ∃ source, permuteIndex 0 [6, 4, 5] [2, 0, 1] = .ok source ∧ permuteIndex 0 source inv = .ok [6, 4, 5] ∧
        Mem source [5, 6, 7] := by
  have hpermute : permute [5, 6, 7] [2, 0, 1] = .ok [7, 5, 6] := rfl
  obtain ⟨inv, hinv, hshape, htwice, hindex⟩ := (permute_inverse [5, 6, 7] [2, 0, 1]).2 [7, 5, 6] hpermute
  obtain ⟨source, hsource, hback, -, hmem⟩ := hindex Nat 0 [6, 4, 5] rfl
  have hinside : Mem (source.map id) [5, 6, 7] := (hmem id).1 (by simp [Mem])
  rw [List.map_id] at hinside
  exact ⟨hpermute, inv, hinv, hshape, htwice, source, hsource, hback, hinside⟩

end TensorLoom.Shape
