import TensorLoom.Proofs.Shape.Axes
/-
# Undoing a stretch

Reducing a tensor over the axes along which an operand was stretched leaves the operand's
shape behind leading axes of extent 1 (`broadcastAxes_eq_ok`), and the index vectors that
fall on one element are those at which the operand's element was read. A reduction that
keeps its axes stretches back to the shape it came from.
-/

namespace TensorLoom.Shape

variable {axes : List Nat}

/-! ## Kept axes -/

theorem stretches_blank (s : Shape) : Stretches (blank axes 1 0 s) s := by
  have hforall : ∀ pos, List.Forall₂ (fun x y => x = y ∨ x = 1) (blank axes 1 pos s) s := by
    induction s with
    | nil => exact fun _ => .nil
    | cons d s ih =>
      intro pos
      refine .cons ?_ (ih (pos + 1))
      split
      · exact .inr rfl
      · exact .inl rfl
  refine ⟨Nat.le_of_eq (length_blank 1 0 s), ?_⟩
  rw [length_blank, Nat.sub_self, List.drop_zero]
  exact hforall 0

/-- Stretched back, a reduced tensor is read where the reduction puts its elements. -/
theorem restrict_blank {s : Shape} {idx : List Nat} (h : Mem idx s) :
    restrict (blank axes 1 0 s) idx = blank axes 0 0 idx := by
  have hzip : ∀ {s : Shape} {idx : List Nat} (pos : Nat), Mem idx s →
      ((blank axes 1 pos s).zip idx).map (fun x => if x.1 = 1 then 0 else x.2) = blank axes 0 pos idx := by
    intro s
    induction s with
    | nil =>
      intro idx pos h
      cases idx <;> simp_all [Mem, blank]
    | cons d s ih =>
      intro idx pos h
      cases idx with
      | nil => simp [Mem] at h
      | cons i idx =>
        simp only [blank, List.zip_cons_cons, List.map_cons, ih (pos + 1) h.2]
        by_cases hp : pos ∈ axes
        · simp [hp]
        · -- an axis of extent 1 has only the coordinate 0
          have hi := h.1
          by_cases hd : d = 1
          · simp [hp, hd, show i = 0 by omega]
          · simp [hp, hd]
  rw [restrict, length_blank, h.length_eq, Nat.sub_self, List.drop_zero]
  exact hzip 0 h

/-! ## Leading axes -/

theorem blank_append {β : Type} (z : β) (pos : Nat) (xs ys : List β) :
    blank axes z pos (xs ++ ys) = blank axes z pos xs ++ blank axes z (pos + xs.length) ys := by
  induction xs generalizing pos with
  | nil => rfl
  | cons x xs ih =>
    simp only [List.cons_append, blank, ih, List.length_cons]
    rw [show pos + 1 + xs.length = pos + (xs.length + 1) by omega]

theorem blank_eq_replicate {β : Type} (z : β) {pos : Nat} {xs : List β} (h : ∀ k < xs.length, pos + k ∈ axes) :
    blank axes z pos xs = List.replicate xs.length z := by
  induction xs generalizing pos with
  | nil => rfl
  | cons x xs ih =>
    have hpos : pos ∈ axes := h 0 (by simp)
    rw [blank, if_pos hpos, ih fun k hk => ?_, List.length_cons, List.replicate_succ]
    have := h (k + 1) (by simpa using hk)
    rwa [Nat.add_assoc, Nat.add_comm 1 k]

theorem size_replicate_append (n : Nat) (s : Shape) : size (List.replicate n 1 ++ s) = size s := by
  induction n with
  | zero => rfl
  | succ n ih => simp [List.replicate_succ, size, ih]

theorem mem_replicate_append {n : Nat} {idx : List Nat} {s : Shape} (h : Mem idx s) :
    Mem (List.replicate n 0 ++ idx) (List.replicate n 1 ++ s) := by
  induction n with
  | zero => exact h
  | succ n ih => exact ⟨Nat.one_pos, ih⟩

theorem offset_replicate_append (n : Nat) (idx : List Nat) (s : Shape) :
    offset (List.replicate n 0 ++ idx) (List.replicate n 1 ++ s) = offset idx s := by
  induction n with
  | zero => rfl
  | succ n ih => simp [List.replicate_succ, offset, ih]

/-! ## Stretched axes -/

section
variable {a r : Shape}

/-- Where both have the same rank, the axes of extent 1 that grew are blanked. -/
theorem blank_stretched {pos : Nat} (h : List.Forall₂ (fun x y => x = y ∨ x = 1) a r)
    (haxes : ∀ k, pos + k ∈ axes ↔ a[k]? = some 1 ∧ (k < r.length ∧ r[k]? ≠ some 1)) :
    blank axes 1 pos r = a ∧ ∀ idx, Mem idx r →
      blank axes 0 pos idx = (a.zip idx).map fun (d, i) => if d = 1 then 0 else i := by
  induction h generalizing pos with
  | nil =>
    refine ⟨rfl, fun idx hm => ?_⟩
    cases idx <;> simp_all [Mem, blank]
  | @cons x y a r hxy _ ih =>
    have hrest : ∀ k, pos + 1 + k ∈ axes ↔ a[k]? = some 1 ∧ (k < r.length ∧ r[k]? ≠ some 1) := by
      intro k
      have := haxes (k + 1)
      simpa [Nat.add_assoc, Nat.add_comm 1 k] using this
    have hfirst : pos ∈ axes ↔ x = 1 ∧ y ≠ 1 := by simpa using haxes 0
    obtain ⟨hshape, hindex⟩ := ih hrest
    constructor
    · rw [blank, hshape]
      by_cases hp : pos ∈ axes
      · rw [if_pos hp, (hfirst.1 hp).1]
      · rw [if_neg hp]
        rcases hxy with rfl | rfl
        · rfl
        · have : y = 1 := by_contra fun hy => hp (hfirst.2 ⟨rfl, hy⟩)
          rw [this]
    · intro idx hm
      cases idx with
      | nil => simp [Mem] at hm
      | cons i idx =>
        rw [blank, hindex idx hm.2, List.zip_cons_cons, List.map_cons]
        by_cases hp : pos ∈ axes
        · simp [hp, (hfirst.1 hp).1]
        · by_cases hx : x = 1
          · have hy : y = 1 := by_contra fun hy => hp (hfirst.2 ⟨hx, hy⟩)
            have hi := hm.1
            simp [hp, hx, show i = 0 by omega]
          · simp [hp, hx]

/-- Reducing over the axes, and keeping them, undoes the stretch from `a` to `r`. -/
structure Unstretches (axes : List Nat) (a r : Shape) : Prop where
  increasing : axes.Pairwise (· < ·)
  lt_rank : ∀ x ∈ axes, x < r.length
  shape : blank axes 1 0 r = List.replicate (r.length - a.length) 1 ++ a
  index : ∀ {idx}, Mem idx r → blank axes 0 0 idx = List.replicate (r.length - a.length) 0 ++ restrict a idx
  eq_of_nil : axes = [] → a = r

theorem broadcastAxes_eq_ok (h : Stretches a r) : ∃ axes, broadcastAxes a r = .ok axes ∧ Unstretches axes a r := by
  obtain ⟨hle, hforall⟩ := h
  unfold broadcastAxes
  rw [if_neg (by omega)]
  refine ⟨_, rfl, ?_⟩
  generalize hlead : r.length - a.length = lead at hforall ⊢
  generalize haxes : (List.range r.length).filter (fun axis =>
    axis < lead || (a[axis - lead]? == some 1 && r[axis]? != some 1)) = axes
  have hmem : ∀ x, x ∈ axes ↔ x < r.length ∧ (x < lead ∨ a[x - lead]? = some 1 ∧ r[x]? ≠ some 1) := by
    intro x
    simp [← haxes]
  -- the leading axes are all listed, the others where the extent grew
  have hfirst : ∀ k < lead, 0 + k ∈ axes := fun k hk => (hmem _).2 ⟨by omega, .inl (by omega)⟩
  have hrest : ∀ k, lead + k ∈ axes ↔ a[k]? = some 1 ∧ (k < (r.drop lead).length ∧ (r.drop lead)[k]? ≠ some 1) := by
    intro k
    rw [hmem, List.length_drop, List.getElem?_drop, Nat.add_sub_cancel_left]
    have : ¬ lead + k < lead := by omega
    have hlt : lead + k < r.length ↔ k < r.length - lead := by omega
    simp only [this, false_or, hlt]
    tauto
  obtain ⟨hshape, hindex⟩ := blank_stretched hforall hrest
  have htake : ∀ {xs : List Nat}, xs.length = r.length → (xs.take lead).length = lead := by
    intro xs hxs
    rw [List.length_take]
    omega
  have hblank : blank axes 1 0 r = List.replicate lead 1 ++ a := by
    conv_lhs => rw [← List.take_append_drop lead r]
    rw [blank_append, htake rfl, Nat.zero_add, hshape, blank_eq_replicate _ (by rwa [htake rfl]), htake rfl]
  refine ⟨haxes ▸ List.pairwise_lt_range.filter _, fun x hx => ((hmem x).1 hx).1, hlead ▸ hblank, ?_, ?_⟩
  · intro idx hm
    have hlen := hm.length_eq
    conv_lhs => rw [← List.take_append_drop lead idx]
    rw [blank_append, htake hlen, Nat.zero_add, hindex _ (hm.drop lead), blank_eq_replicate _ (by rwa [htake hlen]),
      htake hlen, restrict, hlen, hlead]
  · rintro rfl
    have hzero : lead = 0 := by_contra fun hpos => by simpa using hfirst 0 (by omega)
    have hid : blank [] 1 0 r = r := by
      rw [← reduced_true]
      simp [reduced]
    rw [← hid, hblank, hzero]
    rfl

end

end TensorLoom.Shape
