import Mathlib.Data.List.Forall2
import TensorLoom.Graph.Value
import TensorLoom.Proofs.Shape.Offset
/-
# Stretching

An operand stretches to a shape when, aligned at the innermost axis, each of its extents
is that of the shape or 1. Broadcasting gives a shape that both operands stretch to
(`stretches_of_broadcast`), and a shape absorbs whatever stretches to it
(`broadcast_of_stretches`). An index of the result restricts to an index of each operand
(`Stretches.mem_restrict`).
-/

namespace TensorLoom.Shape

/-- An operand of shape `a` can be repeated to the shape `r`. -/
def Stretches (a r : Shape) : Prop :=
  a.length ≤ r.length ∧ List.Forall₂ (fun x y => x = y ∨ x = 1) a (r.drop (r.length - a.length))

theorem Stretches.refl (a : Shape) : Stretches a a := by
  refine ⟨Nat.le_refl _, ?_⟩
  simp [List.forall₂_same]

theorem Stretches.nil (r : Shape) : Stretches [] r := by simp [Stretches]

/-- With the innermost axis first, an operand is aligned with the beginning of the result. -/
theorem stretches_reverse {as rs : List Nat} :
    Stretches as.reverse rs.reverse ↔
      as.length ≤ rs.length ∧ List.Forall₂ (fun x y => x = y ∨ x = 1) as (rs.take as.length) := by
  unfold Stretches
  simp only [List.length_reverse]
  constructor
  · rintro ⟨hle, h⟩
    refine ⟨hle, ?_⟩
    rw [List.drop_reverse, show rs.length - (rs.length - as.length) = as.length by omega,
      List.forall₂_reverse_iff] at h
    exact h
  · rintro ⟨hle, h⟩
    refine ⟨hle, ?_⟩
    rw [List.drop_reverse, show rs.length - (rs.length - as.length) = as.length by omega,
      List.forall₂_reverse_iff]
    exact h

/-! ## Broadcasting -/

theorem joinExtent_eq_some {a b d : Nat} (h : joinExtent a b = some d) :
    (a = d ∨ a = 1) ∧ (b = d ∨ b = 1) ∧ (d = a ∨ d = b) := by
  unfold joinExtent at h
  split at h
  · rename_i hab
    cases h
    exact ⟨hab, .inl rfl, .inr rfl⟩
  · split at h
    · cases h
      exact ⟨.inl rfl, .inr ‹_›, .inl rfl⟩
    · cases h

theorem joinInner_stretches {as bs rs : List Nat} (h : joinInner as bs = some rs) :
    Stretches as.reverse rs.reverse ∧ Stretches bs.reverse rs.reverse := by
  fun_induction joinInner as bs generalizing rs with
  | case1 bs =>
    cases h
    exact ⟨.nil _, .refl _⟩
  | case2 as =>
    cases h
    exact ⟨.refl _, .nil _⟩
  | case3 a as b bs ih =>
    simp only [Option.bind_eq_bind, Option.bind_eq_some_iff] at h
    obtain ⟨d, hd, ds, hds, hr⟩ := h
    cases hr
    obtain ⟨ha, hb, -⟩ := joinExtent_eq_some hd
    obtain ⟨hl, hr⟩ := ih hds
    rw [stretches_reverse] at hl hr
    constructor
    · rw [stretches_reverse]
      exact ⟨by simpa using hl.1, .cons ha hl.2⟩
    · rw [stretches_reverse]
      exact ⟨by simpa using hr.1, .cons hb hr.2⟩

theorem joinInner_positive {as bs rs : List Nat} (h : joinInner as bs = some rs)
    (ha : Positive as) (hb : Positive bs) : Positive rs := by
  fun_induction joinInner as bs generalizing rs with
  | case1 bs => cases h; exact hb
  | case2 as => cases h; exact ha
  | case3 a as b bs ih =>
    simp only [Option.bind_eq_bind, Option.bind_eq_some_iff] at h
    obtain ⟨d, hd, ds, hds, hr⟩ := h
    cases hr
    obtain ⟨ha, has⟩ := positive_cons.1 ha
    obtain ⟨hb, hbs⟩ := positive_cons.1 hb
    refine positive_cons.2 ⟨?_, ih hds has hbs⟩
    obtain ⟨-, -, rfl | rfl⟩ := joinExtent_eq_some hd
    · exact ha
    · exact hb

theorem broadcast_eq_ok {a b r : Shape} :
    broadcast a b = .ok r ↔ joinInner a.reverse b.reverse = some r.reverse := by
  unfold broadcast broadcast?
  cases h : joinInner a.reverse b.reverse with
  | none => simp
  | some rs =>
    simp only [Option.map_some, Except.ok.injEq, Option.some.injEq]
    exact ⟨fun e => by rw [← e, List.reverse_reverse], fun e => by rw [e, List.reverse_reverse]⟩

/-- Both operands stretch to the shape that broadcasting gives. -/
theorem stretches_of_broadcast {a b r : Shape} (h : broadcast a b = .ok r) :
    Stretches a r ∧ Stretches b r := by
  have := joinInner_stretches (broadcast_eq_ok.1 h)
  simpa only [List.reverse_reverse] using this

theorem broadcast_positive {a b r : Shape} (h : broadcast a b = .ok r)
    (ha : a.Positive) (hb : b.Positive) : r.Positive := by
  have := joinInner_positive (broadcast_eq_ok.1 h) (fun d hd => ha d (List.mem_reverse.1 hd))
    (fun d hd => hb d (List.mem_reverse.1 hd))
  exact fun d hd => this d (List.mem_reverse.2 hd)

theorem joinInner_of_forall {as rs : List Nat} (hle : as.length ≤ rs.length)
    (h : List.Forall₂ (fun x y => x = y ∨ x = 1) as (rs.take as.length)) :
    joinInner as rs = some rs ∧ joinInner rs as = some rs := by
  induction as generalizing rs with
  | nil => cases rs <;> simp [joinInner]
  | cons a as ih =>
    cases rs with
    | nil => simp at hle
    | cons r rs =>
      simp only [List.length_cons, List.take_succ_cons] at h
      obtain ⟨ha, h⟩ := List.forall₂_cons.1 h
      obtain ⟨h1, h2⟩ := ih (by simpa using hle) h
      have e1 : joinExtent a r = some r := by simp [joinExtent, ha]
      have e2 : joinExtent r a = some r := by
        unfold joinExtent
        rcases ha with rfl | rfl
        · simp
        · by_cases hr : r = 1 <;> simp [hr]
      simp [joinInner, h1, h2, e1, e2]

/-- A shape absorbs an operand that stretches to it, on either side. -/
theorem broadcast_of_stretches {a r : Shape} (h : Stretches a r) :
    broadcast a r = .ok r ∧ broadcast r a = .ok r := by
  rw [← List.reverse_reverse a, ← List.reverse_reverse r, stretches_reverse] at h
  rw [broadcast_eq_ok, broadcast_eq_ok]
  exact joinInner_of_forall h.1 h.2

theorem broadcast_self (a : Shape) : broadcast a a = .ok a := (broadcast_of_stretches (.refl a)).1

/-! ## Indices of operands -/

theorem Mem.drop {idx : List Nat} {s : Shape} (h : Mem idx s) (k : Nat) : Mem (idx.drop k) (s.drop k) := by
  induction k generalizing idx s with
  | zero => exact h
  | succ k ih =>
    cases idx with
    | nil =>
      cases s with
      | nil => trivial
      | cons d s => simp [Mem] at h
    | cons i idx =>
      cases s with
      | nil => simp [Mem] at h
      | cons d s => exact ih h.2

theorem mem_zip_restrict {a r idx : List Nat} (h : List.Forall₂ (fun x y => x = y ∨ x = 1) a r)
    (hm : Mem idx r) : Mem ((a.zip idx).map fun (d, i) => if d = 1 then 0 else i) a := by
  induction h generalizing idx with
  | nil => cases idx <;> simp_all [Mem]
  | @cons x y a r hx _ ih =>
    cases idx with
    | nil => simp [Mem] at hm
    | cons i idx =>
      refine ⟨?_, ih hm.2⟩
      have hi : i < y := hm.1
      change (if x = 1 then 0 else i) < x
      split <;> omega

/-- An index of the result is read at an index of the operand. -/
theorem Stretches.mem_restrict {a r : Shape} (h : Stretches a r) {idx : List Nat} (hm : Mem idx r) :
    Mem (restrict a idx) a := by
  unfold restrict
  rw [hm.length_eq]
  exact mem_zip_restrict h.2 (hm.drop _)

/-- An operand that has the result's shape is read where the result is. -/
theorem restrict_self {s : Shape} {idx : List Nat} (h : Mem idx s) : restrict s idx = idx := by
  unfold restrict
  rw [h.length_eq, Nat.sub_self, List.drop_zero]
  fun_induction Mem idx s with
  | case1 => rfl
  | case2 i idx d s ih =>
    simp only [List.zip_cons_cons, List.map_cons, ih h.2, List.cons.injEq, and_true]
    have := h.1
    split <;> omega
  | case3 => simp at h

end TensorLoom.Shape
