import TensorLoom.Proofs.Shape.Stretch
/-
# Broadcasting as a join

On one axis the extents form a flat order: 1 lies below every other extent, and no two
others are related. Broadcasting joins shapes axis by axis, so it is commutative and
associative, and in either law the one side is answered exactly if the other is
(`broadcast_comm`, `broadcast_assoc`). That the answer is the least shape to which both
operands stretch follows from these laws alone (`broadcast_join`).
-/

namespace TensorLoom.Shape

/-! ## One axis -/

theorem joinExtent_comm (a b : Nat) : joinExtent a b = joinExtent b a := by
  unfold joinExtent
  split_ifs <;> grind

theorem joinExtent_one_left (a : Nat) : joinExtent 1 a = some a := by simp [joinExtent]

theorem joinExtent_one_right (a : Nat) : joinExtent a 1 = some a := by
  rw [joinExtent_comm, joinExtent_one_left]

theorem joinExtent_self (a : Nat) : joinExtent a a = some a := by simp [joinExtent]

theorem joinExtent_eq_none {a b : Nat} : joinExtent a b = none ↔ a ≠ b ∧ a ≠ 1 ∧ b ≠ 1 := by
  unfold joinExtent
  split_ifs <;> grind

theorem joinExtent_assoc (a b c : Nat) :
    (joinExtent a b).bind (joinExtent · c) = (joinExtent b c).bind (joinExtent a ·) := by
  by_cases ha : a = 1
  · subst ha
    cases h : joinExtent b c <;> simp [joinExtent_one_left, h]
  by_cases hb : b = 1
  · simp [hb, joinExtent_one_left, joinExtent_one_right]
  by_cases hc : c = 1
  · subst hc
    cases h : joinExtent a b <;> simp [joinExtent_one_right, h]
  -- of extents other than 1 only equal ones join
  by_cases hab : a = b <;> by_cases hbc : b = c
  · simp [← hbc, hab, joinExtent_self]
  · simp [hab, joinExtent_self, joinExtent_eq_none.2 ⟨hbc, hb, hc⟩]
  · simp [← hbc, joinExtent_self, joinExtent_eq_none.2 ⟨hab, ha, hb⟩]
  · simp [joinExtent_eq_none.2 ⟨hab, ha, hb⟩, joinExtent_eq_none.2 ⟨hbc, hb, hc⟩]

/-! ## Axes from the innermost outwards -/

theorem joinInner_nil_left (bs : List Nat) : joinInner [] bs = some bs := by simp [joinInner]

theorem joinInner_nil_right (as : List Nat) : joinInner as [] = some as := by
  cases as <;> simp [joinInner]

theorem joinInner_cons_eq_some {a b : Nat} {as bs rs : List Nat} :
    joinInner (a :: as) (b :: bs) = some rs ↔
      ∃ d ds, joinExtent a b = some d ∧ joinInner as bs = some ds ∧ d :: ds = rs := by
  simp only [joinInner, Option.bind_eq_bind, Option.bind_eq_some_iff, Option.pure_def, Option.some.injEq]
  constructor
  · rintro ⟨d, hd, ds, hds, hrs⟩
    exact ⟨d, ds, hd, hds, hrs⟩
  · rintro ⟨d, ds, hd, hds, hrs⟩
    exact ⟨d, hd, ds, hds, hrs⟩

theorem joinInner_comm (as bs : List Nat) : joinInner as bs = joinInner bs as := by
  fun_induction joinInner as bs with
  | case1 bs => rw [joinInner_nil_right]
  | case2 as => rw [joinInner_nil_left]
  | case3 a as b bs ih => rw [joinInner, joinExtent_comm, ih]

/-- A missing axis takes part in nothing; where all three lists have an axis its extents
are joined by themselves, and so are the axes further out. -/
theorem joinInner_regroup {as bs cs ds rs : List Nat} (hab : joinInner as bs = some ds) (hrs : joinInner ds cs = some rs) :
    ∃ es, joinInner bs cs = some es ∧ joinInner as es = some rs := by
  induction as generalizing bs cs ds rs with
  | nil =>
    obtain rfl : bs = ds := by simpa [joinInner_nil_left] using hab
    exact ⟨rs, hrs, joinInner_nil_left rs⟩
  | cons a as ih =>
    cases bs with
    | nil =>
      obtain rfl : a :: as = ds := by simpa [joinInner_nil_right] using hab
      exact ⟨cs, joinInner_nil_left cs, hrs⟩
    | cons b bs =>
      cases cs with
      | nil =>
        obtain rfl : ds = rs := by simpa [joinInner_nil_right] using hrs
        exact ⟨b :: bs, joinInner_nil_right _, hab⟩
      | cons c cs =>
        obtain ⟨d, ds, hd, hds, rfl⟩ := joinInner_cons_eq_some.1 hab
        obtain ⟨r, rs, hextent, houter, rfl⟩ := joinInner_cons_eq_some.1 hrs
        have hregrouped : (joinExtent b c).bind (joinExtent a ·) = some r := by
          rw [← joinExtent_assoc, hd, Option.bind_some, hextent]
        obtain ⟨e, he, hr⟩ := Option.bind_eq_some_iff.1 hregrouped
        obtain ⟨es, hes, hrs⟩ := ih hds houter
        exact ⟨e :: es, joinInner_cons_eq_some.2 ⟨e, es, he, hes, rfl⟩,
          joinInner_cons_eq_some.2 ⟨r, rs, hr, hrs, rfl⟩⟩

/-- The other direction is the same one read from the right. -/
theorem joinInner_assoc (as bs cs rs : List Nat) :
    (∃ ds, joinInner as bs = some ds ∧ joinInner ds cs = some rs) ↔
      ∃ ds, joinInner bs cs = some ds ∧ joinInner as ds = some rs := by
  constructor
  · rintro ⟨ds, hab, hrs⟩
    exact joinInner_regroup hab hrs
  · rintro ⟨ds, hbc, hrs⟩
    rw [joinInner_comm] at hbc hrs
    obtain ⟨es, hba, hrs⟩ := joinInner_regroup hbc hrs
    exact ⟨es, (joinInner_comm as bs).trans hba, (joinInner_comm es cs).trans hrs⟩

/-! ## Shapes -/

section
variable {a b c r s : Shape}

theorem broadcast_comm : broadcast a b = .ok r ↔ broadcast b a = .ok r := by
  rw [broadcast_eq_ok, broadcast_eq_ok, joinInner_comm]

/-- Three shapes broadcast in the one grouping if and only if they do in the other. -/
theorem broadcast_assoc :
    (∃ ab, broadcast a b = .ok ab ∧ broadcast ab c = .ok r) ↔
      ∃ bc, broadcast b c = .ok bc ∧ broadcast a bc = .ok r := by
  have hreverse (p : List Nat → Prop) : (∃ ds, p ds) ↔ ∃ s : Shape, p s.reverse :=
    List.reverse_involutive.surjective.exists
  simp only [broadcast_eq_ok]
  rw [← hreverse fun ds => joinInner a.reverse b.reverse = some ds ∧ joinInner ds c.reverse = some r.reverse,
    joinInner_assoc, hreverse]

theorem broadcast_nil_left (a : Shape) : broadcast [] a = .ok a := (broadcast_of_stretches (.nil a)).1

theorem broadcast_nil_right (a : Shape) : broadcast a [] = .ok a := (broadcast_of_stretches (.nil a)).2

/-- The answer absorbs the first operand, as this one is equal to itself. -/
theorem broadcast_absorbs_left (h : broadcast a b = .ok r) : broadcast a r = .ok r := by
  obtain ⟨r', hr', habsorbed⟩ := broadcast_assoc.1 ⟨a, broadcast_self a, h⟩
  obtain rfl : r = r' := Except.ok.inj (h.symm.trans hr')
  exact habsorbed

theorem broadcast_absorbs_right (h : broadcast a b = .ok r) : broadcast b r = .ok r :=
  broadcast_absorbs_left (broadcast_comm.1 h)

/-- The answer is absorbed by whatever absorbs both operands. -/
theorem broadcast_least (h : broadcast a b = .ok r) (ha : broadcast a s = .ok s) (hb : broadcast b s = .ok s) :
    broadcast r s = .ok s := by
  obtain ⟨r', hr', habsorbed⟩ := broadcast_assoc.2 ⟨s, hb, ha⟩
  obtain rfl : r = r' := Except.ok.inj (h.symm.trans hr')
  exact habsorbed

end

/-- Broadcasting is a partial join: commutative, associative and idempotent with the scalar
shape below everything, and its answer is the least shape that absorbs both operands. -/
theorem broadcast_join (a b c : Shape) :
    (∀ r, broadcast a b = .ok r ↔ broadcast b a = .ok r) ∧
    (∀ r, (∃ ab, broadcast a b = .ok ab ∧ broadcast ab c = .ok r) ↔
      ∃ bc, broadcast b c = .ok bc ∧ broadcast a bc = .ok r) ∧
    (broadcast a [] = .ok a ∧ broadcast [] a = .ok a ∧ broadcast a a = .ok a) ∧
    ∀ r, broadcast a b = .ok r →
      broadcast a r = .ok r ∧ broadcast b r = .ok r ∧
      ∀ s, broadcast a s = .ok s → broadcast b s = .ok s → broadcast r s = .ok s := by
  refine ⟨fun r => broadcast_comm, fun r => broadcast_assoc, ?_, fun r h => ?_⟩
  · exact ⟨broadcast_nil_right a, broadcast_nil_left a, broadcast_self a⟩
  · exact ⟨broadcast_absorbs_left h, broadcast_absorbs_right h, fun s => broadcast_least h⟩

/-- A column and a row span a matrix, and what both of them stretch to so does the matrix. -/
theorem broadcast_join_columnRow :
    broadcast [3, 1] [4] = .ok [3, 4] ∧ broadcast [3, 4] [2, 3, 4] = .ok [2, 3, 4] := by
  obtain ⟨-, -, -, hjoin⟩ := broadcast_join [3, 1] [4] []
  obtain ⟨-, -, hleast⟩ := hjoin [3, 4] rfl
  exact ⟨rfl, hleast [2, 3, 4] rfl rfl⟩

end TensorLoom.Shape
