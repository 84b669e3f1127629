import Mathlib.Algebra.Order.Field.Power
import Mathlib.Algebra.Order.Field.Rat
import Mathlib.Tactic.FieldSimp
import Mathlib.Tactic.Linarith
import Mathlib.Tactic.NormNum
import Mathlib.Tactic.Positivity
import Mathlib.Tactic.Ring
import TensorLoom.Decimal.Shortest
/-
# What decimals identify

A decimal identifies the double precision number in whose interval it lies
(`identifiedBy_iff`). The intervals of different numbers have no point in common: they meet at
their ends at most, and an end belongs to the number with an even significand, of which
neighbours have one between them (`Contains.unique`). The shortest decimal of a number lies in
the interval of the number (`shortest_contains`).
-/

namespace TensorLoom.Decimal

/-- The number that is written. -/
def Scientific.value (d : Scientific) : ℚ := d.digits * (10 : ℚ) ^ d.exponent

theorem zpow_mul_pow_toNat {c : ℚ} (hc : c ≠ 0) (i : ℤ) : c ^ i * c ^ (-i).toNat = c ^ i.toNat := by
  rw [← zpow_natCast c (-i).toNat, ← zpow_natCast c i.toNat, ← zpow_add₀ hc]
  congr 1
  omega

/-- The two sides of a comparison, over one positive denominator. -/
theorem compareScaled_sides (a : ℕ) (i : ℤ) (b : ℕ) (j : ℤ) :
    ∃ k : ℚ, 0 < k ∧ ((a * Nat.pow 10 i.toNat * Nat.pow 2 (-j).toNat : ℕ) : ℚ) = a * (10 : ℚ) ^ i * k ∧
      ((b * Nat.pow 2 j.toNat * Nat.pow 10 (-i).toNat : ℕ) : ℚ) = b * (2 : ℚ) ^ j * k := by
  have hten := zpow_mul_pow_toNat (c := 10) (by norm_num) i
  have htwo := zpow_mul_pow_toNat (c := 2) (by norm_num) j
  refine ⟨10 ^ (-i).toNat * 2 ^ (-j).toNat, by positivity, ?_, ?_⟩
  · simp only [Nat.pow_eq, Nat.cast_mul, Nat.cast_pow, Nat.cast_ofNat]
    rw [← hten]
    ring
  · simp only [Nat.pow_eq, Nat.cast_mul, Nat.cast_pow, Nat.cast_ofNat]
    rw [← htwo]
    ring

section
variable {a b : ℕ} {i j : ℤ}

theorem compareScaled_eq_lt : compareScaled a i b j = .lt ↔ (a : ℚ) * (10 : ℚ) ^ i < b * (2 : ℚ) ^ j := by
  obtain ⟨k, hk, hl, hr⟩ := compareScaled_sides a i b j
  rw [compareScaled, Nat.compare_eq_lt, ← Nat.cast_lt (α := ℚ), hl, hr, mul_lt_mul_iff_left₀ hk]

theorem compareScaled_eq_gt : compareScaled a i b j = .gt ↔ b * (2 : ℚ) ^ j < (a : ℚ) * (10 : ℚ) ^ i := by
  obtain ⟨k, hk, hl, hr⟩ := compareScaled_sides a i b j
  rw [compareScaled, Nat.compare_eq_gt, ← Nat.cast_lt (α := ℚ), hl, hr, mul_lt_mul_iff_left₀ hk]

theorem compareScaled_eq_eq : compareScaled a i b j = .eq ↔ (a : ℚ) * (10 : ℚ) ^ i = b * (2 : ℚ) ^ j := by
  obtain ⟨k, hk, hl, hr⟩ := compareScaled_sides a i b j
  rw [compareScaled, Nat.compare_eq_eq, ← Nat.cast_inj (R := ℚ), hl, hr, mul_left_inj' hk.ne']

end

/-! ## Intervals -/

namespace Magnitude

variable {x y : Magnitude} {v : ℚ}

/-- The lower end in quarters of the unit in the last place. -/
def lowerQuarters (x : Magnitude) : ℕ := 4 * x.significand - (if x.narrowBelow then 1 else 2)

def lower (x : Magnitude) : ℚ := x.lowerQuarters * (2 : ℚ) ^ (x.exponent - 2)

def upper (x : Magnitude) : ℚ := (4 * x.significand + 2 : ℕ) * (2 : ℚ) ^ (x.exponent - 2)

/-- The number is the one that `v` rounds to. -/
structure Contains (x : Magnitude) (v : ℚ) : Prop where
  lower_le : x.lower ≤ v
  le_upper : v ≤ x.upper
  even : v = x.lower ∨ v = x.upper → x.significand % 2 = 0

theorem identifiedBy_iff {d : Scientific} : x.identifiedBy d = true ↔ x.Contains d.value := by
  have hiff : x.identifiedBy d = true ↔
      (x.lower < d.value ∨ x.significand % 2 = 0 ∧ d.value = x.lower) ∧
        (d.value < x.upper ∨ x.significand % 2 = 0 ∧ d.value = x.upper) := by
    simp only [identifiedBy, Bool.and_eq_true, Bool.or_eq_true, decide_eq_true_eq, compareScaled_eq_gt, compareScaled_eq_lt,
      compareScaled_eq_eq]
    rfl
  rw [hiff]
  constructor
  · rintro ⟨hl, hu⟩
    refine ⟨?_, ?_, ?_⟩
    · rcases hl with hl | ⟨-, hl⟩
      · exact hl.le
      · exact hl.ge
    · rcases hu with hu | ⟨-, hu⟩
      · exact hu.le
      · exact hu.le
    · rintro (heq | heq)
      · rcases hl with hl | ⟨heven, -⟩
        · exact absurd heq hl.ne'
        · exact heven
      · rcases hu with hu | ⟨heven, -⟩
        · exact absurd heq hu.ne
        · exact heven
  · intro h
    refine ⟨?_, ?_⟩
    · rcases h.lower_le.lt_or_eq with hlt | heq
      · exact .inl hlt
      · exact .inr ⟨h.even (.inl heq.symm), heq.symm⟩
    · rcases h.le_upper.lt_or_eq with hlt | heq
      · exact .inl hlt
      · exact .inr ⟨h.even (.inr heq), heq⟩

/-- The significand is as large as it can be, and smaller only at the least exponent. -/
structure Canonical (x : Magnitude) : Prop where
  least : -1074 ≤ x.exponent
  bound : x.significand < 9007199254740992
  full : x.exponent ≠ -1074 → 4503599627370496 ≤ x.significand
  narrow : x.narrowBelow = true ↔ x.significand = 4503599627370496 ∧ x.exponent ≠ -1074

theorem canonical_ofBits (bits : UInt64) : (ofBits bits).Canonical := by
  have hf : bits.toNat % Nat.pow 2 52 < 4503599627370496 := Nat.mod_lt _ (by decide)
  have hpow : Nat.pow 2 52 = 4503599627370496 := rfl
  unfold ofBits
  simp only
  split
  · exact ⟨Int.le_refl _, by simp only; omega, by simp, by simp⟩
  · refine ⟨by simp only; omega, by simp only; omega, fun _ => by simp only; omega, ?_⟩
    simp only [decide_eq_true_eq]
    omega

/-- Two magnitudes, the first of which is smaller: their intervals meet at the ends at most, and
not at one that belongs to both. -/
theorem Canonical.apart (hx : x.Canonical) (hy : y.Canonical)
    (hlt : x.exponent < y.exponent ∨ x.exponent = y.exponent ∧ x.significand < y.significand) :
    x.upper ≤ y.lower ∧ (x.upper = y.lower → ¬ (x.significand % 2 = 0 ∧ y.significand % 2 = 0)) := by
  -- both ends in quarters of the unit of the smaller number
  obtain ⟨k, hk⟩ : ∃ k : ℕ, y.exponent = x.exponent + k := ⟨(y.exponent - x.exponent).toNat, by omega⟩
  have hunit : (0 : ℚ) < 2 ^ (x.exponent - 2) := by positivity
  have hlower : y.lower = ((y.lowerQuarters * 2 ^ k : ℕ) : ℚ) * 2 ^ (x.exponent - 2) := by
    have hexp : y.exponent - 2 = k + (x.exponent - 2) := by omega
    rw [lower, hexp, zpow_add₀ (by norm_num), zpow_natCast]
    push_cast
    ring
  have hquarters : 4 * x.significand + 2 ≤ y.lowerQuarters * 2 ^ k ∧
      (4 * x.significand + 2 = y.lowerQuarters * 2 ^ k → ¬ (x.significand % 2 = 0 ∧ y.significand % 2 = 0)) := by
    have hbound := hx.bound
    rcases hlt with hlt | ⟨heq, hlt⟩
    · have hfull := hy.full (by have := hx.least; omega)
      have hnarrow := hy.narrow
      have hpow : 2 ≤ 2 ^ k := Nat.le_self_pow (by omega) 2
      have hdouble : y.lowerQuarters * 2 ≤ y.lowerQuarters * 2 ^ k := Nat.mul_le_mul_left _ hpow
      have hquarters : y.lowerQuarters = 4 * y.significand - (if y.narrowBelow then 1 else 2) := rfl
      generalize y.lowerQuarters * 2 ^ k = quarters at hdouble ⊢
      by_cases hy' : y.narrowBelow = true
      · have := hnarrow.1 hy'
        simp only [hy', if_true] at hquarters
        omega
      · have hne : y.significand ≠ 4503599627370496 := fun h => hy' (hnarrow.2 ⟨h, by have := hx.least; omega⟩)
        simp only [hy', Bool.false_eq_true, if_false] at hquarters
        omega
    · obtain rfl : k = 0 := by omega
      have hquarters : y.lowerQuarters = 4 * y.significand - (if y.narrowBelow then 1 else 2) := rfl
      rw [pow_zero, Nat.mul_one, hquarters]
      split <;> omega
  rw [upper, hlower]
  refine ⟨?_, fun heq => hquarters.2 ?_⟩
  · exact mul_le_mul_of_nonneg_right (Nat.cast_le.2 hquarters.1) hunit.le
  · exact Nat.cast_injective (mul_right_cancel₀ hunit.ne' heq)

theorem Contains.not_apart (hx : x.Contains v) (hy : y.Contains v) (hle : x.upper ≤ y.lower)
    (heven : x.upper = y.lower → ¬ (x.significand % 2 = 0 ∧ y.significand % 2 = 0)) : False := by
  have hupper : v = x.upper := le_antisymm hx.le_upper (hle.trans hy.lower_le)
  have hlower : v = y.lower := le_antisymm (hx.le_upper.trans hle) hy.lower_le
  exact heven (hupper.symm.trans hlower) ⟨hx.even (.inr hupper), hy.even (.inl hlower)⟩

/-- No number rounds to two. -/
theorem Contains.unique (hx : x.Contains v) (hy : y.Contains v) (hcx : x.Canonical) (hcy : y.Canonical) : x = y := by
  have hexponent : x.exponent = y.exponent := by
    rcases Int.lt_trichotomy x.exponent y.exponent with hlt | heq | hgt
    · obtain ⟨hle, heven⟩ := hcx.apart hcy (.inl hlt)
      exact (hx.not_apart hy hle heven).elim
    · exact heq
    · obtain ⟨hle, heven⟩ := hcy.apart hcx (.inl hgt)
      exact (hy.not_apart hx hle heven).elim
  have hsignificand : x.significand = y.significand := by
    rcases Nat.lt_trichotomy x.significand y.significand with hlt | heq | hgt
    · obtain ⟨hle, heven⟩ := hcx.apart hcy (.inr ⟨hexponent, hlt⟩)
      exact (hx.not_apart hy hle heven).elim
    · exact heq
    · obtain ⟨hle, heven⟩ := hcy.apart hcx (.inr ⟨hexponent.symm, hgt⟩)
      exact (hy.not_apart hx hle heven).elim
  have hnarrow : x.narrowBelow = y.narrowBelow := by
    rw [Bool.eq_iff_iff, hcx.narrow, hcy.narrow, hexponent, hsignificand]
  cases x
  cases y
  simp_all

/-! ## The shortest decimal -/

theorem onGrid?_contains {e : ℤ} {d : Scientific} (h : x.onGrid? e = some d) : x.Contains d.value := by
  unfold onGrid? at h
  simp only at h
  split at h
  · rename_i hlow hhigh
    simp only [Bool.and_eq_true] at hlow
    cases h
    split
    · exact identifiedBy_iff.1 hlow.2
    · exact identifiedBy_iff.1 hhigh
  · rename_i hlow _
    simp only [Bool.and_eq_true] at hlow
    cases h
    exact identifiedBy_iff.1 hlow.2
  · rename_i hhigh
    cases h
    exact identifiedBy_iff.1 hhigh
  · cases h

theorem value_exactly (x : Magnitude) : x.exactly.value = x.significand * (2 : ℚ) ^ x.exponent := by
  unfold exactly Scientific.value
  split
  · rename_i hpos
    have hexp : (2 : ℚ) ^ x.exponent = 2 ^ x.exponent.toNat := by
      rw [← zpow_natCast]
      congr 1
      omega
    simp [Nat.pow_eq, hexp]
  · rename_i hneg
    have hexp : x.exponent = -((-x.exponent).toNat : ℤ) := by omega
    have hten : (10 : ℚ) ^ x.exponent * 5 ^ (-x.exponent).toNat = 2 ^ x.exponent := by
      generalize (-x.exponent).toNat = n at hexp
      rw [hexp, zpow_neg, zpow_neg, zpow_natCast, zpow_natCast, show (10 : ℚ) = 2 * 5 by norm_num, mul_pow]
      field_simp
    simp only [Nat.pow_eq, Nat.cast_mul, Nat.cast_pow, Nat.cast_ofNat]
    rw [← hten]
    ring

/-- A number lies strictly inside its interval. -/
theorem covers_exactly (hx : 0 < x.significand) : x.Contains x.exactly.value := by
  have hunit : (0 : ℚ) < 2 ^ (x.exponent - 2) := by positivity
  have hvalue : x.exactly.value = (4 * x.significand : ℕ) * (2 : ℚ) ^ (x.exponent - 2) := by
    rw [value_exactly, zpow_sub₀ (by norm_num)]
    push_cast
    ring
  have hlower : x.lower < x.exactly.value := by
    rw [hvalue, lower]
    refine mul_lt_mul_of_pos_right (Nat.cast_lt.2 ?_) hunit
    unfold lowerQuarters
    split <;> omega
  have hupper : x.exactly.value < x.upper := by
    rw [hvalue, upper]
    exact mul_lt_mul_of_pos_right (Nat.cast_lt.2 (by omega)) hunit
  refine ⟨hlower.le, hupper.le, ?_⟩
  rintro (heq | heq)
  · exact absurd heq hlower.ne'
  · exact absurd heq hupper.ne

end Magnitude

theorem Scientific.value_strip (n : ℕ) (d : Scientific) : (d.strip n).value = d.value := by
  induction n generalizing d with
  | zero => rfl
  | succ n ih =>
    rw [strip]
    split
    · rename_i hzero
      have hdigits : (d.digits : ℚ) = (d.digits / 10 : ℕ) * 10 := by
        exact_mod_cast (Nat.div_mul_cancel (Nat.dvd_of_mod_eq_zero hzero.2)).symm
      rw [ih, value, value, hdigits, zpow_add_one₀ (by norm_num)]
      ring
    · rfl

/-- The shortest decimal of a number rounds to it. -/
theorem Magnitude.shortest_contains {x : Magnitude} (hx : 0 < x.significand) : x.Contains x.shortest.value := by
  unfold shortest
  rw [Scientific.value_strip]
  cases hfound : (List.range 17).findSome? fun (n : ℕ) => x.onGrid? (x.leadingPower - n) with
  | none => exact covers_exactly hx
  | some d =>
    obtain ⟨n, -, hd⟩ := List.exists_of_findSome?_eq_some hfound
    exact onGrid?_contains hd

end TensorLoom.Decimal
