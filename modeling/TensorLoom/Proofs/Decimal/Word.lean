import TensorLoom.Proofs.Decimal.Reading
/-
# Numbers and their bits

A number is determined by its bits, as there is one that is not a number. Which class a number
belongs to is read off the exponent: all ones are an infinity or no number (`toBits_of_isInf`,
`toBits_of_isNaN`), and everything else is finite (`toBits_finite`).
-/

namespace TensorLoom.Decimal

open Float.Model Float.Model.UnpackedFloat

instance decidableValid (b : BitVec Format.binary64.numBits) : Decidable (Format.binary64.Valid b) :=
  decidable_of_iff (unpackExponent b = (-1#_) → unpackMantissa b ≠ 0#_ → b = packedNaN Format.binary64)
    ⟨fun h => ⟨h⟩, fun h => h.eq_packedNaN⟩

/-- The number with these bits. -/
def float? (bits : UInt64) : Option Float := if h : Format.binary64.Valid bits.toBitVec then some ⟨⟨bits, h⟩⟩ else none

theorem float?_toBits (x : Float) : float? x.toBits = some x := by
  have hvalid : Format.binary64.Valid x.toBits.toBitVec := x.toModel.valid
  rw [float?, dif_pos hvalid]
  rfl

/-- Bits of the number that is none. -/
def nanBits : UInt64 := 0x7ff8000000000000

/-- Bits of the positive infinity. -/
def infinityBits : UInt64 := 0x7ff0000000000000

/-- The bits with the sign set. -/
def negateBits (bits : UInt64) : UInt64 := UInt64.ofNat (bits.toNat + 2 ^ 63)

theorem toNat_infinityBits : infinityBits.toNat = 2047 * 2 ^ 52 := rfl

theorem toNat_negateBits {bits : UInt64} (h : bits.toNat < 2 ^ 63) : (negateBits bits).toNat = bits.toNat + 2 ^ 63 := by
  rw [negateBits, UInt64.toNat_ofNat']
  omega

section
variable (bits : UInt64)

theorem toNat_unpackExponent : (@unpackExponent Format.binary64 bits.toBitVec).toNat = bits.toNat / 2 ^ 52 % 2 ^ 11 := by
  simp [unpackExponent, BitVec.extractLsb_toNat, Nat.shiftRight_eq_div_pow]

theorem toNat_unpackMantissa : (@unpackMantissa Format.binary64 bits.toBitVec).toNat = bits.toNat % 2 ^ 52 := by
  simp [unpackMantissa, BitVec.extractLsb_toNat]

theorem toNat_unpackSign : (@unpackSign Format.binary64 bits.toBitVec).toNat = bits.toNat / 2 ^ 63 := by
  have hlt := bits.toNat_lt
  unfold unpackSign
  simp [BitVec.extractLsb_toNat, Nat.shiftRight_eq_div_pow]
  omega

theorem unpackExponent_eq_ones : @unpackExponent Format.binary64 bits.toBitVec = -1#_ ↔ bits.toNat / 2 ^ 52 % 2 ^ 11 = 2047 := by
  rw [← BitVec.toNat_inj, toNat_unpackExponent]
  rfl

theorem unpackMantissa_eq_zero : @unpackMantissa Format.binary64 bits.toBitVec = 0#_ ↔ bits.toNat % 2 ^ 52 = 0 := by
  rw [← BitVec.toNat_inj, toNat_unpackMantissa]
  rfl

theorem unpackSign_eq_zero : @unpackSign Format.binary64 bits.toBitVec = 0#1 ↔ bits.toNat / 2 ^ 63 = 0 := by
  rw [← BitVec.toNat_inj, toNat_unpackSign]
  rfl

end

/-! ## Classes -/

/-- What the number unpacks to where the exponent is all ones. -/
theorem unpack_special {x : Float} (h : x.toBits.toNat / 2 ^ 52 % 2 ^ 11 = 2047) :
    x.toModel.unpack = if x.toBits.toNat % 2 ^ 52 = 0 then .infinity (Sign.ofBitVec (@unpackSign Format.binary64 x.toBits.toBitVec))
      else .notANumber := by
  show UnpackedFloat.unpack Format.binary64 x.toBits.toBitVec = _
  unfold UnpackedFloat.unpack
  rw [if_pos ((unpackExponent_eq_ones x.toBits).2 h)]
  exact if_congr (unpackMantissa_eq_zero x.toBits) rfl rfl

theorem unpack_finite {x : Float} (h : x.toBits.toNat / 2 ^ 52 % 2 ^ 11 ≠ 2047) :
    x.toModel.unpack.isNaN = false ∧ x.toModel.unpack.isInf = false := by
  show (UnpackedFloat.unpack Format.binary64 x.toBits.toBitVec).isNaN = false ∧
    (UnpackedFloat.unpack Format.binary64 x.toBits.toBitVec).isInf = false
  unfold UnpackedFloat.unpack
  rw [if_neg fun hones => h ((unpackExponent_eq_ones x.toBits).1 hones)]
  by_cases hexponent : @unpackExponent Format.binary64 x.toBits.toBitVec = 0#_
  · rw [if_pos hexponent]
    by_cases hmantissa : @unpackMantissa Format.binary64 x.toBits.toBitVec = 0#_
    · rw [dif_pos hmantissa]
      exact ⟨rfl, rfl⟩
    · rw [dif_neg hmantissa]
      exact ⟨rfl, rfl⟩
  · rw [if_neg hexponent]
    exact ⟨rfl, rfl⟩

theorem toBits_of_isNaN {x : Float} (h : x.isNaN = true) : x.toBits = nanBits := by
  have hnan : x.toModel.unpack.isNaN = true := h
  by_cases hones : x.toBits.toNat / 2 ^ 52 % 2 ^ 11 = 2047
  · rw [unpack_special hones] at hnan
    split at hnan
    · cases hnan
    · rename_i hzero
      have hvalid : Format.binary64.Valid x.toBits.toBitVec := x.toModel.valid
      exact UInt64.toBitVec_inj.1 (hvalid.eq_packedNaN ((unpackExponent_eq_ones _).2 hones) (mt (unpackMantissa_eq_zero _).1 hzero))
  · rw [(unpack_finite hones).1] at hnan
    cases hnan

theorem pos_iff_of_infinity {x : Float} {s : Sign} (h : x.toModel.unpack = .infinity s) : x > 0.0 ↔ s = .positive := by
  have hzero : (0.0 : Float).toModel.unpack = .zero .positive := by
    have hbits : (0.0 : Float).toBits = 0 := by decide +kernel
    show UnpackedFloat.unpack Format.binary64 (0.0 : Float).toBits.toBitVec = _
    rw [hbits]
    rfl
  have hlt : x > 0.0 ↔ UnpackedFloat.lt (0.0 : Float).toModel.unpack x.toModel.unpack = true := by
    show decide ((0.0 : Float).toModel < x.toModel) = true ↔ _
    rw [decide_eq_true_iff]
    rfl
  rw [hlt, h, hzero]
  cases s with
  | negative =>
    constructor
    · intro hless
      cases hless
    · intro hsign
      cases hsign
  | positive => exact ⟨fun _ => rfl, fun _ => rfl⟩

theorem toBits_of_isInf {x : Float} (h : x.isInf = true) :
    x.toBits = if x > 0.0 then infinityBits else negateBits infinityBits := by
  have hinf : x.toModel.unpack.isInf = true := h
  by_cases hones : x.toBits.toNat / 2 ^ 52 % 2 ^ 11 = 2047
  · have hunpack := unpack_special hones
    split at hunpack
    · rename_i hzero
      have hpos := pos_iff_of_infinity hunpack
      have hlt := x.toBits.toNat_lt
      unfold Sign.ofBitVec at hpos
      simp only [unpackSign_eq_zero] at hpos
      apply UInt64.toNat_inj.1
      by_cases hsign : x.toBits.toNat / 2 ^ 63 = 0
      · rw [if_pos (hpos.2 (by rw [if_pos hsign]))]
        rw [toNat_infinityBits]
        omega
      · rw [if_neg fun hp => by
          have := hpos.1 hp
          rw [if_neg hsign] at this
          cases this]
        rw [toNat_negateBits (by rw [toNat_infinityBits]; omega), toNat_infinityBits]
        omega
    · rw [hunpack] at hinf
      cases hinf
  · rw [(unpack_finite hones).2] at hinf
    cases hinf

theorem toBits_finite {x : Float} (hnan : x.isNaN = false) (hinf : x.isInf = false) :
    x.toBits.toNat % 2 ^ 63 < 2047 * 2 ^ 52 := by
  have hones : x.toBits.toNat / 2 ^ 52 % 2 ^ 11 ≠ 2047 := by
    intro hones
    have hunpack := unpack_special hones
    split at hunpack
    · have : x.toModel.unpack.isInf = false := hinf
      rw [hunpack] at this
      cases this
    · have : x.toModel.unpack.isNaN = false := hnan
      rw [hunpack] at this
      cases this
  have hlt := x.toBits.toNat_lt
  omega

end TensorLoom.Decimal
