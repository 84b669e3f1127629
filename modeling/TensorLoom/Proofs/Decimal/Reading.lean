import TensorLoom.Decimal.Literal
import TensorLoom.Proofs.Decimal.Interval
/-
# Reading number literals

A numeral is read as a decimal, and a decimal as the double precision number that it identifies.
Both are inverse to writing: the text of a finite number is a numeral (`sizeText_eq`), and the
number is read back from it (`readSize?_sizeText`).
-/

namespace TensorLoom.Decimal

/-! ## Numerals -/

/-- The natural number with these digits, if they are written as it is. -/
def natural? (ds : List Char) : Option ℕ :=
  let n := Nat.ofDigitChars 10 ds 0
  if Nat.toDigits 10 n = ds then some n else none

theorem natural?_toDigits (n : ℕ) : natural? (Nat.toDigits 10 n) = some n := by
  simp [natural?, Nat.ofDigitChars_ten_toDigits]

def integer? : List Char → Option ℤ
  | '-' :: ds => (natural? ds).map fun (n : ℕ) => -(n : ℤ)
  | ds => (natural? ds).map fun (n : ℕ) => (n : ℤ)

theorem isDigit_toDigits (n : ℕ) : ∀ c ∈ Nat.toDigits 10 n, c.isDigit = true := fun _ hc =>
  Nat.isDigit_of_mem_toDigits (by decide) (by decide) hc

theorem toDigits_head (n : ℕ) : ∃ c cs, Nat.toDigits 10 n = c :: cs ∧ c.isDigit = true := by
  obtain ⟨c, cs, hcs⟩ := List.exists_cons_of_ne_nil (Nat.toDigits_ne_nil (n := n) (b := 10))
  exact ⟨c, cs, hcs, isDigit_toDigits n c (hcs ▸ List.mem_cons_self)⟩

theorem toList_toString_nat (n : ℕ) : (toString n).toList = Nat.toDigits 10 n := by
  rw [Nat.toString_eq_repr, Nat.toList_repr]

theorem toList_toString_int (z : ℤ) :
    (toString z).toList = if 0 ≤ z then Nat.toDigits 10 z.toNat else '-' :: Nat.toDigits 10 (-z).toNat := by
  show z.repr.toList = _
  rw [Int.repr_eq_if]
  split
  · rw [Nat.toList_repr]
  · rw [String.toList_append, Nat.toList_repr]
    rfl

theorem integer?_toString (z : ℤ) : integer? (toString z).toList = some z := by
  rw [toList_toString_int]
  split
  · rename_i hz
    obtain ⟨c, cs, hcs, hc⟩ := toDigits_head z.toNat
    have hminus : c ≠ '-' := by
      rintro rfl
      exact absurd hc (by decide)
    have hnat := natural?_toDigits z.toNat
    rw [hcs] at hnat ⊢
    rw [integer?]
    · rw [hnat, Option.map_some]
      exact congrArg some (Int.toNat_of_nonneg hz)
    · rintro ds heq
      exact hminus (List.cons.inj heq).1
  · rw [integer?, natural?_toDigits, Option.map_some]
    exact congrArg some (by omega)

/-- A number as it is spelled: digits, digits behind a point, and a power of ten. -/
structure Numeral where
  whole : List Char
  fraction : Option (List Char)
  power : Option ℤ

def fractionText : Option (List Char) → List Char
  | some ds => '.' :: ds
  | none => []

def powerText : Option ℤ → List Char
  | some e => 'e' :: (toString e).toList
  | none => []

namespace Numeral

def text (n : Numeral) : List Char := n.whole ++ (fractionText n.fraction ++ powerText n.power)

/-- There are digits in front of the point, and nothing but digits on either side of it. -/
structure WellFormed (n : Numeral) : Prop where
  ne_nil : n.whole ≠ []
  whole : ∀ c ∈ n.whole, c.isDigit = true
  fraction : ∀ c ∈ n.fraction.getD [], c.isDigit = true

/-- The decimal that is spelled. -/
def decimal (n : Numeral) : Scientific :=
  ⟨Nat.ofDigitChars 10 (n.whole ++ n.fraction.getD []) 0, n.power.getD 0 - (n.fraction.getD []).length⟩

end Numeral

/-- The decimal with these digits, as many of them behind the point as `places` says, and the
power of ten that follows. -/
def readPower? (ds : List Char) (places : ℕ) : List Char → Option Scientific
  | [] => some ⟨Nat.ofDigitChars 10 ds 0, 0 - places⟩
  | 'e' :: text => (integer? text).map fun (e : ℤ) => ⟨Nat.ofDigitChars 10 ds 0, e - places⟩
  | _ => none

/-- The decimal with these digits in front of the point, and what follows them. -/
def readFraction? (whole : List Char) : List Char → Option Scientific
  | '.' :: text =>
    let fraction := text.takeWhile Char.isDigit
    readPower? (whole ++ fraction) fraction.length (text.dropWhile Char.isDigit)
  | text => readPower? whole 0 text

/-- The decimal that is spelled. -/
def read? (text : List Char) : Option Scientific :=
  readFraction? (text.takeWhile Char.isDigit) (text.dropWhile Char.isDigit)

theorem readPower?_powerText (ds : List Char) (places : ℕ) (power : Option ℤ) :
    readPower? ds places (powerText power) = some ⟨Nat.ofDigitChars 10 ds 0, power.getD 0 - places⟩ := by
  cases power with
  | none => rfl
  | some e =>
    rw [powerText, readPower?, integer?_toString]
    rfl

/-- Digits end where something else begins. -/
theorem span_digits {ds rest : List Char} (hds : ∀ c ∈ ds, c.isDigit = true)
    (hrest : ∀ c cs, rest = c :: cs → c.isDigit = false) :
    (ds ++ rest).takeWhile Char.isDigit = ds ∧ (ds ++ rest).dropWhile Char.isDigit = rest := by
  rw [List.takeWhile_append_of_pos hds, List.dropWhile_append_of_pos hds]
  cases rest with
  | nil => simp
  | cons c cs =>
    have hc := hrest c cs rfl
    simp [hc]

theorem powerText_head (power : Option ℤ) (c : Char) (cs : List Char) (h : powerText power = c :: cs) : c.isDigit = false := by
  cases power with
  | none => cases h
  | some e =>
    cases h
    rfl

theorem tail_head (fraction : Option (List Char)) (power : Option ℤ) (c : Char) (cs : List Char)
    (h : fractionText fraction ++ powerText power = c :: cs) : c.isDigit = false := by
  cases fraction with
  | none => exact powerText_head power c cs h
  | some ds =>
    cases h
    rfl

theorem readFraction?_text (whole : List Char) {fraction : Option (List Char)} (power : Option ℤ)
    (hfraction : ∀ c ∈ fraction.getD [], c.isDigit = true) :
    readFraction? whole (fractionText fraction ++ powerText power) = some (Numeral.decimal ⟨whole, fraction, power⟩) := by
  cases fraction with
  | some ds =>
    have hds : ∀ c ∈ ds, c.isDigit = true := hfraction
    have hspan := span_digits hds (powerText_head power)
    rw [fractionText, List.cons_append, readFraction?]
    simp only [hspan.1, hspan.2]
    exact readPower?_powerText (whole ++ ds) ds.length power
  | none =>
    have hread : readPower? whole 0 (powerText power) = some (Numeral.decimal ⟨whole, none, power⟩) := by
      rw [readPower?_powerText, Numeral.decimal, Option.getD_none, List.append_nil, List.length_nil]
    rw [fractionText, List.nil_append]
    cases power <;> exact hread

theorem read?_text {n : Numeral} (hn : n.WellFormed) : read? n.text = some n.decimal := by
  have hspan := span_digits hn.whole (tail_head n.fraction n.power)
  rw [read?, Numeral.text, hspan.1, hspan.2]
  exact readFraction?_text n.whole n.power hn.fraction

/-! ## Written decimals -/

/-- The spelling of a decimal that is not zero. -/
def Scientific.numeral (d : Scientific) : Numeral :=
  let ds := Nat.toDigits 10 d.digits
  let lead := d.exponent + ds.length - 1
  if -4 ≤ lead ∧ lead < 16 then
    if lead < 0 then ⟨['0'], some (List.replicate (-lead - 1).toNat '0' ++ ds), none⟩
    else
      let whole := lead.toNat + 1
      ⟨ds.take whole ++ List.replicate (whole - ds.length) '0', some (if ds.drop whole = [] then ['0'] else ds.drop whole), none⟩
  else ⟨ds.take 1, if ds.drop 1 = [] then none else some (ds.drop 1), some lead⟩

theorem Scientific.write_eq (d : Scientific) : d.write = d.numeral.text := by
  unfold write numeral positional scientific
  simp only
  split
  · split
    · simp only [Numeral.text, fractionText, powerText, List.append_nil, List.cons_append, List.nil_append]
    · simp only [Numeral.text, fractionText, powerText, List.append_nil, List.append_assoc]
  · split <;> simp only [Numeral.text, fractionText, powerText, List.append_assoc, List.nil_append]

theorem Scientific.numeral_wellFormed (d : Scientific) : d.numeral.WellFormed := by
  have hds := isDigit_toDigits d.digits
  have hne : Nat.toDigits 10 d.digits ≠ [] := Nat.toDigits_ne_nil
  have htake : ∀ n, ∀ c ∈ (Nat.toDigits 10 d.digits).take n, c.isDigit = true := fun n c hc => hds c (List.mem_of_mem_take hc)
  have hdrop : ∀ n, ∀ c ∈ (Nat.toDigits 10 d.digits).drop n, c.isDigit = true := fun n c hc => hds c (List.mem_of_mem_drop hc)
  have hzeros : ∀ n, ∀ c ∈ List.replicate n '0', c.isDigit = true := by
    intro n c hc
    rw [(List.mem_replicate.1 hc).2]
    rfl
  unfold numeral
  simp only
  split
  · split
    · refine ⟨by simp, by simp, fun c hc => ?_⟩
      rcases List.mem_append.1 hc with hc | hc
      · exact hzeros _ c hc
      · exact hds c hc
    · refine ⟨by simp [hne], fun c hc => ?_, fun c hc => ?_⟩
      · rcases List.mem_append.1 hc with hc | hc
        · exact htake _ c hc
        · exact hzeros _ c hc
      · simp only [Option.getD_some] at hc
        split at hc
        · exact (List.mem_singleton.1 hc) ▸ rfl
        · exact hdrop _ c hc
  · refine ⟨by simp [hne], htake 1, fun c hc => ?_⟩
    simp only at hc
    split at hc
    · cases hc
    · exact hdrop 1 c hc

theorem ofDigitChars_zeros (n : ℕ) (ds : List Char) :
    Nat.ofDigitChars 10 (List.replicate n '0' ++ ds) 0 = Nat.ofDigitChars 10 ds 0 := by
  rw [Nat.ofDigitChars_append, Nat.ofDigitChars_replicate_zero, Nat.mul_zero]

/-- What is spelled has the value of the decimal. -/
theorem Scientific.value_numeral (d : Scientific) : d.numeral.decimal.value = d.value := by
  have hread : Nat.ofDigitChars 10 (Nat.toDigits 10 d.digits) 0 = d.digits := Nat.ofDigitChars_ten_toDigits
  have hpos : 0 < (Nat.toDigits 10 d.digits).length := Nat.length_toDigits_pos
  have hsame : ∀ e : Scientific, e.digits = d.digits → e.exponent = d.exponent → e.value = d.value := by
    intro e hdigits hexponent
    rw [value, value, hdigits, hexponent]
  unfold numeral Numeral.decimal
  simp only
  generalize Nat.toDigits 10 d.digits = ds at hread hpos
  split
  · rename_i hlead
    split
    · refine hsame _ ?_ ?_
      · simp only [Option.getD_some]
        rw [List.singleton_append]
        exact (ofDigitChars_zeros ((-(d.exponent + ds.length - 1) - 1).toNat + 1) ds).trans hread
      · simp only [Option.getD_some, Option.getD_none, List.length_append, List.length_replicate]
        omega
    · by_cases hdrop : ds.drop ((d.exponent + ds.length - 1).toNat + 1) = []
      · -- zeros fill the places up to the point, and one follows it
        have hlength := List.drop_eq_nil_iff.1 hdrop
        obtain ⟨k, hk⟩ : ∃ k : ℕ, d.exponent = k := ⟨d.exponent.toNat, by omega⟩
        have hfill : (d.exponent + ds.length - 1).toNat + 1 - ds.length = k := by omega
        have hdigits : Nat.ofDigitChars 10 (ds ++ List.replicate k '0' ++ ['0']) 0 = 10 * (Nat.pow 10 k * d.digits) := by
          rw [Nat.ofDigitChars_append, Nat.ofDigitChars_append, Nat.ofDigitChars_replicate_zero, hread]
          rfl
        simp only [hdrop, if_true, Option.getD_some, List.take_of_length_le hlength, hfill, hdigits]
        simp only [value, hk, Nat.pow_eq, Nat.cast_mul, Nat.cast_pow, Nat.cast_ofNat, Option.getD_none,
          List.length_singleton, Nat.cast_one, Int.zero_sub, zpow_neg_one, zpow_natCast]
        ring
      · have hlength : (d.exponent + ds.length - 1).toNat + 1 < ds.length :=
          Nat.lt_of_not_le fun hle => hdrop (List.drop_eq_nil_iff.2 hle)
        have hfill : (d.exponent + ds.length - 1).toNat + 1 - ds.length = 0 := by omega
        refine hsame _ ?_ ?_
        · simp only [hdrop, if_false, Option.getD_some, hfill, List.replicate_zero, List.append_nil, List.take_append_drop, hread]
        · simp only [hdrop, if_false, Option.getD_some, Option.getD_none, List.length_drop]
          omega
  · by_cases hdrop : ds.drop 1 = []
    · have hlength := List.drop_eq_nil_iff.1 hdrop
      refine hsame _ ?_ ?_
      · simp only [hdrop, if_true, Option.getD_none, List.append_nil, List.take_of_length_le hlength, hread]
      · simp only [hdrop, if_true, Option.getD_none, Option.getD_some, List.length_nil]
        omega
    · refine hsame _ ?_ ?_
      · simp only [hdrop, if_false, Option.getD_some, List.take_append_drop, hread]
      · simp only [hdrop, if_false, Option.getD_some, List.length_drop]
        omega

/-! ## The number that a decimal identifies -/

/-- How often the power of two goes into the decimal. -/
def Scientific.quotient (d : Scientific) (e : ℤ) : ℕ :=
  d.digits * Nat.pow 10 d.exponent.toNat * Nat.pow 2 (-e).toNat / (Nat.pow 2 e.toNat * Nat.pow 10 (-d.exponent).toNat)

theorem Scientific.quotient_spec (d : Scientific) (e : ℤ) :
    (d.quotient e : ℚ) * 2 ^ e ≤ d.value ∧ d.value < (d.quotient e + 1) * 2 ^ e := by
  obtain ⟨k, hk, hnum, hden⟩ := compareScaled_sides d.digits d.exponent 1 e
  rw [Nat.one_mul, Nat.cast_one, one_mul] at hden
  have hpos : 0 < Nat.pow 2 e.toNat * Nat.pow 10 (-d.exponent).toNat :=
    Nat.mul_pos (Nat.pow_pos (by decide)) (Nat.pow_pos (by decide))
  constructor
  · have hle : (_ : ℚ) ≤ _ := Nat.cast_le.2 (Nat.div_mul_le_self
      (d.digits * Nat.pow 10 d.exponent.toNat * Nat.pow 2 (-e).toNat) (Nat.pow 2 e.toNat * Nat.pow 10 (-d.exponent).toNat))
    rw [Nat.cast_mul, hnum, hden, ← mul_assoc] at hle
    exact le_of_mul_le_mul_right hle hk
  · have hlt : (_ : ℚ) < _ := Nat.cast_lt.2 (Nat.lt_mul_div_succ
      (d.digits * Nat.pow 10 d.exponent.toNat * Nat.pow 2 (-e).toNat) hpos)
    rw [hnum, Nat.cast_mul, hden, Nat.cast_add, Nat.cast_one, mul_comm, mul_comm (2 ^ e) k, mul_assoc, mul_comm (2 ^ e)] at hlt
    exact lt_of_mul_lt_mul_left hlt hk.le

/-- The significand is one of the two numbers next to the quotient. -/
theorem Magnitude.Contains.significand_mem {x : Magnitude} {d : Scientific} (h : x.Contains d.value) :
    x.significand = d.quotient x.exponent ∨ x.significand = d.quotient x.exponent + 1 := by
  have hunit : (0 : ℚ) < 2 ^ x.exponent := by positivity
  have hquarter : (2 : ℚ) ^ (x.exponent - 2) = 2 ^ x.exponent / 4 := by
    rw [zpow_sub₀ (by norm_num)]
    norm_num
  have hlower : (4 * x.significand : ℚ) ≤ x.lowerQuarters + 2 := by
    have : 4 * x.significand ≤ x.lowerQuarters + 2 := by
      unfold lowerQuarters
      split <;> omega
    exact_mod_cast this
  have hle : ((x.significand : ℚ) - 1 / 2) * 2 ^ x.exponent ≤ d.value := by
    refine le_trans ?_ h.lower_le
    rw [lower, hquarter]
    nlinarith
  have hge : d.value ≤ (x.significand + 1 / 2) * 2 ^ x.exponent := by
    refine h.le_upper.trans (le_of_eq ?_)
    rw [upper, hquarter]
    push_cast
    ring
  obtain ⟨hfloor, hceil⟩ := d.quotient_spec x.exponent
  have hlow : (d.quotient x.exponent : ℚ) ≤ x.significand + 1 / 2 := le_of_mul_le_mul_right (hfloor.trans hge) hunit
  have hhigh : (x.significand : ℚ) - 1 / 2 < d.quotient x.exponent + 1 := lt_of_mul_lt_mul_right (hle.trans_lt hceil) hunit.le
  have hlow' : d.quotient x.exponent < x.significand + 1 := by
    have : (d.quotient x.exponent : ℚ) < x.significand + 1 := by linarith
    exact_mod_cast this
  have hhigh' : x.significand < d.quotient x.exponent + 2 := by
    have : (x.significand : ℚ) < d.quotient x.exponent + 2 := by linarith
    exact_mod_cast this
  omega

/-- Bits of the number with the significand `s` and the exponent that is `k` above the least. The
leading bit of a full significand carries into the exponent. -/
def magnitudeBits (k s : ℕ) : UInt64 := UInt64.ofNat (k * 2 ^ 52 + s)

/-- Bits of the number with this exponent that the decimal identifies. -/
def Scientific.bitsAt? (d : Scientific) (k : ℕ) : Option UInt64 :=
  let q := d.quotient (k - 1074)
  ([q, q + 1].find? fun s => s < 2 ^ 53 && (Magnitude.ofBits (magnitudeBits k s)).identifiedBy d).map (magnitudeBits k)

/-- Bits of the number that the decimal identifies. -/
def Scientific.bits? (d : Scientific) : Option UInt64 := (List.range 2046).findSome? d.bitsAt?

theorem ofBits_eq (bits : UInt64) : Magnitude.ofBits bits =
    if bits.toNat / 2 ^ 52 % 2 ^ 11 = 0 then ⟨bits.toNat % 2 ^ 52, -1074, false⟩
    else ⟨2 ^ 52 + bits.toNat % 2 ^ 52, (bits.toNat / 2 ^ 52 % 2 ^ 11 : ℕ) - 1075,
      decide (bits.toNat % 2 ^ 52 = 0 ∧ 1 < bits.toNat / 2 ^ 52 % 2 ^ 11)⟩ := rfl

theorem toNat_magnitudeBits {k s : ℕ} (hk : k < 2046) (hs : s < 2 ^ 53) :
    (magnitudeBits k s).toNat = k * 2 ^ 52 + s := by
  rw [magnitudeBits, UInt64.toNat_ofNat']
  omega

/-- The exponent and the significand of a finite number. -/
theorem exists_magnitudeBits {bits : UInt64} (hfinite : bits.toNat < 2047 * 2 ^ 52) :
    ∃ k s, k < 2046 ∧ s < 2 ^ 53 ∧ bits = magnitudeBits k s ∧
      (Magnitude.ofBits bits).significand = s ∧ (Magnitude.ofBits bits).exponent = k - 1074 := by
  have hbits : ∀ k s, k < 2046 → s < 2 ^ 53 → bits.toNat = k * 2 ^ 52 + s → bits = magnitudeBits k s :=
    fun k s hk hs heq => UInt64.toNat_inj.1 (heq.trans (toNat_magnitudeBits hk hs).symm)
  rw [ofBits_eq]
  split
  · refine ⟨0, bits.toNat % 2 ^ 52, by decide, by omega, hbits _ _ (by decide) (by omega) (by omega), rfl, by simp⟩
  · refine ⟨bits.toNat / 2 ^ 52 % 2 ^ 11 - 1, 2 ^ 52 + bits.toNat % 2 ^ 52, by omega, by omega,
      hbits _ _ (by omega) (by omega) (by omega), rfl, ?_⟩
    simp only
    omega

theorem ofBits_injective {a b : UInt64} (ha : a.toNat < 2 ^ 63) (hb : b.toNat < 2 ^ 63)
    (h : Magnitude.ofBits a = Magnitude.ofBits b) : a = b := by
  have hsignificand := congrArg Magnitude.significand h
  have hexponent := congrArg Magnitude.exponent h
  apply UInt64.toNat_inj.1
  simp only [ofBits_eq] at hsignificand hexponent
  split at hsignificand <;> split at hsignificand <;> simp_all only [if_true, if_false] <;> omega

theorem Scientific.bitsAt?_contains {d : Scientific} {k : ℕ} {bits : UInt64} (hk : k < 2046) (h : d.bitsAt? k = some bits) :
    (Magnitude.ofBits bits).Contains d.value ∧ bits.toNat < 2 ^ 63 := by
  obtain ⟨s, hs, rfl⟩ := Option.map_eq_some_iff.1 h
  have hfound := List.find?_some hs
  simp only [Bool.and_eq_true, decide_eq_true_eq] at hfound
  rw [toNat_magnitudeBits hk hfound.1]
  exact ⟨Magnitude.identifiedBy_iff.1 hfound.2, by omega⟩

/-- A finite number is found from each decimal that identifies it. -/
theorem Scientific.bits?_of_contains {d : Scientific} {bits : UInt64} (hfinite : bits.toNat < 2047 * 2 ^ 52)
    (h : (Magnitude.ofBits bits).Contains d.value) : d.bits? = some bits := by
  -- what is found is the number, as no other is identified
  have hunique : ∀ k < 2046, ∀ found, d.bitsAt? k = some found → found = bits := by
    intro k hk found hfound
    obtain ⟨hcontains, hbound⟩ := bitsAt?_contains hk hfound
    exact ofBits_injective hbound (by omega) (hcontains.unique h (Magnitude.canonical_ofBits _) (Magnitude.canonical_ofBits _))
  -- and at its own exponent something is found
  obtain ⟨k, s, hk, hs, hbits, hsignificand, hexponent⟩ := exists_magnitudeBits hfinite
  have hexists : d.bitsAt? k ≠ none := by
    intro hnone
    have hmem := h.significand_mem
    rw [hsignificand, hexponent] at hmem
    have hnot := List.find?_eq_none.1 (Option.map_eq_none_iff.1 hnone) s (by simpa using hmem)
    rw [← hbits, Magnitude.identifiedBy_iff.2 h, Bool.and_true, decide_eq_true_eq] at hnot
    exact hnot hs
  unfold bits?
  cases hfind : (List.range 2046).findSome? d.bitsAt? with
  | none => exact absurd (List.findSome?_eq_none_iff.1 hfind k (List.mem_range.2 hk)) hexists
  | some found =>
    obtain ⟨k', hk', hfound⟩ := List.exists_of_findSome?_eq_some hfind
    rw [hunique k' (List.mem_range.1 hk') found hfound]

/-! ## Finite numbers -/

/-- The spelling of the size of a finite number. -/
def sizeNumeral (bits : UInt64) : Numeral :=
  let x := Magnitude.ofBits bits
  if x.significand = 0 then ⟨['0'], some ['0'], none⟩ else x.shortest.numeral

theorem toList_finiteText (bits : UInt64) :
    (finiteText bits).toList = (if bits.toNat < 2 ^ 63 then [] else ['-']) ++ (sizeNumeral bits).text := by
  unfold finiteText sizeNumeral
  simp only [String.toList_ofList, Nat.pow_eq]
  congr 1
  split
  · rfl
  · exact Scientific.write_eq _

theorem sizeNumeral_wellFormed (bits : UInt64) : (sizeNumeral bits).WellFormed := by
  unfold sizeNumeral
  simp only
  split
  · exact ⟨by simp, by simp, by simp⟩
  · exact Scientific.numeral_wellFormed _

theorem sizeNumeral_contains (bits : UInt64) : (Magnitude.ofBits bits).Contains (sizeNumeral bits).decimal.value := by
  unfold sizeNumeral
  simp only
  split
  · rename_i hzero
    have hlower : (Magnitude.ofBits bits).lower = 0 := by simp [Magnitude.lower, Magnitude.lowerQuarters, hzero]
    have hvalue : (Numeral.decimal ⟨['0'], some ['0'], none⟩).value = 0 := by
      have hdigits : (Numeral.decimal ⟨['0'], some ['0'], none⟩).digits = 0 := rfl
      simp [Scientific.value, hdigits]
    rw [hvalue]
    exact ⟨hlower.le, by unfold Magnitude.upper; positivity, fun _ => by rw [hzero]⟩
  · rename_i hzero
    rw [Scientific.value_numeral]
    exact Magnitude.shortest_contains (Nat.pos_of_ne_zero hzero)

/-- Bits of the number of this size, without a sign. -/
def readSize? (text : List Char) : Option UInt64 := (read? text).bind Scientific.bits?

theorem ofBits_unsigned (bits : UInt64) :
    Magnitude.ofBits (UInt64.ofNat (bits.toNat % 2 ^ 63)) = Magnitude.ofBits bits := by
  have hnat : (UInt64.ofNat (bits.toNat % 2 ^ 63)).toNat = bits.toNat % 2 ^ 63 := by
    rw [UInt64.toNat_ofNat']
    omega
  have hexponent : bits.toNat % 2 ^ 63 / 2 ^ 52 % 2 ^ 11 = bits.toNat / 2 ^ 52 % 2 ^ 11 := by omega
  have hfraction : bits.toNat % 2 ^ 63 % 2 ^ 52 = bits.toNat % 2 ^ 52 := by omega
  rw [ofBits_eq, ofBits_eq, hnat, hexponent, hfraction]

/-- The size of a finite number is read back from its spelling. -/
theorem readSize?_text {bits : UInt64} (hfinite : bits.toNat % 2 ^ 63 < 2047 * 2 ^ 52) :
    readSize? (sizeNumeral bits).text = some (UInt64.ofNat (bits.toNat % 2 ^ 63)) := by
  have hcontains := sizeNumeral_contains bits
  rw [← ofBits_unsigned] at hcontains
  rw [readSize?, read?_text (sizeNumeral_wellFormed bits), Option.bind_some]
  refine Scientific.bits?_of_contains ?_ hcontains
  rw [UInt64.toNat_ofNat']
  omega

end TensorLoom.Decimal
