/-
# Shortest decimals

The fewest decimal digits that identify a finite double precision number. A decimal
identifies the number when it lies in the interval of reals that round to it: halfway to
each neighbour, ends included exactly when the significand is even. Everything is decided
on natural numbers.
-/

namespace TensorLoom.Decimal

/-- The size of a finite double precision number, `significand * 2 ^ exponent`. -/
structure Magnitude where
  significand : Nat
  exponent : Int
  /-- The number below is only half as far away as the number above. -/
  narrowBelow : Bool
deriving DecidableEq, Repr

/-- The size of the finite number with these bits; the sign is ignored. -/
def Magnitude.ofBits (bits : UInt64) : Magnitude :=
  let e : Nat := bits.toNat / Nat.pow 2 52 % Nat.pow 2 11
  let f : Nat := bits.toNat % Nat.pow 2 52
  if e = 0 then ⟨f, -1074, false⟩ else ⟨Nat.pow 2 52 + f, (e : Int) - 1075, decide (f = 0 ∧ 1 < e)⟩

/-- The number `digits * 10 ^ exponent`. -/
structure Scientific where
  digits : Nat
  exponent : Int
deriving DecidableEq, Repr

/-- Compares `a * 10 ^ i` with `b * 2 ^ j`. -/
def compareScaled (a : Nat) (i : Int) (b : Nat) (j : Int) : Ordering :=
  compare (a * Nat.pow 10 i.toNat * Nat.pow 2 (-j).toNat) (b * Nat.pow 2 j.toNat * Nat.pow 10 (-i).toNat)

namespace Magnitude

/-- The decimal rounds to the number. The ends of the interval are multiples of a quarter
of the unit in the last place. -/
def identifiedBy (x : Magnitude) (d : Scientific) : Bool :=
  let lower := 4 * x.significand - (if x.narrowBelow then 1 else 2)
  let upper := 4 * x.significand + 2
  let fromLower := compareScaled d.digits d.exponent lower (x.exponent - 2)
  let toUpper := compareScaled d.digits d.exponent upper (x.exponent - 2)
  let even := x.significand % 2 = 0
  (fromLower = .gt || even && fromLower = .eq) && (toUpper = .lt || even && toUpper = .eq)

/-- The power of ten of the leading digit. The binary length gives it up to one. -/
def leadingPower (x : Magnitude) : Int :=
  let guess := (((x.significand.log2 : Int) + x.exponent) * 1233).fdiv 4096
  if compareScaled 1 guess x.significand x.exponent = .gt then guess - 1
  else if compareScaled 1 (guess + 1) x.significand x.exponent = .gt then guess
  else guess + 1

/-- The number divided by `10 ^ e`, as numerator and denominator. -/
def dividedBy (x : Magnitude) (e : Int) : Nat × Nat :=
  (x.significand * Nat.pow 2 x.exponent.toNat * Nat.pow 10 (-e).toNat,
    Nat.pow 2 (-x.exponent).toNat * Nat.pow 10 e.toNat)

/-- Of the two multiples of `10 ^ e` around the number, the one that identifies it; if
both do the nearer, and the larger if they are equally near. -/
def onGrid? (x : Magnitude) (e : Int) : Option Scientific :=
  let (num, den) := x.dividedBy e
  let c := num / den
  let low : Scientific := ⟨c, e⟩
  let high : Scientific := ⟨c + 1, e⟩
  match 0 < c && x.identifiedBy low, x.identifiedBy high with
  | true, true => some (if 2 * num < (2 * c + 1) * den then low else high)
  | true, false => some low
  | false, true => some high
  | false, false => none

/-- The number itself as a decimal. -/
def exactly (x : Magnitude) : Scientific :=
  if 0 ≤ x.exponent then ⟨x.significand * Nat.pow 2 x.exponent.toNat, 0⟩
  else ⟨x.significand * Nat.pow 5 (-x.exponent).toNat, x.exponent⟩

end Magnitude

/-- Moves zeros at the end of the digits into the exponent, at most `n` of them. -/
def Scientific.strip : Nat → Scientific → Scientific
  | 0, d => d
  | n + 1, d => if d.digits ≠ 0 ∧ d.digits % 10 = 0 then strip n ⟨d.digits / 10, d.exponent + 1⟩ else d

/-- The decimal with the fewest digits that identifies the number, up to seventeen digits. -/
def Magnitude.shortest (x : Magnitude) : Scientific :=
  let lead := x.leadingPower
  let found := (List.range 17).findSome? fun (n : Nat) => x.onGrid? (lead - n)
  (found.getD x.exactly).strip 20

end TensorLoom.Decimal
