import TensorLoom.Decimal.Shortest
/-
# Number literals

Numbers are written with the fewest digits that identify them: positionally, with at
least one digit after the point, when the leading digit stands between 10^-4 and 10^15,
and with an exponent otherwise.
-/

namespace TensorLoom.Decimal

/-- The digits `ds`, whose leading digit has the power `lead`, without an exponent. -/
def positional (ds : List Char) (lead : Int) : List Char :=
  if lead < 0 then '0' :: '.' :: (List.replicate (-lead - 1).toNat '0' ++ ds)
  else
    let whole := lead.toNat + 1
    let fraction := ds.drop whole
    ds.take whole ++ List.replicate (whole - ds.length) '0' ++
      '.' :: (if fraction = [] then ['0'] else fraction)

/-- The digits `ds`, whose leading digit has the power `lead`, with an exponent. -/
def scientific (ds : List Char) (lead : Int) : List Char :=
  let fraction := ds.drop 1
  ds.take 1 ++ (if fraction = [] then [] else '.' :: fraction) ++ 'e' :: (toString lead).toList

/-- A decimal that is not zero. -/
def Scientific.write (d : Scientific) : List Char :=
  let ds := Nat.toDigits 10 d.digits
  let lead := d.exponent + ds.length - 1
  if -4 ≤ lead ∧ lead < 16 then positional ds lead else scientific ds lead

/-- The text of the finite number with these bits. -/
def finiteText (bits : UInt64) : String :=
  let sign := if bits.toNat < Nat.pow 2 63 then [] else ['-']
  let x := Magnitude.ofBits bits
  let size := if x.significand = 0 then ['0', '.', '0'] else x.shortest.write
  String.ofList (sign ++ size)

end TensorLoom.Decimal
