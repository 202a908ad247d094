import GraphVault.Double.Shortest

/-!
# Decimal notation

How a decimal is laid out: positionally in a range of magnitudes, else with an exponent.
-/

namespace GraphVault

/-- The decisions of a number format. -/
structure DecimalFormat where
  /-- Numbers of at least this many integer digits have an exponent. -/
  maxIntegerDigits : Int
  /-- Numbers with at least this many zeros behind the point have an exponent. -/
  maxLeadingZeros : Int
  /-- What stands before a nonnegative exponent. -/
  positiveExponent : String

/-- Positional text of `digits` whose point stands behind the first `point` of them. -/
def positional (digits : String) (point : Int) : String :=
  let n := digits.length
  if point ≤ 0 then "0." ++ String.ofList (List.replicate point.natAbs '0') ++ digits
  else if n ≤ point then
    digits ++ String.ofList (List.replicate (point.toNat - n) '0') ++ ".0"
  else
    String.ofList (digits.toList.take point.toNat) ++ "." ++
      String.ofList (digits.toList.drop point.toNat)

/-- The text of a decimal with at least one digit. -/
def DecimalFormat.render (f : DecimalFormat) (d : Decimal) : String :=
  let digits := toString d.digits
  let point : Int := digits.length + d.exponent
  if -f.maxLeadingZeros < point ∧ point ≤ f.maxIntegerDigits then positional digits point
  else
    let exponent := point - 1
    let mark := if 0 ≤ exponent then "e" ++ f.positiveExponent else "e-"
    let fraction := if digits.length = 1 then "" else "." ++ String.ofList (digits.toList.drop 1)
    String.ofList (digits.toList.take 1) ++ fraction ++ mark ++ toString exponent.natAbs

/-- The text of a finite double: its sign and its shortest decimal. -/
def DecimalFormat.double (f : DecimalFormat) (d : Double) : String :=
  let magnitude := if d.isZero then "0.0" else f.render (d.withSign false).shortest
  if d.isNegative then "-" ++ magnitude else magnitude

end GraphVault
