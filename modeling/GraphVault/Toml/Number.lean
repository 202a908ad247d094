import GraphVault.Bytes.Hex

/-!
# Numbers in TOML

Which texts count as numbers: integers, also in hexadecimal, octal and binary, reals with a fraction
or an exponent, infinities and what is no number. An underscore may stand between two digits. How
large a number is does not matter until somebody asks for its value, nor does what an integer holds
besides digits behind its first underscore, nor whether digits follow the mark of a radix.
-/

namespace GraphVault.Toml.Number

/-- Whether every underscore stands between two digits; `opened` tells whether one may come first. -/
def isGrouped (isDigit : Char → Bool) : (opened : Bool) → List Char → Bool
  | _, [] => true
  | opened, '_' :: rest => opened && rest.head?.any isDigit && isGrouped isDigit false rest
  | _, c :: rest => isGrouped isDigit (isDigit c) rest

/-- Whether a character is a digit of any radix. -/
def isAnyDigit (c : Char) : Bool := (Hex.value? c).isSome

/-- Whether a text behind the mark of a radix goes with its digits. -/
def isRadixed (isDigit : Char → Bool) (cs : List Char) : Bool :=
  cs.all (fun c => isDigit c || c = '_') && isGrouped isDigit false cs

/-- Whether a character may stand among decimal digits. -/
def isDecimalPart (c : Char) : Bool := c.isDigit || c = '_'

/-- The text behind decimal digits. There is at least one; where `leading` does not hold, the first
of several is not zero. -/
def skipDigits? (leading : Bool) (cs : List Char) : Option (List Char) :=
  let run := cs.takeWhile isDecimalPart
  let count := run.countP Char.isDigit
  if count = 0 || (!leading && 2 ≤ count && run.head? = some '0') then none
  else some (cs.dropWhile isDecimalPart)

/-- The text behind a fraction, if there is one. -/
def skipFraction? : List Char → Option (List Char)
  | '.' :: rest => skipDigits? true rest
  | cs => some cs

/-- The text behind an exponent, if there is one. -/
def skipExponent? : List Char → Option (List Char)
  | [] => some []
  | mark :: rest =>
    if mark = 'e' || mark = 'E' then
      match rest with
      | '+' :: rest | '-' :: rest => skipDigits? true rest
      | rest => skipDigits? true rest
    else some (mark :: rest)

/-- Whether a text without a sign has the form of a real number. -/
def isReal (cs : List Char) : Bool :=
  (((skipDigits? false cs).bind skipFraction?).bind skipExponent?).any (·.isEmpty)

/-- Whether a character marks a fraction or an exponent. -/
def isRealMark (c : Char) : Bool := c = '.' || c = 'e' || c = 'E'

/-- Whether a text is a decimal number without its sign, which stands in front if `signed` holds. -/
def isDecimal (signed : Bool) (cs : List Char) : Bool :=
  match cs.dropWhile Char.isDigit with
  | [] => !cs.isEmpty && (cs.length = 1 || cs.head? ≠ some '0')
  | mark :: rest =>
    if (mark :: rest).any isRealMark then isReal cs && isGrouped Char.isDigit signed cs
    else mark = '_' && cs.head? ≠ some '0' && isGrouped isAnyDigit signed cs

/-- Whether a text is a number without its sign. -/
def isMagnitude (signed : Bool) (cs : List Char) : Bool :=
  cs = "inf".toList || cs = "nan".toList || isDecimal signed cs

/-- Whether a text writes a number. -/
def isNumber : List Char → Bool
  | '+' :: rest | '-' :: rest => isMagnitude true rest
  | '0' :: 'x' :: rest => isRadixed isAnyDigit rest
  | '0' :: 'o' :: rest => isRadixed (fun c => '0' ≤ c && c ≤ '7') rest
  | '0' :: 'b' :: rest => isRadixed (fun c => c = '0' || c = '1') rest
  | cs => isMagnitude false cs

end GraphVault.Toml.Number
