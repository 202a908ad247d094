import GraphVault.Bytes.Hex
import GraphVault.Json

/-!
# Reading JSON

A reader of JSON text, strict in everything the grammar says: no superfluous zeros or commas, no raw
control characters in strings, no lone surrogates. Arrays and objects nest at most 127 deep.
Numbers take as many digits as fit 64 bits and round the result once more by a power of ten; what
is too large for a double is refused.
-/

namespace GraphVault.Json

/-- Why a text is no JSON. -/
inductive TextFault where
  | endOfInput
  | unexpected (c : Char)
  | numberOutOfRange
  | surrogate
  | depth
  deriving DecidableEq

/-- The wording of a fault. -/
def TextFault.message : TextFault → String
  | endOfInput => "unexpected end of the text"
  | unexpected c => "unexpected character '" ++ c.toString ++ "'"
  | numberOutOfRange => "number out of range"
  | surrogate => "lone surrogate in an escape"
  | depth => "values nest too deeply"

namespace Reader

/-- Spaces between tokens. -/
def isBlank (c : Char) : Bool := c = ' ' || c = '\n' || c = '\t' || c = '\x0d'

/-- The text behind spaces. -/
def skip (cs : List Char) : List Char := cs.dropWhile isBlank

/-- The fault of a text that should go on differently. -/
def stop : List Char → TextFault
  | [] => .endOfInput
  | c :: _ => .unexpected c

/-! ### Strings -/

/-- How far the reading of a character of a string has come. -/
inductive Stage where
  | plain
  | escape
  /-- Behind `\u`: digits to come, the value so far, and the high surrogate before it, if any. -/
  | unicode (missing value : Nat) (high : Option Nat)
  /-- Behind a high surrogate. -/
  | high (value : Nat)
  /-- Behind a high surrogate and a backslash. -/
  | highEscape (value : Nat)

/-- The character that a letter behind a backslash stands for. -/
def escaped? (c : Char) : Option Char :=
  match c with
  | '"' => some '"'
  | '\\' => some '\\'
  | '/' => some '/'
  | 'b' => some '\x08'
  | 'f' => some '\x0c'
  | 'n' => some '\n'
  | 'r' => some '\x0d'
  | 't' => some '\t'
  | _ => none

/-- Where four digits lead: a character that is complete, or a high surrogate. -/
def unit (value : Nat) (high : Option Nat) : Except TextFault (Option Char × Stage) :=
  match high with
  | some h =>
    if 0xDC00 ≤ value ∧ value ≤ 0xDFFF then
      .ok (some (Char.ofNat (0x10000 + (h - 0xD800) * 0x400 + (value - 0xDC00))), .plain)
    else .error .surrogate
  | none =>
    if 0xD800 ≤ value ∧ value ≤ 0xDBFF then .ok (none, .high value)
    else if 0xDC00 ≤ value ∧ value ≤ 0xDFFF then .error .surrogate
    else .ok (some (Char.ofNat value), .plain)

/-- The part of a string behind its opening quote; `done` holds the characters before, last first. -/
def string (done : List Char) : Stage → List Char → Except TextFault (String × List Char)
  | _, [] => .error .endOfInput
  | .plain, c :: rest =>
    if c = '"' then .ok (String.ofList done.reverse, rest)
    else if c = '\\' then string done .escape rest
    else if c.toNat < 32 then .error (.unexpected c)
    else string (c :: done) .plain rest
  | .escape, c :: rest =>
    if c = 'u' then string done (.unicode 4 0 none) rest
    else
      match escaped? c with
      | some e => string (e :: done) .plain rest
      | none => .error (.unexpected c)
  | .high value, c :: rest =>
    if c = '\\' then string done (.highEscape value) rest else .error .surrogate
  | .highEscape value, c :: rest =>
    if c = 'u' then string done (.unicode 4 0 (some value)) rest else .error .surrogate
  | .unicode missing value high, c :: rest =>
    match Hex.value? c with
    | none => .error (.unexpected c)
    | some digit =>
      if 1 < missing then string done (.unicode (missing - 1) (16 * value + digit) high) rest
      else
        match unit (16 * value + digit) high with
        | .error fault => .error fault
        | .ok (none, stage) => string done stage rest
        | .ok (some e, stage) => string (e :: done) stage rest

/-! ### Numbers -/

/-- The largest significand. -/
def maxSignificand : Nat := 2 ^ 64 - 1

/-- The value of a decimal digit. -/
def digit? (c : Char) : Option Nat :=
  if 48 ≤ c.toNat ∧ c.toNat ≤ 57 then some (c.toNat - 48) else none

/-- A number read so far: its sign, and `significand · 10 ^ exponent`. -/
structure Partial where
  negative : Bool
  significand : Nat
  exponent : Int

/-- The double of what was read. -/
def Partial.double (p : Partial) : Except TextFault Double :=
  match Double.ofDecimal p.significand p.exponent with
  | some d => .ok (d.withSign p.negative)
  | none => .error .numberOutOfRange

/-- The largest exponent that is read as it stands. -/
def maxExponent : Nat := 2 ^ 31 - 1

/-- The digits of an exponent behind the first; `none` where they exceed `maxExponent`. -/
def exponentDigits : Option Nat → List Char → Option Nat × List Char
  | value, [] => (value, [])
  | value, c :: rest =>
    match digit? c with
    | none => (value, c :: rest)
    | some digit =>
      exponentDigits
        (value.bind fun v => if 10 * v + digit ≤ maxExponent then some (10 * v + digit) else none)
        rest

/-- An exponent without its `e`, behind the number `p`. -/
def exponent (p : Partial) (cs : List Char) : Except TextFault (Double × List Char) := do
  let (up, cs) := match cs with
    | '+' :: rest => (true, rest)
    | '-' :: rest => (false, rest)
    | _ => (true, cs)
  let first ← match cs.head?.bind digit? with
    | some digit => pure digit
    | none => throw (stop cs)
  match exponentDigits (some first) (cs.drop 1) with
  | (some value, rest) =>
    let exponent := if up then p.exponent + value else p.exponent - value
    return (← { p with exponent }.double, rest)
  | (none, rest) =>
    if p.significand ≠ 0 ∧ up then throw .numberOutOfRange
    return (Double.zero.withSign p.negative, rest)

/-- What follows the digits of a number that is not an integer. -/
def finish (p : Partial) (cs : List Char) : Except TextFault (Double × List Char) :=
  match cs with
  | 'e' :: rest | 'E' :: rest => exponent p rest
  | _ => do return (← p.double, cs)

/-- The digits behind a point. Digits that no longer fit are dropped, with all that follow. -/
def decimals (p : Partial) : List Char → Except TextFault (Double × List Char)
  | [] => finish p []
  | c :: rest =>
    match digit? c with
    | none => finish p (c :: rest)
    | some digit =>
      if 10 * p.significand + digit ≤ maxSignificand then
        decimals { p with significand := 10 * p.significand + digit, exponent := p.exponent - 1 }
          rest
      else finish p (rest.dropWhile (digit? · |>.isSome))

/-- What follows a point: at least one digit. -/
def fraction (p : Partial) (cs : List Char) : Except TextFault (Double × List Char) :=
  if (cs.head?.bind digit?).isSome then decimals p cs else .error (stop cs)

/-- An integer whose digits no longer fit: the remaining ones count as zeros. -/
def longInteger (p : Partial) : List Char → Except TextFault (Double × List Char)
  | [] => finish p []
  | c :: rest =>
    if (digit? c).isSome then longInteger { p with exponent := p.exponent + 1 } rest
    else if c = '.' then fraction p rest
    else finish p (c :: rest)

/-- The value of an integer: negative ones that fit 63 bits and nonnegative ones are exact. -/
def integer (negative : Bool) (significand : Nat) : JsonNumber :=
  if ¬negative then .natural (UInt64.ofNat significand)
  else if significand = 0 ∨ 2 ^ 63 < significand then
    .double ((Double.ofNat significand).withSign true)
  else .negative (Int64.ofInt (-(significand : Int)))

/-- The digits of a number behind the first. -/
def integerDigits (negative : Bool) (significand : Nat) :
    List Char → Except TextFault (JsonNumber × List Char)
  | [] => .ok (integer negative significand, [])
  | c :: rest =>
    match digit? c with
    | some digit =>
      if 10 * significand + digit ≤ maxSignificand then
        integerDigits negative (10 * significand + digit) rest
      else do
        let (d, rest) ← longInteger ⟨negative, significand, 0⟩ (c :: rest)
        return (.double d, rest)
    | none =>
      if c = '.' then do
        let (d, rest) ← fraction ⟨negative, significand, 0⟩ rest
        return (.double d, rest)
      else if c = 'e' ∨ c = 'E' then do
        let (d, rest) ← exponent ⟨negative, significand, 0⟩ rest
        return (.double d, rest)
      else .ok (integer negative significand, c :: rest)

/-- A number without its sign. -/
def magnitude (negative : Bool) : List Char → Except TextFault (JsonNumber × List Char)
  | [] => .error .endOfInput
  | c :: rest =>
    match digit? c with
    | none => .error (.unexpected c)
    | some 0 =>
      match rest with
      | next :: _ =>
        if (digit? next).isSome then .error (.unexpected next)
        else integerDigits negative 0 rest
      | [] => integerDigits negative 0 rest
    | some digit => integerDigits negative digit rest

/-! ### Values -/

/-- How deep arrays and objects may nest. -/
def maxDepth : Nat := 127

/-- The text behind a word that has to come next. -/
def word (expected : List Char) (cs : List Char) : Except TextFault (List Char) :=
  match expected, cs with
  | [], cs => .ok cs
  | _ :: _, [] => .error .endOfInput
  | e :: expected, c :: cs => if e = c then word expected cs else .error (.unexpected c)

mutual

/-- A value at the front of a text without leading spaces; `depth` is how deep it may nest. -/
def value : (fuel depth : Nat) → List Char → Except TextFault (Json × List Char)
  | 0, _, cs => .error (stop cs)
  | fuel + 1, depth, cs =>
    match cs with
    | 'n' :: rest => do return (.null, ← word "ull".toList rest)
    | 't' :: rest => do return (.boolean true, ← word "rue".toList rest)
    | 'f' :: rest => do return (.boolean false, ← word "alse".toList rest)
    | '"' :: rest => do
      let (s, rest) ← string [] .plain rest
      return (.text s, rest)
    | '-' :: rest => do
      let (n, rest) ← magnitude true rest
      return (.number n, rest)
    | '[' :: rest =>
      match depth with
      | 0 => .error .depth
      | depth + 1 =>
        match skip rest with
        | ']' :: rest => .ok (.list [], rest)
        | rest => items fuel depth [] rest
    | '\x7b' :: rest =>
      match depth with
      | 0 => .error .depth
      | depth + 1 =>
        match skip rest with
        | '\x7d' :: rest => .ok (.object [], rest)
        | rest => members fuel depth [] rest
    | cs => do
      let (n, rest) ← magnitude false cs
      return (.number n, rest)

/-- The items of an array from the next one on; `done` holds those before, last first. -/
def items : (fuel depth : Nat) → List Json → List Char → Except TextFault (Json × List Char)
  | 0, _, _, cs => .error (stop cs)
  | fuel + 1, depth, done, cs =>
    match value fuel depth cs with
    | .error fault => .error fault
    | .ok (item, rest) =>
      match skip rest with
      | ']' :: rest => .ok (.list (item :: done).reverse, rest)
      | ',' :: rest => items fuel depth (item :: done) (skip rest)
      | rest => .error (stop rest)

/-- The members of an object from the next one on; `done` holds those before, last first. -/
def members : (fuel depth : Nat) → List (String × Json) → List Char →
    Except TextFault (Json × List Char)
  | 0, _, _, cs => .error (stop cs)
  | fuel + 1, depth, done, '"' :: cs =>
    match string [] .plain cs with
    | .error fault => .error fault
    | .ok (key, rest) =>
      match skip rest with
      | ':' :: rest =>
        match value fuel depth (skip rest) with
        | .error fault => .error fault
        | .ok (item, rest) =>
          match skip rest with
          | '\x7d' :: rest => .ok (.object ((key, item) :: done).reverse, rest)
          | ',' :: rest => members fuel depth ((key, item) :: done) (skip rest)
          | rest => .error (stop rest)
      | rest => .error (stop rest)
  | _, _, _, cs => .error (stop cs)

end

end Reader

/-- The value that a text holds. -/
def parse (s : String) : Except TextFault Json :=
  let cs := s.toList
  match Reader.value (2 * cs.length + 1) Reader.maxDepth (Reader.skip cs) with
  | .error fault => .error fault
  | .ok (json, rest) =>
    match Reader.skip rest with
    | [] => .ok json
    | c :: _ => .error (.unexpected c)

end GraphVault.Json
