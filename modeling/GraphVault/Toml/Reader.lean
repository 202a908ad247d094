import GraphVault.Bytes.Hex
import GraphVault.Toml
import GraphVault.Toml.Date
import GraphVault.Toml.Number

/-!
# Reading TOML

A reader of TOML text: comments, bare and quoted keys, all four kinds of strings, arrays, inline
tables (which may be broken into lines and end in a comma) and headers. How deep values nest and how
long keys are is limited.
-/

namespace GraphVault.Toml

namespace Reader

/-- The fault of a text that should go on differently. -/
def stop : List Char → Fault
  | [] => .endOfInput
  | c :: _ => .unexpected c

/-- Spaces within a line. -/
def isSpace (c : Char) : Bool := c = ' ' || c = '\t'

/-- The text behind spaces. -/
def skip (cs : List Char) : List Char := cs.dropWhile isSpace

/-- Characters that comments and strings may hold. -/
def isPlain (c : Char) : Bool := c = '\t' || (32 ≤ c.toNat && c.toNat ≠ 127)

/-- The text behind a line break, if there is one. -/
def lineBreak? : List Char → Option (List Char)
  | '\n' :: rest => some rest
  | '\x0d' :: '\n' :: rest => some rest
  | _ => none

/-- The text behind the comment at its front, if there is one. -/
def skipComment : List Char → List Char
  | '#' :: rest => rest.dropWhile isPlain
  | cs => cs

/-- The text behind the end of a line, which only a comment may precede. -/
def endLine (cs : List Char) : Except Fault (List Char) :=
  match skipComment (skip cs) with
  | [] => .ok []
  | rest =>
    match lineBreak? rest with
    | some rest => .ok rest
    | none => .error (stop rest)

/-- The text behind spaces, line breaks and comments; `fuel` bounds the number of lines. -/
def skipLines : Nat → List Char → List Char
  | 0, cs => cs
  | fuel + 1, cs =>
    let rest := skipComment (skip cs)
    match lineBreak? rest with
    | some rest => skipLines fuel rest
    | none => rest

/-- The text behind spaces, line breaks and comments. -/
def skipBlank (cs : List Char) : List Char := skipLines (cs.length + 1) cs

/-! ### Strings -/

/-- The number of a count of hexadecimal digits. -/
def hexDigits : Nat → Nat → List Char → Except Fault (Nat × List Char)
  | 0, value, cs => .ok (value, cs)
  | _ + 1, _, [] => .error .endOfInput
  | count + 1, value, c :: rest =>
    match Hex.value? c with
    | some digit => hexDigits count (16 * value + digit) rest
    | none => .error .escape

/-- The character with a code of a count of digits. -/
def codePoint (count : Nat) (cs : List Char) : Except Fault (Char × List Char) := do
  let (value, rest) ← hexDigits count 0 cs
  if value.isValidChar then return (Char.ofNat value, rest) else throw .escape

/-- The character that stands behind a backslash. -/
def escape : List Char → Except Fault (Char × List Char)
  | [] => .error .endOfInput
  | c :: rest =>
    match c with
    | 'b' => .ok ('\x08', rest)
    | 't' => .ok ('\t', rest)
    | 'n' => .ok ('\n', rest)
    | 'f' => .ok ('\x0c', rest)
    | 'r' => .ok ('\x0d', rest)
    | 'e' => .ok ('\x1b', rest)
    | '"' => .ok ('"', rest)
    | '\\' => .ok ('\\', rest)
    | 'x' => codePoint 2 rest
    | 'u' => codePoint 4 rest
    | 'U' => codePoint 8 rest
    | _ => .error .escape

/-- A string in one line behind its opening quote. A backslash escapes where `escapes` says so. -/
def line (quote : Char) (escapes : Bool) : (fuel : Nat) → List Char → List Char →
    Except Fault (String × List Char)
  | 0, _, cs => .error (stop cs)
  | _ + 1, _, [] => .error .endOfInput
  | fuel + 1, done, c :: rest =>
    if c = quote then .ok (String.ofList done.reverse, rest)
    else if c = '\\' ∧ escapes then
      match escape rest with
      | .error fault => .error fault
      | .ok (e, rest) => line quote escapes fuel (e :: done) rest
    else if isPlain c then line quote escapes fuel (c :: done) rest
    else .error (.control c)

/-- The text behind spaces and line breaks. -/
def skipBreaks : List Char → List Char
  | '\x0d' :: '\n' :: rest => skipBreaks rest
  | c :: rest => if isSpace c || c = '\n' then skipBreaks rest else c :: rest
  | [] => []

/-- The text behind a backslash at the end of a line: behind all spaces and line breaks. -/
def continuation? (cs : List Char) : Option (List Char) := (lineBreak? (skip cs)).map skipBreaks

/-- A string of several lines behind its opening quotes, with line breaks as they are written. Three
quotes end it, and up to two more before them belong to it. -/
def lines (quote : Char) (escapes : Bool) : (fuel : Nat) → List Char → List Char →
    Except Fault (String × List Char)
  | 0, _, cs => .error (stop cs)
  | _ + 1, _, [] => .error .endOfInput
  | fuel + 1, done, c :: rest =>
    if c = quote then
      let run := min 5 (1 + (rest.takeWhile (· = quote)).length)
      let rest := rest.drop (run - 1)
      if run < 3 then lines quote escapes fuel (List.replicate run quote ++ done) rest
      else .ok (String.ofList (List.replicate (run - 3) quote ++ done).reverse, rest)
    else if c = '\\' ∧ escapes then
      match continuation? rest with
      | some rest => lines quote escapes fuel done rest
      | none =>
        match escape rest with
        | .error fault => .error fault
        | .ok (e, rest) => lines quote escapes fuel (e :: done) rest
    else if isPlain c || c = '\n' || (c = '\x0d' && rest.head? = some '\n') then
      lines quote escapes fuel (c :: done) rest
    else .error (.control c)

/-- A string of several lines, whose first line break does not count. -/
def manyLines (quote : Char) (escapes : Bool) (cs : List Char) :
    Except Fault (String × List Char) :=
  let cs := (lineBreak? cs).getD cs
  lines quote escapes (cs.length + 1) [] cs

/-- A string, if there is one. -/
def string? : List Char → Option (Except Fault (String × List Char))
  | '"' :: '"' :: '"' :: rest => some (manyLines '"' true rest)
  | '\'' :: '\'' :: '\'' :: rest => some (manyLines '\'' false rest)
  | '"' :: rest => some (line '"' true (rest.length + 1) [] rest)
  | '\'' :: rest => some (line '\'' false (rest.length + 1) [] rest)
  | _ => none

/-! ### Keys -/

/-- Characters of keys without quotes. -/
def isBare (c : Char) : Bool := c.isAlphanum || c = '_' || c = '-'

/-- One part of a key. -/
def keyPart (cs : List Char) : Except Fault (String × List Char) :=
  match cs with
  | '"' :: rest => line '"' true (rest.length + 1) [] rest
  | '\'' :: rest => line '\'' false (rest.length + 1) [] rest
  | _ =>
    match cs.takeWhile isBare with
    | [] => .error (stop cs)
    | bare => .ok (String.ofList bare, cs.dropWhile isBare)

/-- How deep arrays and inline tables nest at most, and how many parts a key has at most. -/
def maxDepth : Nat := 80

/-- A dotted key: the path in front of its last part, and that part. -/
def key : (fuel : Nat) → List String → List Char →
    Except Fault ((List String × String) × List Char)
  | 0, _, cs => .error (stop cs)
  | fuel + 1, path, cs =>
    match keyPart cs with
    | .error fault => .error fault
    | .ok (part, rest) =>
      match skip rest with
      | '.' :: rest => key fuel (path ++ [part]) (skip rest)
      | rest => .ok ((path, part), rest)

/-- A dotted key. -/
def dottedKey (cs : List Char) : Except Fault ((List String × String) × List Char) := do
  let ((path, name), rest) ← key (cs.length + 1) [] cs
  if maxDepth ≤ path.length then throw .tooDeep
  return ((path, name), rest)

/-! ### Values -/

/-- Characters of numbers and dates. -/
def isScalar (c : Char) : Bool :=
  c.isAlphanum || c = '_' || c = '+' || c = '-' || c = '.' || c = ':'

/-- The characters of a number or a date, and the text behind them. A space may stand inside. -/
def token (cs : List Char) : List Char × List Char :=
  let first := cs.takeWhile isScalar
  match cs.dropWhile isScalar with
  | ' ' :: rest =>
    match rest.takeWhile isScalar with
    | [] => (first, ' ' :: rest)
    | second => (first ++ ' ' :: second, rest.dropWhile isScalar)
  | rest => (first, rest)

/-- A truth value, a number or a date. -/
def scalar (cs : List Char) : Except Fault (Toml × List Char) :=
  let (token, rest) := token cs
  if token = "true".toList then .ok (.boolean true, rest)
  else if token = "false".toList then .ok (.boolean false, rest)
  else if Number.isNumber token || Date.isMoment token then
    .ok (.scalar (String.ofList token), rest)
  else .error (stop cs)

mutual

/-- A value at the front of a text, which nests at most `depth` deep. -/
def value : (fuel depth : Nat) → List Char → Except Fault (Toml × List Char)
  | 0, _, cs => .error (stop cs)
  | fuel + 1, depth, cs =>
    match string? cs with
    | some (.error fault) => .error fault
    | some (.ok (s, rest)) => .ok (.text s, rest)
    | none =>
      match cs, depth with
      | '[' :: _, 0 | '\x7b' :: _, 0 => .error .tooDeep
      | '[' :: rest, depth + 1 => items fuel depth [] (skipBlank rest)
      | '\x7b' :: rest, depth + 1 => members fuel depth [] (skipBlank rest)
      | _, _ => scalar cs

/-- The items of an array, or its end. -/
def items : (fuel depth : Nat) → List Toml → List Char → Except Fault (Toml × List Char)
  | 0, _, _, cs => .error (stop cs)
  | _ + 1, _, done, ']' :: rest => .ok (.list false done.reverse, rest)
  | fuel + 1, depth, done, cs =>
    match value fuel depth cs with
    | .error fault => .error fault
    | .ok (item, rest) =>
      match skipBlank rest with
      | ',' :: rest => items fuel depth (item :: done) (skipBlank rest)
      | ']' :: rest => .ok (.list false (item :: done).reverse, rest)
      | rest => .error (stop rest)

/-- The members of an inline table, or its end. -/
def members : (fuel depth : Nat) → Members → List Char → Except Fault (Toml × List Char)
  | 0, _, _, cs => .error (stop cs)
  | _ + 1, _, done, '\x7d' :: rest => .ok (.table .inline done, rest)
  | fuel + 1, depth, done, cs =>
    match dottedKey cs with
    | .error fault => .error fault
    | .ok ((path, name), rest) =>
      match skipBlank rest with
      | '=' :: rest =>
        match value fuel depth (skipBlank rest) with
        | .error fault => .error fault
        | .ok (item, rest) =>
          match assign path name item .inline done with
          | .error fault => .error fault
          | .ok done =>
            match skipBlank rest with
            | ',' :: rest => members fuel depth done (skipBlank rest)
            | '\x7d' :: rest => .ok (.table .inline done, rest)
            | rest => .error (stop rest)
      | rest => .error (stop rest)

end

/-! ### Documents -/

/-- A header behind its first bracket: whether it is one of an array, its path and its last key. -/
def header (cs : List Char) : Except Fault ((Bool × List String × String) × List Char) := do
  match cs with
  | '[' :: rest =>
    let ((path, name), rest) ← dottedKey (skip rest)
    match rest with
    | ']' :: ']' :: rest => return ((true, path, name), rest)
    | ']' :: rest => throw (stop rest)
    | rest => throw (stop rest)
  | _ =>
    let ((path, name), rest) ← dottedKey (skip cs)
    match rest with
    | ']' :: rest => return ((false, path, name), rest)
    | rest => throw (stop rest)

/-- Adds a key and its value to the table of the header before it. -/
def keyValue (current : List String) (root : Members) (cs : List Char) :
    Except Fault (Members × List Char) := do
  let ((path, name), rest) ← dottedKey cs
  match rest with
  | '=' :: rest =>
    let (item, rest) ← value (rest.length + 1) maxDepth (skip rest)
    let root ← descend false (assign path name item) current .header root
    return (root, rest)
  | rest => throw (stop rest)

/-- The lines of a document from the next one on, in the table `current` of the document so far. -/
def document : (fuel : Nat) → List String → Members → List Char → Except Fault Members
  | 0, _, root, _ => .ok root
  | fuel + 1, current, root, cs =>
    match skipBlank cs with
    | [] => .ok root
    | '[' :: rest =>
      match header rest with
      | .error fault => .error fault
      | .ok ((ofTables, path, name), rest) =>
        let change := if ofTables then openItem name else openTable name
        match descend false change path .header root, endLine rest with
        | .error fault, _ | _, .error fault => .error fault
        | .ok root, .ok rest => document fuel (path ++ [name]) root rest
    | cs =>
      match keyValue current root cs with
      | .error fault => .error fault
      | .ok (root, rest) =>
        match endLine rest with
        | .error fault => .error fault
        | .ok rest => document fuel current root rest

end Reader

/-- The document that a text holds; a byte order mark at its start does not count. -/
def parse (s : String) : Except Fault Members :=
  let cs := match s.toList with
    | '\ufeff' :: rest => rest
    | cs => cs
  Reader.document (cs.length + 1) [] [] cs

end GraphVault.Toml
