import GraphVault.Json

/-!
# JSON text

Values written without spaces (`Json.compact`) or with one item a line and two spaces of indentation
(`Json.pretty`). Strings escape quotes, backslashes and control characters only.
-/

namespace GraphVault.Json

/-- A control character as an escape of four hexadecimal digits. -/
def controlEscape (c : Char) : String :=
  let digits := Nat.toDigits 16 c.toNat
  "\\u" ++ String.ofList (List.replicate (4 - digits.length) '0' ++ digits)

/-- One character of a string. -/
def escape (c : Char) : String :=
  if c = '"' then "\\\""
  else if c = '\\' then "\\\\"
  else if c = '\x08' then "\\b"
  else if c = '\x0c' then "\\f"
  else if c = '\n' then "\\n"
  else if c = '\x0d' then "\\r"
  else if c = '\t' then "\\t"
  else if c.toNat < 32 then controlEscape c
  else c.toString

/-- A string between quotes. -/
def quote (s : String) : String := "\"" ++ String.join (s.toList.map escape) ++ "\""

mutual

/-- The text of a value, without spaces. -/
def compact : Json → String
  | null => "null"
  | boolean b => if b then "true" else "false"
  | number n => n.text
  | text s => quote s
  | list items => "[" ++ String.intercalate "," (compactItems items) ++ "]"
  | object members => "\x7b" ++ String.intercalate "," (compactMembers members) ++ "\x7d"

/-- The texts of items. -/
def compactItems : List Json → List String
  | [] => []
  | item :: items => compact item :: compactItems items

/-- The texts of members. -/
def compactMembers : List (String × Json) → List String
  | [] => []
  | (key, value) :: members => (quote key ++ ":" ++ compact value) :: compactMembers members

end

/-- Lines between brackets, indented two steps deeper than the brackets. -/
def block (opening closing : String) (indent : Nat) (lines : List String) : String :=
  if lines.isEmpty then opening ++ closing
  else
    let margin := "\n" ++ String.ofList (List.replicate indent ' ')
    opening ++ String.intercalate "," (lines.map fun line => margin ++ "  " ++ line) ++ margin
      ++ closing

mutual

/-- The text of a value, one item a line, within `indent` spaces. -/
def indented (indent : Nat) : Json → String
  | list items => block "[" "]" indent (indentedItems (indent + 2) items)
  | object members => block "\x7b" "\x7d" indent (indentedMembers (indent + 2) members)
  | null => "null"
  | boolean b => if b then "true" else "false"
  | number n => n.text
  | text s => quote s

/-- The texts of items. -/
def indentedItems (indent : Nat) : List Json → List String
  | [] => []
  | item :: items => indented indent item :: indentedItems indent items

/-- The texts of members. -/
def indentedMembers (indent : Nat) : List (String × Json) → List String
  | [] => []
  | (key, value) :: members =>
    (quote key ++ ": " ++ indented indent value) :: indentedMembers indent members

end

/-- The text of a value, one item a line. -/
def pretty (json : Json) : String := indented 0 json

end GraphVault.Json
