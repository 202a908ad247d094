import GraphVault.Json.Text
import GraphVault.Text.Quoted

/-!
# The shape of JSON values

Readers of typed values from JSON values. A record may be given as an object or as an array of its
fields in order; where an object is not strict, keys that are not fields are ignored.
-/

namespace GraphVault.Json

/-- Why a value has not the shape that is needed. -/
inductive Mismatch where
  /-- The value is of another type. -/
  | type (found : Json) (expected : String)
  /-- A record lacks a field. -/
  | missingField (name : String)
  /-- An array given for a record has too few or too many items. -/
  | length (found : Nat) (expected : String)
  | unknownField (name : String)
  | repeatedField (name : String)
  | unknownVariant (name : String)
  /-- A value of the right type is not among the accepted ones. -/
  | value (found expected : String)

/-- How messages call a value. -/
def describe : Json → String
  | null => "null"
  | boolean b => "boolean \x60" ++ (if b then "true" else "false") ++ "\x60"
  | number (.double d) => "floating point \x60" ++ (JsonNumber.double d).text ++ "\x60"
  | number n => "integer \x60" ++ n.text ++ "\x60"
  | text s => "string " ++ Text.quoted s
  | list _ => "sequence"
  | object _ => "map"

/-- The wording of a mismatch. -/
def Mismatch.message : Mismatch → String
  | type found expected => "invalid type: " ++ found.describe ++ ", expected " ++ expected
  | missingField name => "missing field \x60" ++ name ++ "\x60"
  | length found expected => "invalid length " ++ toString found ++ ", expected " ++ expected
  | unknownField name => "unknown field \x60" ++ name ++ "\x60"
  | repeatedField name => "duplicate field \x60" ++ name ++ "\x60"
  | unknownVariant name => "unknown variant \x60" ++ name ++ "\x60"
  | value found expected => "invalid value: " ++ found ++ ", expected " ++ expected

/-- What a reader of JSON values gives. -/
abbrev Reading (α : Type) := Except Mismatch α

/-- A double; every number is one. -/
def asDouble : Json → Reading Double
  | number n => .ok n.toDouble
  | json => .error (.type json "f64")

/-- A text. -/
def asText : Json → Reading String
  | text s => .ok s
  | json => .error (.type json "a string")

/-- A truth value. -/
def asBoolean : Json → Reading Bool
  | boolean b => .ok b
  | json => .error (.type json "a boolean")

/-- An integer from 0 to `max`. -/
def asNatural (max : Nat) (json : Json) : Reading Nat :=
  match json with
  | number (.natural n) =>
    if n.toNat ≤ max then .ok n.toNat else .error (.value json.describe "a smaller integer")
  | number (.negative _) => .error (.value json.describe "a nonnegative integer")
  | _ => .error (.type json "a nonnegative integer")

/-- An array of values that `item` reads. -/
def asList {α : Type} (item : Json → Reading α) : Json → Reading (List α)
  | list items => items.mapM item
  | json => .error (.type json "a sequence")

/-- A value that may be null. -/
def asOptional {α : Type} (item : Json → Reading α) : Json → Reading (Option α)
  | null => .ok none
  | json => some <$> item json

/-- An object of values that `item` reads, with the last value of every key. -/
def asMap {α : Type} (item : Json → Reading α) : Json → Reading (List (String × α))
  | object members => do
    let values ← members.mapM fun (key, json) => do return (key, ← item json)
    return values
  | json => .error (.type json "a map")

/-- The name of a variant without content: a text, or an object with the name as its only key and
no content. -/
def asVariant (json : Json) : Reading String :=
  match json with
  | text s => .ok s
  | object members =>
    match keys members with
    | [key] =>
      match lookup key members with
      | some null => .ok key
      | some content => .error (.type content "unit")
      | none => .error (.value "map" "map with a single key")
    | _ => .error (.value "map" "map with a single key")
  | _ => .error (.type json "string or map")

/-- The fields of a record, found in an object by their names or in an array by their places. -/
inductive Record where
  | members (members : List (String × Json))
  | items (name : String) (size : Nat) (values : List Json)

namespace Record

/-- How messages call a record of a number of fields. -/
def expectation (name : String) (size : Nat) : String :=
  "struct " ++ name ++ " with " ++ toString size ++ if size = 1 then " element" else " elements"

/-- The field with a name and a place; `none` where an object lacks it. -/
def field? (record : Record) (place : Nat) (name : String) : Reading (Option Json) :=
  match record with
  | members ms => .ok (lookup name ms)
  | items recordName size values =>
    match values[place]? with
    | some json => .ok (some json)
    | none => .error (.length place (expectation recordName size))

/-- The field with a name and a place, which has to be there. -/
def field (record : Record) (place : Nat) (name : String) : Reading Json := do
  match ← record.field? place name with
  | some json => return json
  | none => throw (.missingField name)

/-- The field with a name and a place, or a default if it is not there. -/
def fieldD (record : Record) (place : Nat) (name : String) (default : Json) : Json :=
  match record with
  | members ms => (lookup name ms).getD default
  | items _ _ values => values[place]?.getD default

/-- Refuses an array with items left over. -/
def finish : Record → Reading Unit
  | members _ => .ok ()
  | items _ size values =>
    if size < values.length then .error (.length values.length "fewer elements in array")
    else .ok ()

/-- Refuses members that are no field, or that are among those seen before. -/
def checkMembers (fields seen : List String) : List (String × Json) → Reading Unit
  | [] => .ok ()
  | (key, _) :: rest =>
    if key ∉ fields then .error (.unknownField key)
    else if key ∈ seen then .error (.repeatedField key)
    else checkMembers fields (key :: seen) rest

/-- Refuses members that are no field, or that are repeated. -/
def strict (record : Record) (fields : List String) : Reading Unit :=
  match record with
  | items .. => .ok ()
  | members ms => checkMembers fields [] ms

end Record

/-- The value as a record of a number of fields. -/
def asRecord (name : String) (size : Nat) : Json → Reading Record
  | object members => .ok (.members members)
  | list items => .ok (.items name size items)
  | json => .error (.type json ("struct " ++ name))

end GraphVault.Json
