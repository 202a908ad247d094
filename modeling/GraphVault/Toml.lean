/-!
# TOML documents

Documents as tables of keys. A table remembers how it came about, because that decides who may add
to it: a header may complete a table that so far was only implied by longer headers, a dotted key
only tables made by dotted keys, and nobody an inline table.
-/

namespace GraphVault

/-- How a table came about. -/
inductive TableOrigin where
  /-- By a header of its own. -/
  | header
  /-- By a longer header. -/
  | implied
  /-- By a dotted key. -/
  | dotted
  /-- By a value between braces. -/
  | inline
  deriving DecidableEq

/-- A TOML value. -/
inductive Toml where
  | text (s : String)
  | boolean (b : Bool)
  /-- A number or a date, as written. -/
  | scalar (token : String)
  /-- An array; `ofTables` marks one that headers made. -/
  | list (ofTables : Bool) (items : List Toml)
  | table (origin : TableOrigin) (members : List (String × Toml))
  deriving Inhabited

namespace Toml

/-- Why a text is no document. -/
inductive Fault where
  | endOfInput
  | unexpected (c : Char)
  /-- A character that no text may hold as it stands. -/
  | control (c : Char)
  | escape
  | repeatedKey (key : String)
  /-- A key leads through something that cannot be added to. -/
  | closed (key : String)
  /-- Values nest too deep, or a key has too many parts. -/
  | tooDeep
  deriving DecidableEq

/-- The wording of a fault. -/
def Fault.message : Fault → String
  | endOfInput => "unexpected end of the document"
  | unexpected c => "unexpected character '" ++ c.toString ++ "'"
  | control c => "control character " ++ toString c.toNat ++ " in a text"
  | escape => "invalid escape in a text"
  | repeatedKey key => "duplicate key '" ++ key ++ "'"
  | closed key => "cannot add to '" ++ key ++ "'"
  | tooDeep => "recursion limit"

/-- The members of a table. -/
abbrev Members := List (String × Toml)

/-- The members with a key bound to a value, in the place it had or at the end. -/
def put (key : String) (value : Toml) : Members → Members
  | [] => [(key, value)]
  | (k, v) :: rest => if k = key then (key, value) :: rest else (k, v) :: put key value rest

/-- Changes the table at the end of a path, which starts at a table of the given members. Tables
that are missing are made, as `dotted` says by a dotted key or else by a header. -/
def descend (dotted : Bool) (change : TableOrigin → Members → Except Fault Members) :
    List String → TableOrigin → Members → Except Fault Members
  | [], origin, members => change origin members
  | key :: path, _, members =>
    match members.lookup key with
    | none => do
      let origin := if dotted then TableOrigin.dotted else .implied
      let child ← descend dotted change path origin []
      return put key (.table origin child) members
    | some (.list true items) =>
      match items.getLast? with
      | some (.table origin child) => do
        let child ← descend dotted change path origin child
        return put key (.list true (items.dropLast ++ [.table origin child])) members
      | _ => .error (.closed key)
    | some (.table origin child) =>
      if origin = .inline then .error (.closed key)
      else if dotted ∧ origin = .header then .error (.repeatedKey key)
      else do
        let child ← descend dotted change path origin child
        return put key (.table origin child) members
    | some _ => .error (.closed key)

/-- Binds a new key of a table, which has to be a dotted one exactly if the key has a path. -/
def bindKey (path : List String) (key : String) (value : Toml) (origin : TableOrigin)
    (members : Members) : Except Fault Members :=
  if (origin = .dotted) ↔ path = [] then .error (.repeatedKey key)
  else if (members.lookup key).isSome then .error (.repeatedKey key)
  else .ok (members ++ [(key, value)])

/-- Assigns a value to a dotted key of a table. -/
def assign (path : List String) (key : String) (value : Toml) (origin : TableOrigin)
    (members : Members) : Except Fault Members :=
  descend true (bindKey path key value) path origin members

/-- Opens the table of a header, which may have been implied before. -/
def openTable (key : String) (_ : TableOrigin) (members : Members) : Except Fault Members :=
  match members.lookup key with
  | none => .ok (members ++ [(key, .table .header [])])
  | some (.table .implied child) => .ok (put key (.table .header child) members)
  | some _ => .error (.repeatedKey key)

/-- Opens a further table of an array of tables. -/
def openItem (key : String) (_ : TableOrigin) (members : Members) : Except Fault Members :=
  match members.lookup key with
  | none => .ok (members ++ [(key, .list true [.table .header []])])
  | some (.list true items) => .ok (put key (.list true (items ++ [.table .header []])) members)
  | some _ => .error (.repeatedKey key)

end Toml

end GraphVault
