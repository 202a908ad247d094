import GraphVault.Double.Notation
import GraphVault.Double.Rounding

/-!
# JSON values

Values of JSON text. An object keeps its members in the order in which they are written, repeated
keys included; the last member of a key is the one that counts.
-/

namespace GraphVault

/-- A JSON number: an integer where the text is one that fits 64 bits, else a double. -/
inductive JsonNumber where
  | natural (n : UInt64)
  | negative (n : Int64)
  | double (d : Double)
  deriving DecidableEq

/-- A JSON value. -/
inductive Json where
  | null
  | boolean (b : Bool)
  | number (n : JsonNumber)
  | text (s : String)
  | list (items : List Json)
  | object (members : List (String × Json))
  deriving Inhabited

namespace JsonNumber

/-- Shortest digits, positional from 1e-5 to below 1e16, with a sign on every exponent. -/
def format : DecimalFormat := ⟨16, 5, "+"⟩

/-- The text of a number; what is not finite has none. -/
def text : JsonNumber → String
  | natural n => toString n.toNat
  | negative n => toString n.toInt
  | double d => if d.isFinite then format.double d else "null"

/-- The double nearest to a number. -/
def toDouble : JsonNumber → Double
  | natural n => Double.ofNat n.toNat
  | negative n => Double.ofInt n.toInt
  | double d => d

/-- The number of an integer. -/
def ofInt (n : Int) : JsonNumber :=
  if 0 ≤ n then natural (UInt64.ofNat n.toNat) else negative (Int64.ofInt n)

end JsonNumber

namespace Json

/-- The value of a double, which is null where the double is not finite. -/
def ofDouble (d : Double) : Json := if d.isFinite then number (.double d) else null

/-- The value of a natural number below `2 ^ 64`. -/
def ofNat (n : Nat) : Json := number (.natural (UInt64.ofNat n))

/-- The value of an integer. -/
def ofInt64 (n : Int64) : Json := number (.ofInt n.toInt)

/-- The last value of a key among members. -/
def lookup (key : String) (members : List (String × Json)) : Option Json :=
  (members.reverse.find? (·.1 = key)).map (·.2)

/-- The value of a key of an object. -/
def member? (key : String) : Json → Option Json
  | object members => lookup key members
  | _ => none

/-- The keys of members, each once. -/
def keys (members : List (String × Json)) : List String := (members.map (·.1)).eraseDups

end Json

end GraphVault
