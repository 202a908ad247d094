/-!
# Faults of the wire format

Why a byte string is not the wire form of a value.
-/

namespace GraphVault.Wire

/-- The first thing wrong with a wire form. -/
inductive Fault where
  /-- The bytes end inside a value. -/
  | endOfInput
  /-- A number is longer than its type allows. -/
  | varint
  /-- A text is not UTF-8. -/
  | text
  /-- The byte in front of an optional value is neither 0 nor 1. -/
  | option
  /-- The bytes can be read, but no value has them. -/
  | custom
  deriving DecidableEq, Repr

/-- The wording of a fault. -/
def Fault.message : Fault → String
  | endOfInput => "Hit the end of buffer, expected more data"
  | varint => "Found a varint that didn't terminate. Is the usize too big for this platform?"
  | text => "Tried to parse invalid utf-8"
  | option => "Found an Option discriminant that wasn't 0 or 1"
  | custom => "Serde Deserialization Error"

end GraphVault.Wire
