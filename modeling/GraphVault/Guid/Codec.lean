import GraphVault.Guid
import GraphVault.Wire.Codec

/-!
# Guids on the wire

A guid is transferred as its text.
-/

namespace GraphVault.Guid

/-- Guids on the wire are texts of 64 hexadecimal digits. -/
def codec : Wire.Codec Guid :=
  Wire.Codec.text.via text fun s =>
    match parse? s with
    | some guid => .ok guid
    | none => .error .custom

end GraphVault.Guid
