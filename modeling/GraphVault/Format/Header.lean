import GraphVault.Failure

/-!
# File headers

Every manifest and row file starts with four magic bytes and a version.
-/

namespace GraphVault.Header

/-- The bytes "SPHX". -/
def magic : Bytes := [0x53, 0x50, 0x48, 0x58]

/-- The version of the format that is written. -/
def version : UInt8 := 1

/-- The five bytes in front of every file. -/
def bytes : Bytes := magic ++ [version]

/-- Accepts a magic and a version that are the current ones. -/
def validate (foundMagic : Bytes) (foundVersion : UInt8) : Except Failure Unit :=
  if foundMagic ≠ magic then .error (.serialization .invalidMagic)
  else if foundVersion ≠ version then
    .error (.serialization (.unsupportedVersion foundVersion version))
  else .ok ()

/-- The content of a file behind its header. -/
def strip : Bytes → Except Failure Bytes
  | b₀ :: b₁ :: b₂ :: b₃ :: v :: rest => do
    validate [b₀, b₁, b₂, b₃] v
    return rest
  | _ => .error (.serialization .headerTooShort)

theorem strip_append (rest : Bytes) : strip (bytes ++ rest) = .ok rest := rfl

end GraphVault.Header
