import GraphVault.Bytes.Hex

/-!
# Guids

A guid is the 32-byte digest of the content it names. Guids are ordered by their bytes and
written as 64 lowercase hexadecimal digits; reading accepts digits of either case.
-/

namespace GraphVault

/-- A content address of 32 bytes. -/
structure Guid where
  bytes : Bytes
  length_bytes : bytes.length = 32
  deriving DecidableEq

namespace Guid

instance : Ord Guid := ⟨fun a b => compare a.bytes b.bytes⟩

instance : Std.TransOrd Guid where
  eq_swap {a b} := @Std.OrientedCmp.eq_swap Bytes compare _ a.bytes b.bytes
  isLE_trans {a b c} := @Std.TransCmp.isLE_trans Bytes compare _ a.bytes b.bytes c.bytes

instance : Std.LawfulEqOrd Guid where
  eq_of_compare {a b} h := by
    have : a.bytes = b.bytes := @Std.LawfulEqCmp.eq_of_compare Bytes compare _ _ _ h
    cases a; cases b; simp_all

/-- The guid of a byte string of length 32. -/
def ofBytes? (bytes : Bytes) : Option Guid :=
  if h : bytes.length = 32 then some ⟨bytes, h⟩ else none

/-- The 64 lowercase digits of a guid. -/
def text (g : Guid) : String := String.ofList (Hex.encode g.bytes)

/-- Reads 64 hexadecimal digits of either case. -/
def parse? (s : String) : Option Guid := do ofBytes? (← Hex.decode s.toList)

theorem parse?_text (g : Guid) : parse? g.text = some g := by
  simp [parse?, text, Hex.decode_encode, ofBytes?, g.length_bytes]

end Guid

end GraphVault
