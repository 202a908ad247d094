import GraphVault.Catalog
import GraphVault.Format.Header

/-!
# Catalog files

A catalog as one file: a header and the two tables.
-/

namespace GraphVault.Catalog

/-- One table on the wire. -/
def tableCodec : Wire.Codec (SortedMap String Bytes) :=
  Wire.Codec.map Wire.Codec.text Wire.Codec.bytes

/-- Catalogs on the wire. -/
def codec : Wire.Codec Catalog :=
  (tableCodec.pair tableCodec).via (fun c => (c.instances, c.entities))
    fun (instances, entities) => .ok ⟨instances, entities⟩

/-- The bytes of a catalog file. -/
def encodeFile (catalog : Catalog) : Bytes := Header.bytes ++ codec.encode catalog

/-- The catalog of a file, if it holds one. -/
def decodeFile? (bytes : Bytes) : Option Catalog :=
  match Header.strip bytes with
  | .error _ => none
  | .ok body => (codec.read body).toOption

end GraphVault.Catalog
