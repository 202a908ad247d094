/-!
# Paths

Paths as texts of segments between slashes.
-/

namespace GraphVault.Path

/-- The texts between the slashes of a path. -/
def segments (path : String) : List String := (path.toList.splitOn '/').map String.ofList

/-- Whether a path starts at the root. -/
def isAbsolute (path : String) : Bool := path.toList.head? = some '/'

/-- A path below another; an absolute one stands for itself. -/
def join (base path : String) : String :=
  if isAbsolute path || base = "" then path
  else if base.toList.getLast? = some '/' then base ++ path
  else base ++ "/" ++ path

/-- The names on a path, without those that stay where they are. -/
def names (path : String) : List String :=
  (segments path).filter fun name => name ≠ "" && name ≠ "."

/-- The path through names, from the root if `absolute` holds. -/
def ofNames (absolute : Bool) (names : List String) : String :=
  (if absolute then "/" else "") ++ String.intercalate "/" names

/-- The path without its last name. -/
def parent (path : String) : String := ofNames (isAbsolute path) (names path).dropLast

end GraphVault.Path
