import GraphVault.Guid
import GraphVault.Settings.Document

/-!
# Commands

What the program can be asked to do.
-/

namespace GraphVault

/-- One request. -/
inductive Command where
  /-- Makes the roots of a store, in place of what is there if that is allowed. -/
  | init (force : Bool)
  /-- Tells what a store holds. -/
  | status
  /-- Executes the plan at a path. -/
  | run (plan : String)
  /-- Lists the first rows of an entity. -/
  | show (guid : Guid) (limit : Nat)
  /-- Writes an exchange copy of an entity. -/
  | exportCopy (guid : Guid)
  /-- Reads an exchange copy and persists it. -/
  | importCopy (guid : Guid)
  /-- Drops an entity. -/
  | purge (guid : Guid)
  /-- Lists the known classes of operations. -/
  | classes
  deriving DecidableEq

/-- A command and how to carry it out. -/
structure Invocation where
  command : Command
  /-- The configuration document, unless it is the default one. -/
  config : Option String
  overrides : Overrides
  /-- Whether answers are JSON where a command can give it. -/
  jsonMode : Bool
  deriving DecidableEq

end GraphVault
