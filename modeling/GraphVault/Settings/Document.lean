import GraphVault.Failure
import GraphVault.Settings
import GraphVault.Toml.Reader

/-!
# Settings from TOML

A configuration document has at most one table, `store`, whose keys replace settings of the program;
directories given from outside replace those of the document.
-/

namespace GraphVault

/-- Directories that replace those of a configuration document. -/
structure Overrides where
  dataDir : Option String
  unorderedDir : Option String
  deriving DecidableEq

/-- The settings that a document gives. -/
structure SettingsDocument where
  dataDir : Option String
  unorderedDir : Option String
  collision : Option CollisionPolicy
  persistOutputs : Option Bool
  catalog : Option Bool
  deriving DecidableEq

namespace SettingsDocument

/-- The document without any settings. -/
def empty : SettingsDocument := ⟨none, none, none, none, none⟩

/-- What reading a part of a document gives, or what is wrong with it. -/
abbrev Reading (α : Type) := Except String α

/-- A text. -/
def asText : Toml → Reading String
  | .text s => .ok s
  | _ => .error "expected a string"

/-- A truth value. -/
def asBoolean : Toml → Reading Bool
  | .boolean b => .ok b
  | _ => .error "expected a boolean"

/-- The name of a policy: a text, or the only key of a table, with nothing in it. -/
def policyName : Toml → Reading String
  | .text s => .ok s
  | .table _ [(name, .table _ [])] | .table _ [(name, .list _ [])] => .ok name
  | _ => .error "expected the name of a policy"

/-- A policy. -/
def asPolicy (value : Toml) : Reading CollisionPolicy := do
  let name ← policyName value
  match CollisionPolicy.ofName? name with
  | some policy => return policy
  | none => throw ("unknown policy '" ++ name ++ "'")

/-- The document with one more setting. -/
def set (document : SettingsDocument) (name : String) (value : Toml) :
    Reading SettingsDocument := do
  match name with
  | "data_dir" => return { document with dataDir := ← asText value }
  | "unordered_data_dir" => return { document with unorderedDir := ← asText value }
  | "collision" => return { document with collision := ← asPolicy value }
  | "persist_outputs" => return { document with persistOutputs := ← asBoolean value }
  | "catalog" => return { document with catalog := ← asBoolean value }
  | _ => throw ("unknown key '" ++ name ++ "'")

/-- The names of the settings, in the order in which an array gives them. -/
def names : List String :=
  ["data_dir", "unordered_data_dir", "collision", "persist_outputs", "catalog"]

/-- The document with further settings. -/
def setAll : SettingsDocument → List (String × Toml) → Reading SettingsDocument
  | document, [] => .ok document
  | document, (name, value) :: rest => do setAll (← document.set name value) rest

/-- The settings of the value of `store`: a table, or an array of settings in order. -/
def ofStore : Toml → Reading SettingsDocument
  | .table _ members => setAll empty members
  | .list _ items => setAll empty (names.zip items)
  | _ => .error "expected a table"

/-- The settings of a document. -/
def ofMembers : Toml.Members → Reading SettingsDocument
  | [] => .ok empty
  | [("store", store)] => ofStore store
  | ("store", _) :: (name, _) :: _ | (name, _) :: _ => .error ("unknown key '" ++ name ++ "'")

/-- The settings of a document text. -/
def ofText (s : String) : Reading SettingsDocument :=
  match Toml.parse s with
  | .error fault => .error fault.message
  | .ok members => ofMembers members

/-- The settings of the program: those it starts from, replaced by the document's, and these by the
ones given from outside. -/
def apply (document : SettingsDocument) (overrides : Overrides) : Settings :=
  let start := Settings.default.persistent
  { dataDir := (overrides.dataDir <|> document.dataDir).getD start.dataDir
    unorderedDir := (overrides.unorderedDir <|> document.unorderedDir).getD start.unorderedDir
    collision := document.collision.getD start.collision
    persistOutputs := document.persistOutputs.getD start.persistOutputs
    catalog := document.catalog.getD start.catalog }

end SettingsDocument

/-- The settings of a document text and of what is given from outside. -/
def Settings.ofToml (s : String) (overrides : Overrides) : Except Failure Settings :=
  match SettingsDocument.ofText s with
  | .error reason => .error (.config (.malformed reason))
  | .ok document => .ok (document.apply overrides)

end GraphVault
