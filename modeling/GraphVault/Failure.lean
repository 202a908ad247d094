import GraphVault.Disk.Fault
import GraphVault.Guid.Codec
import GraphVault.Kind
import GraphVault.Text.Quoted

/-!
# Failures

Everything that can go wrong between a request and its answer. Failures fall into families:
missing data may appear once other work is done (`Failure.isRetryable`), corrupt data has to be
regenerated (`Failure.isCorrupt`), and the rest are faults of addressing, operations and the
environment.
-/

namespace GraphVault

/-- Why a row of a row file cannot be read. -/
inductive RowFault where
  /-- The file ends before its row count. -/
  | countMissing
  /-- The row is no wire form. -/
  | wire (fault : Wire.Fault)
  /-- Bytes follow the last row. -/
  | trailing (count : Nat)
  /-- A reason in words. -/
  | other (reason : String)
  deriving DecidableEq

/-- The wording of a row fault. -/
def RowFault.message : RowFault → String
  | countMissing => "row count missing"
  | wire fault => fault.message
  | trailing count => toString count ++ " trailing bytes"
  | other reason => reason

/-- Why a file, a catalog record or a plan cannot be read. -/
inductive FormatFault where
  | headerTooShort
  | invalidMagic
  | unsupportedVersion (version expected : UInt8)
  /-- The manifest stored for a guid is no wire form. -/
  | manifest (guid : Guid) (fault : Wire.Fault)
  /-- The manifest stored for a guid describes another one. -/
  | foreignManifest (found expected : Guid)
  | rowCount (count limit : Nat)
  /-- A manifest refers to too few vertex sets for its kind. -/
  | reference (kind : Kind) (guid : Guid) (index : Nat)
  | fileSize (path : String) (size limit : Nat)
  | catalogEntry (key : String) (fault : Wire.Fault)
  | planSize (size limit : Nat)
  | plan (reason : String)
  /-- A reason in words. -/
  | other (reason : String)
  deriving DecidableEq

/-- The wording of a format fault. -/
def FormatFault.message : FormatFault → String
  | headerTooShort => "Header too short"
  | invalidMagic => "Invalid magic bytes"
  | unsupportedVersion version expected =>
    "Unsupported version: " ++ toString version.toNat ++ " (expected "
      ++ toString expected.toNat ++ ")"
  | manifest guid fault => "Failed to decode manifest of " ++ guid.text ++ ": " ++ fault.message
  | foreignManifest found expected =>
    "Manifest describes " ++ found.text ++ ", expected " ++ expected.text
  | rowCount count limit =>
    "Row count " ++ toString count ++ " exceeds maximum allowed " ++ toString limit
  | reference kind guid index =>
    "Manifest of " ++ kind.name ++ " " ++ guid.text ++ " lacks vertex set reference "
      ++ toString index
  | fileSize path size limit =>
    "File " ++ path ++ " is " ++ toString size ++ " bytes, exceeding maximum allowed "
      ++ toString limit ++ " bytes"
  | catalogEntry key fault => "Catalog entry " ++ key ++ ": " ++ fault.message
  | planSize size limit =>
    "Plan size " ++ toString size ++ " bytes exceeds maximum allowed " ++ toString limit
      ++ " bytes"
  | plan reason => "Invalid plan: " ++ reason
  | other reason => reason

/-- What the file system refused, and while doing what. -/
inductive IoFault where
  /-- An action on a path. -/
  | doing (action path : String) (fault : Disk.Fault)
  /-- Opening a plan file. -/
  | plan (path : String) (fault : Disk.Fault)
  /-- An action that needs no explanation. -/
  | bare (fault : Disk.Fault)
  /-- A reason in words. -/
  | other (reason : String)
  deriving DecidableEq

/-- The wording of a refusal. -/
def IoFault.message : IoFault → String
  | doing action path fault => action ++ " " ++ path ++ ": " ++ fault.message
  | plan path fault => "Cannot read plan '" ++ path ++ "': " ++ fault.message
  | bare fault => fault.message
  | other reason => reason

/-- What the catalog database refused. -/
inductive StorageFault where
  /-- Another store holds the database. -/
  | locked
  /-- The file holds no database. -/
  | foreign
  /-- The file cannot be opened. -/
  | io (fault : Disk.Fault)
  /-- A reason in words. -/
  | other (reason : String)
  deriving DecidableEq

/-- The wording of a storage fault. -/
def StorageFault.message : StorageFault → String
  | locked => "Database already open. Cannot acquire lock."
  | foreign => "DB corrupted: Invalid magic number"
  | io fault => "I/O error: " ++ fault.message
  | other reason => reason

/-- What is wrong with a configuration or a plan. -/
inductive ConfigFault where
  /-- A step of a plan cannot be bound to its inputs. -/
  | step (name reason : String)
  /-- A data directory that is about to be created holds data. -/
  | dataExists (path : String)
  | unreadable (path : String) (fault : Disk.Fault)
  | fileSize (path : String) (limit : Nat)
  /-- A configuration text is malformed. -/
  | malformed (reason : String)
  /-- A reason in words. -/
  | other (reason : String)
  deriving DecidableEq

/-- The wording of a configuration fault. -/
def ConfigFault.message : ConfigFault → String
  | step name reason => "Plan step '" ++ name ++ "': " ++ reason
  | dataExists path =>
    "Data already exists at " ++ Text.quoted path ++ ". Use --force to overwrite."
  | unreadable path fault => "Cannot read config '" ++ path ++ "': " ++ fault.message
  | fileSize path limit => "Config '" ++ path ++ "' exceeds " ++ toString limit ++ " bytes"
  | malformed reason => reason
  | other reason => reason

/-- Why work stopped without an answer. -/
inductive Abort where
  /-- An entity has a position that its vertex set does not have. -/
  | unmappedPosition
  /-- An operation gave up. -/
  | operation
  /-- Stored references lead back to where they started. -/
  | referenceLoop
  deriving DecidableEq, Repr

/-- What went wrong. -/
inductive Failure where
  /-- No entity is registered or persisted under a guid. -/
  | missingEntity (guid : Guid)
  /-- An input slot refers to an entity that does not exist yet. -/
  | missingInput (slot : String) (guid : Guid)
  /-- An entity has another kind than is needed. -/
  | kindMismatch (guid : Guid) (expected found : Kind)
  /-- A column's length disagrees with the size it has to have. -/
  | lengthMismatch (guid : Guid) (field : String) (expected actual : Nat)
  /-- A position lies outside its vertex set. -/
  | positionOutOfRange (guid : Guid) (field : String) (index : Nat) (position : Int) (size : Nat)
  /-- A vertex set has an external id twice. -/
  | duplicateExternalId (guid : Guid) (externalId : Int64)
  /-- A row file has a position twice. -/
  | duplicatePosition (guid : Guid) (row : Nat) (position : Int)
  /-- Rows do not come in increasing order of positions. -/
  | unsortedPositions (guid : Guid) (row : Nat) (position previous : Int)
  /-- A row file holds another number of rows than its manifest declares. -/
  | missingRows (guid : Guid) (expected actual : Nat)
  /-- A row cannot be read. -/
  | malformedRow (guid : Guid) (row : Nat) (fault : RowFault)
  /-- A row refers to an external id that the vertex set does not hold. -/
  | unknownExternalId (guid : Guid) (row : Nat) (externalId : Int64)
  /-- Different content was offered under a registered guid. -/
  | collision (guid : Guid)
  /-- A declared guid is not the one derived from the content. -/
  | guidMismatch (declared derived : Guid)
  /-- A text is no guid. -/
  | invalidGuid (text : String)
  /-- No operation is registered for a class. -/
  | unknownOperation (className : String)
  /-- Parameters do not fit the class. -/
  | invalidParams (className reason : String)
  /-- An operation did not produce a declared output. -/
  | missingOutput (className slot : String)
  /-- An operation produced an output that was not declared. -/
  | unexpectedOutput (className slot : String)
  /-- Operation instances depend on each other in a circle. -/
  | cycle (guid : Guid)
  /-- An operation reported a failure of its own. -/
  | operationFailed (className reason : String)
  /-- Stored or given data is malformed. -/
  | serialization (fault : FormatFault)
  /-- The file system refused something. -/
  | io (fault : IoFault)
  /-- The catalog database refused something. -/
  | storage (fault : StorageFault)
  /-- The configuration is unusable. -/
  | config (fault : ConfigFault)
  /-- Work stopped without an answer. -/
  | aborted (cause : Abort)
  deriving DecidableEq

namespace Failure

/-- Whether the condition may clear up once other work completes. -/
def isRetryable : Failure → Bool
  | missingEntity .. | missingInput .. => true
  | _ => false

/-- Whether the data itself is bad. -/
def isCorrupt : Failure → Bool
  | kindMismatch .. | lengthMismatch .. | positionOutOfRange .. | duplicateExternalId ..
  | duplicatePosition .. | unsortedPositions .. | missingRows .. | malformedRow ..
  | unknownExternalId .. => true
  | _ => false

/-- The name of a kind of failure, by which programs tell failures apart. -/
def label : Failure → String
  | missingEntity .. => "MissingEntity"
  | missingInput .. => "MissingInput"
  | kindMismatch .. => "KindMismatch"
  | lengthMismatch .. => "LengthMismatch"
  | positionOutOfRange .. => "PositionOutOfRange"
  | duplicateExternalId .. => "DuplicateExternalId"
  | duplicatePosition .. => "DuplicatePosition"
  | unsortedPositions .. => "UnsortedPositions"
  | missingRows .. => "MissingRows"
  | malformedRow .. => "MalformedRow"
  | unknownExternalId .. => "UnknownExternalId"
  | collision .. => "Collision"
  | guidMismatch .. => "GuidMismatch"
  | invalidGuid .. => "InvalidGuid"
  | unknownOperation .. => "UnknownOperation"
  | invalidParams .. => "InvalidParams"
  | missingOutput .. => "MissingOutput"
  | unexpectedOutput .. => "UnexpectedOutput"
  | cycle .. => "Cycle"
  | operationFailed .. => "OperationFailed"
  | serialization .. => "SerializationError"
  | io .. => "IoError"
  | storage .. => "StorageError"
  | config .. => "ConfigError"
  | aborted .. => "Aborted"

/-- The wording of a failure. -/
def message : Failure → String
  | missingEntity guid => "Entity not found: " ++ guid.text
  | missingInput slot guid => "Missing input '" ++ slot ++ "': " ++ guid.text
  | kindMismatch guid expected found =>
    "Entity " ++ guid.text ++ " is a " ++ found.name ++ ", expected " ++ expected.name
  | lengthMismatch guid field expected actual =>
    "Length mismatch in " ++ guid.text ++ "." ++ field ++ ": expected " ++ toString expected
      ++ ", got " ++ toString actual
  | positionOutOfRange guid field index position size =>
    "Position out of range in " ++ guid.text ++ "." ++ field ++ "[" ++ toString index ++ "]: "
      ++ toString position ++ " not in 0.." ++ toString size
  | duplicateExternalId guid externalId =>
    "Duplicate external id " ++ toString externalId.toInt ++ " in vertex set " ++ guid.text
  | duplicatePosition guid row position =>
    "Duplicate position " ++ toString position ++ " in " ++ guid.text ++ " at row "
      ++ toString row
  | unsortedPositions guid row position previous =>
    "Unsorted positions in " ++ guid.text ++ " at row " ++ toString row ++ ": "
      ++ toString position ++ " after " ++ toString previous
  | missingRows guid expected actual =>
    "Row count mismatch in " ++ guid.text ++ ": manifest declares " ++ toString expected
      ++ ", found " ++ toString actual
  | malformedRow guid row fault =>
    "Malformed row " ++ toString row ++ " in " ++ guid.text ++ ": " ++ fault.message
  | unknownExternalId guid row externalId =>
    "Unknown external id " ++ toString externalId.toInt ++ " in " ++ guid.text ++ " at row "
      ++ toString row
  | collision guid => "Guid collision: " ++ guid.text ++ " already holds different content"
  | guidMismatch declared derived =>
    "Guid mismatch: declared " ++ declared.text ++ ", derived " ++ derived.text
  | invalidGuid text => "Invalid guid: " ++ Text.quoted text
  | unknownOperation className => "Unknown operation class: " ++ className
  | invalidParams className reason => "Invalid parameters for " ++ className ++ ": " ++ reason
  | missingOutput className slot =>
    "Operation " ++ className ++ " did not produce output '" ++ slot ++ "'"
  | unexpectedOutput className slot =>
    "Operation " ++ className ++ " produced undeclared output '" ++ slot ++ "'"
  | cycle guid => "Operation graph contains a cycle through " ++ guid.text
  | operationFailed className reason => "Operation " ++ className ++ " failed: " ++ reason
  | serialization fault => "Serialization error: " ++ fault.message
  | io fault => "I/O error: " ++ fault.message
  | storage fault => "Storage error: " ++ fault.message
  | config fault => "Configuration error: " ++ fault.message
  | aborted .unmappedPosition => "Aborted: a position lies outside its vertex set"
  | aborted .operation => "Aborted: the operation gave up"
  | aborted .referenceLoop => "Aborted: stored references form a loop"

end Failure

end GraphVault
