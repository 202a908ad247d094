import GraphVault.CommandLine.Usage
import GraphVault.Guid

/-!
# Arguments

The arguments of a command line, where they may stand, and the values they are given. A command line
has two levels: what comes before the subcommand, and the subcommand with what comes behind it.
-/

namespace GraphVault.CommandLine

/-- A subcommand. -/
inductive Subcommand where
  | init | status | run | show | exportUnordered | importUnordered | purge | classes
  deriving DecidableEq, Repr

namespace Subcommand

/-- All subcommands. -/
def all : List Subcommand :=
  [init, status, run, .show, exportUnordered, importUnordered, purge, classes]

/-- The word of a subcommand. -/
def word : Subcommand → String
  | init => "init"
  | status => "status"
  | run => "run"
  | .show => "show"
  | exportUnordered => "export-unordered"
  | importUnordered => "import-unordered"
  | purge => "purge"
  | classes => "classes"

/-- The subcommand of a word. -/
def ofWord? (word : String) : Option Subcommand := all.find? (·.word = word)

end Subcommand

/-- An argument. -/
inductive Argument where
  | config | dataDir | unorderedDir | jsonMode | help | version | force | plan | limit
  /-- A guid, which is given without a name. -/
  | guid
  deriving DecidableEq, Repr

namespace Argument

/-- The word of an option behind two dashes. -/
def long : Argument → String
  | config => "config"
  | dataDir => "data-dir"
  | unorderedDir => "unordered-data-dir"
  | jsonMode => "json-mode"
  | help => "help"
  | version => "version"
  | force => "force"
  | plan => "plan"
  | limit => "limit"
  | guid => "guid"

/-- The letter of an option behind one dash. -/
def short? : Argument → Option Char
  | config => some 'c'
  | help => some 'h'
  | version => some 'V'
  | force => some 'f'
  | plan => some 'p'
  | limit => some 'l'
  | dataDir | unorderedDir | jsonMode | guid => none

/-- Whether an argument has a value. -/
def takesValue : Argument → Bool
  | config | dataDir | unorderedDir | plan | limit | guid => true
  | jsonMode | help | version | force => false

end Argument

/-- A level of a command line. -/
inductive Level where
  | top
  | below (subcommand : Subcommand)
  deriving DecidableEq, Repr

namespace Level

/-- The options that every level has. -/
def common : List Argument := [.config, .dataDir, .unorderedDir, .jsonMode, .help]

/-- The options of a level. -/
def options : Level → List Argument
  | top => .version :: common
  | below .init => .force :: common
  | below .run => .plan :: common
  | below .show => .limit :: common
  | below _ => common

/-- Whether a guid stands at a level. -/
def takesGuid : Level → Bool
  | below .show | below .exportUnordered | below .importUnordered | below .purge => true
  | _ => false

/-- The option of a word. -/
def ofLong? (level : Level) (word : String) : Option Argument :=
  level.options.find? (·.long = word)

/-- The option of a letter. -/
def ofShort? (level : Level) (letter : Char) : Option Argument :=
  level.options.find? (·.short? = some letter)

end Level

/-- The values that the arguments of a level are given. -/
structure Values where
  config : Option String
  dataDir : Option String
  unorderedDir : Option String
  jsonMode : Bool
  force : Bool
  plan : Option String
  limit : Option Nat
  guid : Option Guid

namespace Values

/-- No values. -/
def empty : Values := ⟨none, none, none, false, false, none, none, none⟩

/-- Whether an argument is given. -/
def isGiven (values : Values) : Argument → Bool
  | .config => values.config.isSome
  | .dataDir => values.dataDir.isSome
  | .unorderedDir => values.unorderedDir.isSome
  | .jsonMode => values.jsonMode
  | .force => values.force
  | .plan => values.plan.isSome
  | .limit => values.limit.isSome
  | .guid => values.guid.isSome
  | .help | .version => false

/-- A path, which is not empty. -/
def path (s : String) : Except UsageFault String :=
  if s.isEmpty then .error .emptyValue else .ok s

/-- A number of rows: decimal digits, behind a plus sign or not, of a number below `2 ^ 64`. -/
def rowLimit (s : String) : Except UsageFault Nat :=
  let digits := match s.toList with
    | '+' :: rest => rest
    | all => all
  let n := digits.foldl (fun n c => 10 * n + (c.toNat - '0'.toNat)) 0
  if !digits.isEmpty && digits.all Char.isDigit && n < 2 ^ 64 then .ok n
  else .error .malformedValue

/-- The values with one more given; an option without a value ignores the text. An argument is given
once at most. -/
def give (values : Values) (argument : Argument) (s : String) : Except UsageFault Values := do
  if values.isGiven argument then throw .repeatedOption
  match argument with
  | .config => return { values with config := ← path s }
  | .dataDir => return { values with dataDir := ← path s }
  | .unorderedDir => return { values with unorderedDir := ← path s }
  | .plan => return { values with plan := ← path s }
  | .limit => return { values with limit := ← rowLimit s }
  | .jsonMode => return { values with jsonMode := true }
  | .force => return { values with force := true }
  | .guid =>
    match Guid.parse? s with
    | some guid => return { values with guid }
    | none => throw .malformedValue
  | .help => throw .helpAsked
  | .version => throw .versionAsked

end Values

end GraphVault.CommandLine
