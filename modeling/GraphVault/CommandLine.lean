import GraphVault.Command
import GraphVault.CommandLine.Argument

/-!
# Command lines

Reading a command line from left to right. An argument that stands apart from its value is settled
only when the next argument or the end of the level comes, so a word that is not known at all is
reported before a bad value in front of it. Behind `--` every word is a value without a name.
-/

namespace GraphVault.CommandLine

/-- What is read of a level: the values, an argument that is not settled yet with the word that is
its value, and whether a guid was seen. -/
structure Progress where
  values : Values
  pending : Option (Argument × Option String)
  guidSeen : Bool

namespace Progress

/-- Nothing read yet. -/
def start : Progress := ⟨Values.empty, none, false⟩

/-- Whether the last option still waits for its value. -/
def isWaiting (progress : Progress) : Bool :=
  match progress.pending with
  | some (_, none) => true
  | _ => false

/-- Gives the argument that is not settled its value. -/
def settle (progress : Progress) : Except UsageFault Progress :=
  match progress.pending with
  | none => .ok progress
  | some (_, none) => .error .emptyValue
  | some (argument, some word) =>
    return { progress with values := ← progress.values.give argument word, pending := none }

/-- Takes an option together with its value, if it has one. -/
def give (progress : Progress) (argument : Argument) (word : String) :
    Except UsageFault Progress := do
  let progress ← progress.settle
  return { progress with values := ← progress.values.give argument word }

/-- Takes an option whose value comes as the next word. -/
def await (progress : Progress) (argument : Argument) : Except UsageFault Progress := do
  return { ← progress.settle with pending := some (argument, none) }

/-- Takes a word as the value that the last option waits for. -/
def fill (progress : Progress) (word : String) : Progress :=
  { progress with pending := progress.pending.map fun (argument, _) => (argument, some word) }

/-- Takes a word without a name. -/
def place (progress : Progress) (level : Level) (word : String) : Except UsageFault Progress := do
  if level.takesGuid && !progress.guidSeen then
    return { ← progress.settle with pending := some (.guid, some word), guidSeen := true }
  else throw (if level = .top then .unknownSubcommand else .unknownArgument)

/-- Takes an option by its word, and the text behind an equals sign. -/
def takeLong (progress : Progress) (level : Level) (word : String) (attached : Option String) :
    Except UsageFault Progress :=
  match level.ofLong? word, attached with
  | none, _ => .error .unknownArgument
  | some option, some value =>
    if option.takesValue then progress.give option value else .error .unwantedValue
  | some option, none =>
    if option.takesValue then progress.await option else progress.give option ""

/-- Takes options by their letters. The letters behind an option with a value are its value, of
which an equals sign at the front is no part. -/
def takeShort (progress : Progress) (level : Level) : List Char → Except UsageFault Progress
  | [] => .ok progress
  | letter :: rest =>
    match level.ofShort? letter with
    | none => .error .unknownArgument
    | some option =>
      if option.takesValue then
        match rest with
        | [] => progress.await option
        | '=' :: value => progress.give option (String.ofList value)
        | value => progress.give option (String.ofList value)
      else do takeShort (← progress.give option "") level rest

end Progress

/-- A word behind dashes. -/
inductive Dashed where
  /-- Only two dashes. -/
  | end
  | long (word : String) (attached : Option String)
  | short (letters : List Char)

/-- What a word is if it starts with dashes; a single dash is a plain word. -/
def dashed? (word : String) : Option Dashed :=
  match word.toList with
  | ['-', '-'] => some .end
  | '-' :: '-' :: rest =>
    let attached := match rest.dropWhile (· ≠ '=') with
      | [] => none
      | _ :: value => some (String.ofList value)
    some (.long (String.ofList (rest.takeWhile (· ≠ '='))) attached)
  | '-' :: letter :: rest => some (.short (letter :: rest))
  | _ => none

/-- The word that asks for help on a subcommand. -/
def helpWord : String := "help"

/-- Whether a word names a subcommand. -/
def isSubcommand (word : String) : Bool := word = helpWord || (Subcommand.ofWord? word).isSome

/-- Reads words that are all values without a name. -/
def readPlain (level : Level) : Progress → List String → Except UsageFault Progress
  | progress, [] => .ok progress
  | progress, word :: rest => do
    if level = .top && isSubcommand word then throw .unknownArgument
    readPlain level (← progress.place level word) rest

/-- Reads a level up to its end, or up to a subcommand, which is given back with what follows. -/
def readLevel (level : Level) :
    Progress → List String → Except UsageFault (Progress × Option (String × List String))
  | progress, [] => .ok (progress, none)
  | progress, word :: rest =>
    if level = .top && !progress.isWaiting && isSubcommand word then
      .ok (progress, some (word, rest))
    else
      match dashed? word with
      | some .end => return (← readPlain level progress rest, none)
      | some (.long word attached) => do
        readLevel level (← progress.takeLong level word attached) rest
      | some (.short letters) => do readLevel level (← progress.takeShort level letters) rest
      | none =>
        if progress.isWaiting then readLevel level (progress.fill word) rest
        else do readLevel level (← progress.place level word) rest

/-- The environment variable that gives the root of the ordered layout. -/
def dataDirVariable : String := "ORDERED_SPHYNX_DATA_DIR"

/-- The environment variable that gives the root of the unordered layout. -/
def unorderedDirVariable : String := "UNORDERED_SPHYNX_DATA_DIR"

/-- Refuses an empty directory of the environment where it would be used. -/
def checkDirectory (given outside : Option String) : Except UsageFault Unit :=
  if given.isNone && outside = some "" then .error .emptyValue else .ok ()

/-- The values of a level, once all of it is read. -/
def finish (environment : Overrides) (progress : Progress) : Except UsageFault Values := do
  let values := (← progress.settle).values
  checkDirectory values.dataDir environment.dataDir
  checkDirectory values.unorderedDir environment.unorderedDir
  return values

/-- The value of an argument that has to be given. -/
def require {α : Type} : Option α → Except UsageFault α
  | some a => .ok a
  | none => .error .missingArgument

/-- How many rows are shown unless a number is given. -/
def defaultLimit : Nat := 20

/-- The command of a subcommand and its arguments. -/
def command (values : Values) : Subcommand → Except UsageFault Command
  | .init => return .init values.force
  | .status => return .status
  | .run => return .run (← require values.plan)
  | .show => return .show (← require values.guid) (values.limit.getD defaultLimit)
  | .exportUnordered => return .exportCopy (← require values.guid)
  | .importUnordered => return .importCopy (← require values.guid)
  | .purge => return .purge (← require values.guid)
  | .classes => return .classes

/-- The invocation of a command whose options are given at two levels. The inner one counts first,
and the environment last. -/
def invocation (environment : Overrides) (outer inner : Values) (command : Command) :
    Invocation where
  command := command
  config := inner.config <|> outer.config
  overrides :=
    { dataDir := inner.dataDir <|> outer.dataDir <|> environment.dataDir
      unorderedDir := inner.unorderedDir <|> outer.unorderedDir <|> environment.unorderedDir }
  jsonMode := inner.jsonMode || outer.jsonMode

/-- The fault that a request for help stands for. At most one subcommand may be named. -/
def helpFault : List String → UsageFault
  | [] => .helpAsked
  | [word] => if isSubcommand word then .helpAsked else .unknownSubcommand
  | _ => .unknownSubcommand

/-- Reads a subcommand and its arguments. -/
def readSubcommand (environment : Overrides) (word : String) (rest : List String) :
    Except UsageFault (Values × Command) := do
  match Subcommand.ofWord? word with
  | none => throw (helpFault rest)
  | some subcommand =>
    let (progress, _) ← readLevel (.below subcommand) Progress.start rest
    let values ← finish environment progress
    return (values, ← command values subcommand)

/-- Reads a command line. Without a subcommand it asks for the status. -/
def parse (environment : Overrides) (words : List String) : Except UsageFault Invocation := do
  let (progress, subcommand) ← readLevel .top Progress.start words
  match subcommand with
  | none => return invocation environment (← finish environment progress) Values.empty .status
  | some (word, rest) =>
    let (inner, command) ← readSubcommand environment word rest
    return invocation environment (← finish environment progress) inner command

end GraphVault.CommandLine
