/-!
# Usage faults

Why a command line is not one that can be executed: it is refused, or it asks for a text about the
program itself.
-/

namespace GraphVault

/-- What stands in the way of executing a command line. -/
inductive UsageFault where
  /-- The help text is asked for. -/
  | helpAsked
  /-- The version is asked for. -/
  | versionAsked
  | unknownArgument
  | unknownSubcommand
  /-- A value is missing, or empty where it may not be. -/
  | emptyValue
  /-- A value is not of the form that is needed. -/
  | malformedValue
  /-- A value is given to an option that takes none. -/
  | unwantedValue
  /-- An option is given twice. -/
  | repeatedOption
  /-- An argument that has to be given is not. -/
  | missingArgument
  deriving DecidableEq, Repr

namespace UsageFault

/-- The name of a fault, by which programs tell faults apart. -/
def label : UsageFault → String
  | helpAsked => "DisplayHelp"
  | versionAsked => "DisplayVersion"
  | unknownArgument => "UnknownArgument"
  | unknownSubcommand => "InvalidSubcommand"
  | emptyValue => "InvalidValue"
  | malformedValue => "ValueValidation"
  | unwantedValue => "TooManyValues"
  | repeatedOption => "ArgumentConflict"
  | missingArgument => "MissingRequiredArgument"

/-- The help text. -/
def help : String :=
  String.intercalate "\n" ["Sphynx - content-addressed graph entity store", "",
    "Usage: sphynx [OPTIONS] [COMMAND]", "",
    "Commands:",
    "  init [--force]            Create the data directories and catalog",
    "  status                    Show persisted entities and recorded instances",
    "  run --plan <PLAN>         Execute a JSON plan",
    "  show <GUID> [--limit N]   Load and print one entity",
    "  export-unordered <GUID>   Write an entity to the unordered staging area",
    "  import-unordered <GUID>   Read an entity from the unordered staging area and persist it",
    "  purge <GUID>              Delete a persisted entity and its catalog entry",
    "  classes                   List registered operation classes", "",
    "Options:",
    "  -c, --config <CONFIG>     Path to the configuration file",
    "      --data-dir <DIR>      Root of the position-ordered entity data",
    "      --unordered-data-dir <DIR>",
    "                            Root of the unordered staging data",
    "      --json-mode           Output in JSON format",
    "  -h, --help                Print help",
    "  -V, --version             Print version", ""]

/-- The version text. -/
def version : String := "sphynx 0.3.0\n"

/-- The text that tells of a fault. -/
def message : UsageFault → String
  | helpAsked => help
  | versionAsked => version
  | unknownArgument => "error: unexpected argument\n"
  | unknownSubcommand => "error: unrecognized subcommand\n"
  | emptyValue => "error: a value is required\n"
  | malformedValue => "error: invalid value\n"
  | unwantedValue => "error: unexpected value\n"
  | repeatedOption => "error: an argument cannot be used multiple times\n"
  | missingArgument => "error: a required argument was not provided\n"

end UsageFault

end GraphVault
