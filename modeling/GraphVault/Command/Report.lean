import GraphVault.Executor
import GraphVault.Json.Documents
import GraphVault.Json.Text
import GraphVault.Plan

/-!
# Reports

What commands answer, as values that have a text for readers and a JSON form for programs.
-/

namespace GraphVault

/-- Text of lines, each of which ends in a line break. -/
def Text.lines (lines : List String) : String := String.join (lines.map (· ++ "\n"))

/-- What a command answers. -/
structure Answer where
  lines : List String
  json : Json

/-- The text of an answer, in JSON if so asked. -/
def Answer.text (answer : Answer) (jsonMode : Bool) : String :=
  Text.lines (if jsonMode then [answer.json.pretty] else answer.lines)

/-! ### Status -/

/-- What a catalog has recorded: entities by kind, and instances. -/
structure Recorded where
  kinds : SortedMap String Nat
  instances : Nat

/-- What a store holds. -/
structure StatusReport where
  settings : Settings
  persisted : Nat
  recorded : Option Recorded

namespace Recorded

/-- One more of a kind. -/
def count (kinds : SortedMap String Nat) (kind : Kind) : SortedMap String Nat :=
  kinds.insert kind.name ((kinds.get? kind.name).getD 0 + 1)

/-- What a catalog has recorded. -/
def ofCatalog (catalog : Catalog) : Except Failure Recorded := do
  let entities ← catalog.listEntities
  let instances ← catalog.listInstances
  let kinds := (entities.map (·.kind)).foldl count SortedMap.empty
  return { kinds, instances := instances.length }

/-- The lines about what is recorded. -/
def lines (recorded : Recorded) : List String :=
  recorded.kinds.entries.map (fun (kind, n) => "  " ++ Text.padRight 24 kind ++ " " ++ toString n)
    ++ ["Recorded instances: " ++ toString recorded.instances]

end Recorded

namespace StatusReport

/-- The lines of a status report. -/
def lines (report : StatusReport) : List String :=
  ["Sphynx Store Status",
    "===================",
    "Ordered:   " ++ Text.quoted report.settings.dataDir,
    "Unordered: " ++ Text.quoted report.settings.unorderedDir,
    "Collision: " ++ report.settings.collision.title,
    "",
    "Persisted entities: " ++ toString report.persisted]
    ++ (report.recorded.map Recorded.lines).getD ["Catalog disabled"]

/-- The JSON form of a status report. -/
def json (report : StatusReport) : Json :=
  let kinds := (report.recorded.map (·.kinds)).getD SortedMap.empty
  .object [("data_dir", .text report.settings.dataDir),
    ("unordered_data_dir", .text report.settings.unorderedDir),
    ("collision", .text report.settings.collision.name),
    ("persist_outputs", .boolean report.settings.persistOutputs),
    ("persisted_entities", Json.ofNat report.persisted),
    ("catalog", .boolean report.recorded.isSome),
    ("entities_by_kind", .object (kinds.entries.map fun (kind, n) => (kind, Json.ofNat n))),
    ("instances", (report.recorded.map fun recorded => Json.ofNat recorded.instances).getD .null)]

/-- A status report as an answer. -/
def answer (report : StatusReport) : Answer := ⟨report.lines, report.json⟩

end StatusReport

/-! ### Executed plans -/

/-- The steps of a plan and what executing them came to. -/
structure PlanReport where
  steps : List PlannedStep
  report : Report

namespace PlanReport

/-- What a step came to. -/
def outcome? (report : PlanReport) (step : PlannedStep) : Option Outcome :=
  report.report.outcomes.get? step.planned.guid

/-- The lines of a step and its outputs. -/
def stepLines (report : PlanReport) (step : PlannedStep) : List String :=
  let outcome := ((report.outcome? step).map Outcome.name).getD ""
  ["", step.name ++ " (" ++ step.planned.className ++ ") [" ++ outcome ++ "]"]
    ++ step.planned.outputs.entries.map fun (slot, guid) =>
      "  " ++ Text.padRight 12 slot ++ " " ++ guid.text

/-- The lines of an executed plan. -/
def lines (report : PlanReport) : List String :=
  ("Plan complete: " ++ toString report.report.computed ++ " computed, "
      ++ toString report.report.cached ++ " cached")
    :: report.steps.flatMap report.stepLines

/-- The JSON form of a step. -/
def stepJson (report : PlanReport) (step : PlannedStep) : Json :=
  .object [("name", .text step.name), ("class", .text step.planned.className),
    ("instance", .text step.planned.guid.text),
    ("outcome", ((report.outcome? step).map fun outcome => Json.text outcome.name).getD .null),
    ("outputs", step.planned.outputs.toJson)]

/-- The JSON form of an executed plan. -/
def json (report : PlanReport) : Json :=
  .object [("computed", Json.ofNat report.report.computed),
    ("cached", Json.ofNat report.report.cached),
    ("steps", .list (report.steps.map report.stepJson))]

/-- An executed plan as an answer. -/
def answer (report : PlanReport) : Answer := ⟨report.lines, report.json⟩

end PlanReport

/-! ### Shown entities -/

/-- An entity and its first rows. -/
structure EntityReport where
  guid : Guid
  entity : Entity
  limit : Nat
  rows : List Json

namespace EntityReport

/-- The lines of a shown entity. -/
def lines (report : EntityReport) : List String :=
  let size := report.entity.size
  ["Entity " ++ report.guid.text,
    "Kind: " ++ report.entity.kind.name,
    "Len:  " ++ toString size]
    ++ report.entity.references.map (fun guid => "Vertex set: " ++ guid.text)
    ++ "" :: report.rows.map (fun row => "  " ++ row.compact)
    ++ if report.limit < size then
        ["  ... (first " ++ toString report.limit ++ " of " ++ toString size ++ " rows)"]
      else []

/-- The JSON form of a shown entity. -/
def json (report : EntityReport) : Json :=
  .object [("guid", .text report.guid.text), ("kind", .text report.entity.kind.name),
    ("len", Json.ofNat report.entity.size),
    ("references", .list (report.entity.references.map fun guid => .text guid.text)),
    ("rows", .list report.rows)]

/-- A shown entity as an answer. -/
def answer (report : EntityReport) : Answer := ⟨report.lines, report.json⟩

end EntityReport

end GraphVault
