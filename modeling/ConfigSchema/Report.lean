import ConfigSchema.Outcome.Nodes
import ConfigSchema.Value.Text

/-!
# `Report` — errors and warnings for a reader

A report lists what an outcome has to say: one error for every failed leaf, and one warning for every node,
passed or failed, whose warning is not empty. Both lists are in the order of `Outcome.nodes`. A container
that fails has no error of its own, its failed leaves have theirs.
-/

namespace ConfigSchema

/-- A text about the place at a path. -/
structure Finding where
  path : String
  text : String
deriving DecidableEq

/-- The errors and the warnings of an outcome. -/
structure Report where
  errors : List Finding
  warnings : List Finding
deriving DecidableEq

namespace Outcome

/-- The message of a failed leaf. -/
def message? : Outcome → Option String
  | failed expected actual _ =>
      some ("expected: " ++ expected ++ ", got: " ++ actual.kind.name ++ " (" ++ actual.display ++ ")")
  | _ => none

end Outcome

namespace Node

/-- The error of a node that is not ok. -/
def error? (node : Node) : Option Finding :=
  if node.ok then none else node.outcome.message?.map (Finding.mk node.path)

/-- The warning of a node, unless it is empty. -/
def warning? (node : Node) : Option Finding :=
  (node.outcome.warning?.filter (· ≠ "")).map (Finding.mk node.path)

end Node

namespace Report

/-- Everything that the outcome at `path` has to say, also if it is ok. -/
def collect (outcome : Outcome) (path : String) : Report :=
  let nodes := outcome.nodes path
  ⟨nodes.filterMap Node.error?, nodes.filterMap Node.warning?⟩

/-- The report on a failure; an outcome that is ok has none. -/
def ofFailure? (outcome : Outcome) (path : String) : Option Report :=
  if outcome.isOk then none else some (collect outcome path)

/-- Is there nothing to report? -/
def isEmpty (report : Report) : Bool := report.errors.isEmpty && report.warnings.isEmpty

/-- Is there an error? -/
def hasErrors (report : Report) : Bool := !report.errors.isEmpty

/-! ## Output -/

/-- One line for each finding, the errors first. -/
def text (report : Report) : String :=
  let line (label : String) (finding : Finding) := label ++ " at " ++ finding.path ++ ": " ++ finding.text
  String.intercalate "\n" (report.errors.map (line "error") ++ report.warnings.map (line "warning"))

/-- The findings as JSON, each text under the name of its list. -/
def toJson (report : Report) : Json :=
  let list (name : String) (findings : List Finding) :=
    Json.array (findings.map fun f => .object [("path", .string f.path), (name, .string f.text)])
  .object [("errors", list "message" report.errors), ("warnings", list "warning" report.warnings)]

end Report

end ConfigSchema
