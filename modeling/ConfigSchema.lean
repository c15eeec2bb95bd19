import ConfigSchema.Checker
import ConfigSchema.Dump
import ConfigSchema.EditDistance
import ConfigSchema.Fields
import ConfigSchema.Json
import ConfigSchema.Limits
import ConfigSchema.Number.Basic
import ConfigSchema.Number.Shortest
import ConfigSchema.Number.Text
import ConfigSchema.Number.Word
import ConfigSchema.Outcome.Basic
import ConfigSchema.Outcome.Dump
import ConfigSchema.Outcome.Nodes
import ConfigSchema.Report
import ConfigSchema.Run
import ConfigSchema.Schema.Basic
import ConfigSchema.Schema.Dump
import ConfigSchema.Schema.Merge
import ConfigSchema.Schema.Validate
import ConfigSchema.Segment
import ConfigSchema.Settings
import ConfigSchema.Suggestion
import ConfigSchema.Value.Basic
import ConfigSchema.Value.Copy
import ConfigSchema.Value.Dump
import ConfigSchema.Value.Edit
import ConfigSchema.Value.Equality
import ConfigSchema.Value.Text
import ConfigSchema.Proofs.Ensures
import ConfigSchema.Proofs.Parts
import ConfigSchema.Proofs.Verdict
import ConfigSchema.Proofs.Closure
import ConfigSchema.Proofs.Conformance
import ConfigSchema.Proofs.Alike
import ConfigSchema.Proofs.DepthBudget
import ConfigSchema.Proofs.Erasure
import ConfigSchema.Proofs.Growth
import ConfigSchema.Proofs.Journal
import ConfigSchema.Proofs.Course
import ConfigSchema.Proofs.Accounting
import ConfigSchema.Proofs.Choice
import ConfigSchema.Proofs.Completion
import ConfigSchema.Proofs.Repetition
import ConfigSchema.Proofs.Location
import ConfigSchema.Proofs.Identity
import ConfigSchema.Proofs.Cloning
import ConfigSchema.Proofs.Unshared
import ConfigSchema.Proofs.Merging
import ConfigSchema.Proofs.Associativity
import ConfigSchema.Proofs.Layering
import ConfigSchema.Proofs.SharedPaths
import ConfigSchema.Proofs.Conflict
import ConfigSchema.Proofs.EmptyMerge
import ConfigSchema.Proofs.Reordering
import ConfigSchema.Proofs.OrderIndependence
import ConfigSchema.Proofs.Postorder
import ConfigSchema.Proofs.Reporting
import ConfigSchema.Proofs.Levels
import ConfigSchema.Proofs.Lockstep
import ConfigSchema.Proofs.LimitUnseen
import ConfigSchema.Proofs.Muting
import ConfigSchema.Proofs.WholeEquality
import ConfigSchema.Proofs.StartPath
import ConfigSchema.Proofs.LooseEquality
import ConfigSchema.Proofs.EntryByEntry
import ConfigSchema.Proofs.Edits
import ConfigSchema.Proofs.Distance
import ConfigSchema.Proofs.Nearest
