import ConfigSchema.Outcome.Basic
import ConfigSchema.Value.Dump

/-!
# `Outcome.Dump` — outcomes as dumps
-/

namespace ConfigSchema

/-- The constructor of a segment, with its argument. -/
def Segment.dump : Segment → Dump
  | .key name => .tuple "Key" [.quoted name]
  | .index i => .tuple "Index" [.word (toString i)]

namespace Outcome

/-- A node, apart from how it is shaped. -/
def dumpNode (shape : Dump) (warning : Option String) : Dump :=
  .record "Outcome" [("kind", shape), ("warning", .ofOption .quoted warning)]

mutual

/-- An outcome, node by node. -/
def dump : Outcome → Dump
  | passed warning => dumpNode (.word "Passed") warning
  | failed expected actual warning =>
      dumpNode (.tuple "Failed" [.record "Mismatch"
        [("expected", .quoted expected), ("actual", actual.kind.dump), ("value", actual.dump)]]) warning
  | items entries warning => dumpNode (.tuple "Collection" [.list (dumpEntries entries)]) warning

/-- The items of a container, each with its segment. -/
def dumpEntries : List (Segment × Outcome) → List Dump
  | [] => []
  | (segment, outcome) :: rest =>
      .record "ItemOutcome" [("path", segment.dump), ("outcome", dump outcome)] :: dumpEntries rest

end

end Outcome

end ConfigSchema
