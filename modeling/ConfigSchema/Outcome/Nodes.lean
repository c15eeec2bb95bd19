import ConfigSchema.Outcome.Basic

/-!
# `Outcome.Nodes` — the nodes of an outcome, with their paths

`Outcome.nodes` lists every node of a tree behind all of its descendants, so that the root comes last. The
path of an item is the path of its container, a dot, and the item's segment; below an empty path the segment
stands alone. The verdict of each node is computed on the way, from the verdicts of its items.
-/

namespace ConfigSchema

/-- A node of an outcome: its path, its verdict, and the tree below it. -/
structure Node where
  path : String
  ok : Bool
  outcome : Outcome

namespace Outcome

/-- The path of an item in the container at `path`. -/
def childPath (path : String) (segment : Segment) : String :=
  if path = "" then segment.text else path ++ "." ++ segment.text

mutual

/-- The verdict of a tree at `path`, and all its nodes. -/
def survey (path : String) : Outcome → Bool × List Node
  | passed w => (true, [⟨path, true, passed w⟩])
  | failed expected actual w => (false, [⟨path, false, failed expected actual w⟩])
  | items entries w =>
      let below := surveyEntries path entries
      (below.1, below.2 ++ [⟨path, below.1, items entries w⟩])

/-- The common verdict of the items of the container at `path`, and all their nodes. -/
def surveyEntries (path : String) : List (Segment × Outcome) → Bool × List Node
  | [] => (true, [])
  | (segment, outcome) :: rest =>
      let first := survey (childPath path segment) outcome
      let others := surveyEntries path rest
      (first.1 && others.1, first.2 ++ others.2)

end

/-- The nodes of a tree at `path`, every node behind its descendants. -/
def nodes (outcome : Outcome) (path : String) : List Node := (survey path outcome).2

end Outcome

end ConfigSchema
