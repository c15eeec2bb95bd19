import ConfigSchema.EditDistance

/-!
# `Suggestion` — what a mistyped key may have been meant to be

A word is compared with candidates by edit distance. The closest ones are suggested, all of those at the
least distance and in their given order, unless even they are farther than `maxDistance`.
-/

namespace ConfigSchema

namespace Suggestion

/-- Candidates farther away than this are never suggested. -/
def maxDistance : Nat := 5

/-- The distinct candidates at the least distance from `word`. -/
def closest (word : String) (candidates : List String) : List String :=
  let distinct := candidates.eraseDups
  match (distinct.map (editDistance word)).min? with
  | none => []
  | some least =>
    if least ≤ maxDistance then distinct.filter fun c => editDistance word c = least else []

/-- The hint that names the suggestions, if there are any. -/
def hint? : List String → Option String
  | [] => none
  | names => some ("perhaps you meant " ++ String.intercalate ", " names)

end Suggestion

end ConfigSchema
