/-!
# `Segment` — one step into a container

A place inside a value is reached by a list of segments: keys lead into objects, indices into arrays.
-/

namespace ConfigSchema

/-- A key of an object, or an index of an array. -/
inductive Segment where
  | key (name : String)
  | index (i : Nat)
deriving DecidableEq

namespace Segment

/-- The segment as it stands in a dotted path. -/
def text : Segment → String
  | key name => name
  | index i => toString i

end Segment

end ConfigSchema
