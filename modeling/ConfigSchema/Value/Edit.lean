import ConfigSchema.Value.Basic
import ConfigSchema.Segment

/-!
# `Value.Edit` — changing a value at a place

`Value.editAt` walks a path and changes what it finds there; a path that does not fit the value, or a change
that does not fit its end, gives none. The two changes are writing an entry of an object and pushing an
element onto an array.
-/

namespace ConfigSchema

namespace Value

/-- Changes the value that `path` leads to. -/
def editAt (change : Value → Option Value) : List Segment → Value → Option Value
  | [], v => change v
  | .index i :: path, array items =>
      items[i]?.bind fun item =>
        (editAt change path item).map fun item => array (items.set i item)
  | .key key :: path, object fields =>
      (fields.lookup key).bind fun entry =>
        (editAt change path entry).map fun entry => object (Fields.insert key entry fields)
  | _ :: _, _ => none

/-- Writes an entry of an object. -/
def write (container : Value) (key : String) (entry : Value) : Option Value :=
  match container with
  | object fields => some (object (Fields.insert key entry fields))
  | _ => none

/-- Adds an element at the end of an array. -/
def push (container : Value) (item : Value) : Option Value :=
  match container with
  | array items => some (array (items ++ [item]))
  | _ => none

end Value

end ConfigSchema
