import ConfigSchema.Dump
import ConfigSchema.Number.Text
import ConfigSchema.Value.Basic

/-!
# `Value.Dump` — values and kinds as dumps
-/

namespace ConfigSchema

/-- The constructor of a kind. -/
def Kind.dump : Kind → Dump
  | .string => .word "String"
  | .number => .word "Number"
  | .boolean => .word "Boolean"
  | .function => .word "Function"
  | .undefined => .word "Undefined"
  | .null => .word "Null"
  | .array => .word "Array"
  | .regexp => .word "Regexp"
  | .object => .word "Object"

namespace Value

mutual

/-- A value, with everything inside it. -/
def dump : Value → Dump
  | undefined => .word "Undefined"
  | null => .word "Null"
  | bool b => .tuple "Bool" [.ofBool b]
  | number n => .tuple "Number" [.tuple "Number" [.word n.text]]
  | string s => .tuple "String" [.quoted s]
  | array items => .tuple "Array" [.list (dumpItems items)]
  | object fields => .tuple "Object" [.map (dumpFields fields)]
  | regexp p => .tuple "Regex" [.tuple "Regex" [.quoted p.source]]
  | function _ => .tuple "Function" [.tuple "Callable" [.word "<function>"]]

/-- The elements of an array. -/
def dumpItems : List Value → List Dump
  | [] => []
  | v :: rest => dump v :: dumpItems rest

/-- The entries of an object. -/
def dumpFields : List (String × Value) → List (String × Dump)
  | [] => []
  | (key, v) :: rest => (key, dump v) :: dumpFields rest

end

end Value

end ConfigSchema
