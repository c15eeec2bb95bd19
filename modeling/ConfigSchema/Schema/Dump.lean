import ConfigSchema.Schema.Basic
import ConfigSchema.Value.Dump

/-!
# `Schema.Dump` — schemas as dumps

A container schema demands a kind before it looks at the items, and its dump shows it so: as a composition of
the check for the kind with the check of the items. Functions show only that they are there.
-/

namespace ConfigSchema

namespace Schema

/-- A schema, by the dump of its rule. -/
def dumpWith (name : String) (default? : Option Value) (rule : Dump) : Dump :=
  .record "Validator" [("human", .quoted name), ("default", .ofOption Value.dump default?), ("kind", rule)]

/-- The check for a kind. -/
def dumpKind (k : Kind) : Dump := .tuple "Primitive" [k.dump]

/-- A container schema: its kind, and then its items. -/
def dumpContainer (k : Kind) (items : Dump) : Dump :=
  .record "Compose"
    [("first", dumpWith k.name none (dumpKind k)), ("second", dumpWith k.name none items)]

end Schema

mutual

/-- A schema, with its name, its default and its rule. -/
def Schema.dump : Schema → Dump
  | ⟨default?, rule⟩ => Schema.dumpWith rule.name default? rule.dump

/-- A rule, with everything inside it. -/
def Rule.dump : Rule → Dump
  | .any => .word "Noop"
  | .kind k => Schema.dumpKind k
  | .int => Schema.dumpKind .number
  | .compose first second => .record "Compose" [("first", first.dump), ("second", second.dump)]
  | .array element => Schema.dumpContainer .array (.tuple "ArrayOf" [element.dump])
  | .object fields suggest =>
      Schema.dumpContainer .object (.tuple "FixedObject" [.record "ObjectSchema"
        [("fields", .map (Schema.dumpFields fields)), ("suggest", .ofBool suggest)]])
  | .objects advice specifics element =>
      let keys := Dump.ofOption (fun known => .list (known.map .quoted)) advice.known?
      let warner := Dump.ofOption (fun _ => .quoted "<function>") advice.warner?
      let props := Dump.record "ObjectsProps"
        [("keys", keys), ("specifics", .map (Schema.dumpFields specifics)), ("warner", warner)]
      Schema.dumpContainer .object (.record "DynamicObject" [("props", props), ("element", element.dump)])
  | .either alternatives => .tuple "Either" [.list (Schema.dumpAll alternatives)]
  | .oneOf literals => .tuple "OneOf" [.list (literals.map Value.dump)]
  | .deprecated inner notice =>
      .record "Deprecated" [("inner", inner.dump), ("notice", .quoted notice)]
  | .custom .. => .tuple "Custom" [.word "<function>"]

/-- The declared keys, each with its schema. -/
def Schema.dumpFields : List (String × Schema) → List (String × Dump)
  | [] => []
  | (key, s) :: rest => (key, s.dump) :: Schema.dumpFields rest

/-- Some schemas, in order. -/
def Schema.dumpAll : List Schema → List Dump
  | [] => []
  | s :: rest => s.dump :: Schema.dumpAll rest

end

end ConfigSchema
