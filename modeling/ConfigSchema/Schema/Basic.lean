import ConfigSchema.Checker
import ConfigSchema.Json
import ConfigSchema.Value.Text

/-!
# `Schema` — what a configuration may look like

A schema is a rule together with an optional default. The default belongs to the place where the schema is
used: when an object lacks the key that the schema is declared for, a copy of the default is written there.
On its own a schema never looks at its default.

## Contents
- `Schema` and `Rule`.
- The schemas by their names: `Schema.string`, `Schema.array`, `Schema.object`, …
- `Schema.name`: what messages call the schema. Names are not unique: every object schema is an `object`.
- `Schema.closedKeys?` and `Schema.openKeys?`: the declared keys that a schema shows to others.
-/

namespace ConfigSchema

/-- How an open object warns about its keys. -/
structure KeyAdvice where
  /-- The recognised keys; without them no key is warned about. -/
  known? : Option (List String)
  /-- Words a warning for an unrecognised key. -/
  warner? : Option (String → Option String)

namespace KeyAdvice

/-- No advice at all. -/
def silent : KeyAdvice := ⟨none, none⟩

/-- The warning in standard wording. -/
def standardWarning (known : List String) (key : String) : String :=
  let expectation := "unrecognized key: " ++ key ++ "; expected either of " ++ String.intercalate ", " known
  match Suggestion.hint? (Suggestion.closest key known) with
  | none => expectation
  | some hint => expectation ++ "; " ++ hint

/-- The warning for a key. The warner's wording counts unless it is missing or empty. -/
def warning? (advice : KeyAdvice) (key : String) : Option String :=
  advice.known?.bind fun known =>
    if key ∈ known then none
    else
      let worded := (advice.warner?.bind fun warner => warner key).filter (· ≠ "")
      some (worded.getD (standardWarning known key))

end KeyAdvice

mutual

/-- A rule, and the default for where the value is missing. -/
structure Schema where
  default? : Option Value
  rule : Rule

/-- What a schema demands of a value. -/
inductive Rule where
  /-- Anything. -/
  | any
  /-- A value of one kind. -/
  | kind (k : Kind)
  /-- A number, whole or not, under the name of an integer. -/
  | int
  /-- What both demand, the second only being asked after the first is content. -/
  | compose (first second : Schema)
  /-- An array with elements of one schema. -/
  | array (element : Schema)
  /-- An object with declared keys. Other keys pass, with a hint at similar declared keys if `suggest`. -/
  | object (fields : List (String × Schema)) (suggest : Bool)
  /-- An object with arbitrary keys. Each entry has the schema specific to its key, or else `element`. -/
  | objects (advice : KeyAdvice) (specifics : List (String × Schema)) (element : Schema)
  /-- What one of the alternatives demands. -/
  | either (alternatives : List Schema)
  /-- One of the literals. -/
  | oneOf (literals : List Value)
  /-- What the inner schema demands, with a notice as warning. -/
  | deprecated (inner : Schema) (notice : String)
  /-- Whatever the check says, which is given the limits left at its position. -/
  | custom (name : String) (check : Limits → Value → Run Checked)

end

namespace Schema

/-! ## Defaults -/

/-- The same demand, with a default. -/
def withDefault (default : Value) (s : Schema) : Schema := ⟨some default, s.rule⟩

/-- The same demand, without a default. -/
def withoutDefault (s : Schema) : Schema := ⟨none, s.rule⟩

/-! ## The schemas -/

/-- A rule without a default. -/
def ofRule (rule : Rule) : Schema := ⟨none, rule⟩

/-- Any value. -/
def any : Schema := ofRule .any

/-- A value of one kind. -/
def ofKind (k : Kind) : Schema := ofRule (.kind k)

/-- A text. -/
def string : Schema := ofKind .string

/-- A truth value. -/
def bool : Schema := ofKind .boolean

/-- A number. -/
def number : Schema := ofKind .number

/-- A callable. -/
def function : Schema := ofKind .function

/-- A pattern. -/
def regexp : Schema := ofKind .regexp

/-- A number, under the name of an integer. -/
def int : Schema := ofRule .int

/-- The first schema's demand, and then the second's. -/
def compose (first second : Schema) : Schema := ofRule (.compose first second)

/-- An array with elements of one schema. -/
def array (element : Schema) : Schema := ofRule (.array element)

/-- An object with the given keys, and with or without hints at them. -/
def objectWith (suggest : Bool) (fields : Fields Schema) : Schema := ofRule (.object fields suggest)

/-- An object with the given keys, and with hints at them. -/
def object (fields : Fields Schema) : Schema := objectWith true fields

/-- An object with arbitrary keys. -/
def objects (advice : KeyAdvice) (specifics : Fields Schema) (element : Schema) : Schema :=
  ofRule (.objects advice specifics element)

/-- What one of the alternatives demands. -/
def either (alternatives : List Schema) : Schema := ofRule (.either alternatives)

/-- One of the literals. -/
def oneOf (literals : List Value) : Schema := ofRule (.oneOf literals)

/-- The notice of a deprecation, with its message if that says anything. -/
def deprecationNotice : Option String → String
  | none => "deprecated"
  | some message => if message = "" then "deprecated" else "deprecated: " ++ message

/-- What the inner schema demands, with a deprecation notice on every outcome. -/
def deprecated (inner : Schema) (message? : Option String) : Schema :=
  ofRule (.deprecated inner (deprecationNotice message?))

/-- Whatever the check says. -/
def custom (name : String) (check : Limits → Value → Run Checked) : Schema :=
  ofRule (.custom name check)

/-- A path matcher: a text, a pattern or a predicate. -/
def matcher : Schema := either [string, regexp, function]

/-- One path matcher, or an array of them. -/
def matchers : Schema := either [matcher, array matcher]

end Schema

/-! ## Names -/

/-- The name of a choice between alternatives of the given names. -/
def alternativesName (names : List String) : String :=
  "either of types " ++ (Json.ofNames names).compact

/-- The name of a choice between literals. -/
def literalsName (literals : List Value) : String :=
  "either of values " ++ (Json.array (literals.map Value.toJson)).compact

mutual

/-- What messages call the schema. -/
def Schema.name : Schema → String
  | ⟨_, rule⟩ => rule.name

/-- What messages call a schema with this rule. -/
def Rule.name : Rule → String
  | .any => "any"
  | .kind k => k.name
  | .int => "int"
  | .compose first _ => first.name
  | .array _ => Kind.array.name
  | .object .. => Kind.object.name
  | .objects .. => Kind.object.name
  | .either alternatives => alternativesName (Schema.names alternatives)
  | .oneOf literals => literalsName literals
  | .deprecated inner _ => inner.name
  | .custom name _ => name

/-- The names of some schemas, in order. -/
def Schema.names : List Schema → List String
  | [] => []
  | s :: rest => s.name :: Schema.names rest

end

theorem Schema.names_eq_map (schemas : List Schema) : Schema.names schemas = schemas.map Schema.name := by
  induction schemas with
  | nil => rfl
  | cons s rest ih => simp [Schema.names, ih]

theorem Schema.name_eq (s : Schema) : s.name = s.rule.name := by
  cases s
  simp [Schema.name]

/-! ## Declared keys -/

/-- The declared keys of an object schema. -/
structure ClosedKeys where
  fields : Fields Schema
  suggest : Bool

/-- The keys that an open object schema treats specially. -/
structure OpenKeys where
  advice : KeyAdvice
  specifics : Fields Schema

mutual

/-- The declared keys, if the schema is for objects with such keys. A composition shows those of its second
    part; no other schema passes on what is inside it. -/
def Schema.closedKeys? : Schema → Option ClosedKeys
  | ⟨_, rule⟩ => rule.closedKeys?

/-- The declared keys of a rule. -/
def Rule.closedKeys? : Rule → Option ClosedKeys
  | .object fields suggest => some ⟨fields, suggest⟩
  | .compose _ second => second.closedKeys?
  | _ => none

end

theorem Schema.closedKeys?_eq (s : Schema) : s.closedKeys? = s.rule.closedKeys? := by
  cases s
  simp [Schema.closedKeys?]

mutual

/-- The specially treated keys, if the schema is for objects with arbitrary keys. -/
def Schema.openKeys? : Schema → Option OpenKeys
  | ⟨_, rule⟩ => rule.openKeys?

/-- The specially treated keys of a rule. -/
def Rule.openKeys? : Rule → Option OpenKeys
  | .objects advice specifics _ => some ⟨advice, specifics⟩
  | .compose _ second => second.openKeys?
  | _ => none

end

/-- The schema declared under `key`, in a closed object or else as a specific of an open one. -/
def Schema.field? (s : Schema) (key : String) : Option Schema :=
  (s.closedKeys?.bind fun keys => keys.fields.lookup key).or
    (s.openKeys?.bind fun keys => keys.specifics.lookup key)

end ConfigSchema
