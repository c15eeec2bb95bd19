import ConfigSchema.Value.Basic
import ConfigSchema.Json

/-!
# `Value.Text` — values in messages, and as JSON

`Value.display` is the short text that a message shows after the kind of an offending value: strings are
bare, arrays are joined by commas without brackets, and an object is only named as one.

`Value.toJson` exports a value. JSON has no undefined and no callables, so both become null; a pattern
becomes its source text.
-/

namespace ConfigSchema

namespace Value

/-- Is the value written as nothing inside an array? -/
def blank : Value → Bool
  | undefined => true
  | null => true
  | _ => false

mutual

/-- The text of a value in a message. -/
def display : Value → String
  | undefined => "undefined"
  | null => "null"
  | bool b => Json.boolText b
  | number n => n.display
  | string s => s
  | array items => String.intercalate "," (displayItems items)
  | object _ => "[object Object]"
  | regexp p => "/" ++ p.source ++ "/"
  | function _ => "[function]"

/-- The texts of an array's elements; null and undefined leave theirs empty. -/
def displayItems : List Value → List String
  | [] => []
  | v :: rest => (if v.blank then "" else display v) :: displayItems rest

end

mutual

/-- The value as a JSON document. -/
def toJson : Value → Json
  | undefined => .null
  | null => .null
  | function _ => .null
  | bool b => .bool b
  | number n => .number n
  | string s => .string s
  | array items => .array (toJsonItems items)
  | object fields => .object (toJsonFields fields)
  | regexp p => .string p.source

/-- The elements of an array as documents. -/
def toJsonItems : List Value → List Json
  | [] => []
  | v :: rest => toJson v :: toJsonItems rest

/-- The entries of an object as members. -/
def toJsonFields : List (String × Value) → List (String × Json)
  | [] => []
  | (key, v) :: rest => (key, toJson v) :: toJsonFields rest

end

theorem toJsonItems_eq_map (items : List Value) : toJsonItems items = items.map toJson := by
  induction items with
  | nil => rfl
  | cons v rest ih => simp [toJsonItems, ih]

theorem toJsonFields_eq_map (fields : List (String × Value)) :
    toJsonFields fields = fields.map fun p => (p.1, toJson p.2) := by
  induction fields with
  | nil => rfl
  | cons p rest ih =>
      obtain ⟨key, v⟩ := p
      simp [toJsonFields, ih]

end Value

end ConfigSchema
