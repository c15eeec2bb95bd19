import ConfigSchema.Fields
import ConfigSchema.Number.Text

/-!
# `Json` — documents and their compact text

The JSON documents that values and reports are exported to. `Json.compact` writes one without any blank:
objects keep the order of their members, and numbers use the document spelling of `Number.text`.

Inside a string only what must be escaped is: the quote, the backslash and the code points below `U+0020`,
five of which have a letter of their own.
-/

namespace ConfigSchema

/-- A JSON document; the members of an object are in order. -/
inductive Json where
  | null
  | bool (b : Bool)
  | number (n : Number)
  | string (s : String)
  | array (items : List Json)
  | object (members : List (String × Json))

namespace Json

/-- One character as it stands inside a quoted string. -/
def escape (c : Char) : String :=
  match c with
  | '"' => "\\\""
  | '\\' => "\\\\"
  | '\x08' => "\\b"
  | '\x0c' => "\\f"
  | '\n' => "\\n"
  | '\r' => "\\r"
  | '\t' => "\\t"
  | c =>
    if c.toNat < 0x20 then
      "\\u00" ++ String.ofList [Nat.digitChar (c.toNat / 16), Nat.digitChar (c.toNat % 16)]
    else c.toString

/-- A quoted string. -/
def quote (s : String) : String := "\"" ++ String.join (s.toList.map escape) ++ "\""

/-! ## Compact text -/

/-- The text of a truth value. -/
def boolText (b : Bool) : String := if b then "true" else "false"

mutual

/-- The text of a document. -/
def compact : Json → String
  | .null => "null"
  | .bool b => boolText b
  | .number n => n.text
  | .string s => quote s
  | .array items => "[" ++ String.intercalate "," (compactItems items) ++ "]"
  | .object members => "\x7b" ++ String.intercalate "," (compactMembers members) ++ "\x7d"

/-- The texts of an array's items. -/
def compactItems : List Json → List String
  | [] => []
  | item :: rest => compact item :: compactItems rest

/-- The texts of an object's members. -/
def compactMembers : List (String × Json) → List String
  | [] => []
  | (key, item) :: rest => (quote key ++ ":" ++ compact item) :: compactMembers rest

end

theorem compactItems_eq_map (items : List Json) : compactItems items = items.map compact := by
  induction items with
  | nil => rfl
  | cons item rest ih => simp [compactItems, ih]

theorem compactMembers_eq_map (members : List (String × Json)) :
    compactMembers members = members.map fun m => quote m.1 ++ ":" ++ compact m.2 := by
  induction members with
  | nil => rfl
  | cons m rest ih =>
      obtain ⟨key, item⟩ := m
      simp [compactMembers, ih]

/-- A list of names, as an array of strings. -/
def ofNames (names : List String) : Json := .array (names.map .string)

end Json

end ConfigSchema
