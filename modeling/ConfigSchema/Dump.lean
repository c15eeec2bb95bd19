/-!
# `Dump` — structural texts for debugging

A dump shows how a thing is built: constructors with their arguments, records with their fields, lists and
maps. Values, outcomes and schemas are first turned into a `Dump`; `Dump.render` writes it on one line.
-/

namespace ConfigSchema

/-- The parts of a structural text. -/
inductive Dump where
  /-- A bare word. -/
  | word (text : String)
  /-- A quoted text. -/
  | quoted (text : String)
  | tuple (name : String) (args : List Dump)
  | record (name : String) (fields : List (String × Dump))
  | list (items : List Dump)
  | map (entries : List (String × Dump))

namespace Dump

/-- The absent part. -/
def none : Dump := word "None"

/-- A part that is there. -/
def some (dump : Dump) : Dump := tuple "Some" [dump]

/-- An optional part. -/
def ofOption {α : Type} (dump : α → Dump) : Option α → Dump
  | .none => none
  | .some a => some (dump a)

/-- A truth value. -/
def ofBool (b : Bool) : Dump := word (if b then "true" else "false")

/-! ## Text -/

/-- One character inside quotes. Control characters without a letter show their code point. -/
def escape (c : Char) : String :=
  match c with
  | '"' => "\\\""
  | '\\' => "\\\\"
  | '\n' => "\\n"
  | '\r' => "\\r"
  | '\t' => "\\t"
  | '\x00' => "\\0"
  | c =>
    if c.toNat < 0x20 ∨ c.toNat = 0x7f then
      "\\u\x7b" ++ String.ofList (Nat.toDigits 16 c.toNat) ++ "\x7d"
    else c.toString

/-- A quoted text. -/
def quote (s : String) : String := "\"" ++ String.join (s.toList.map escape) ++ "\""

mutual

/-- The text of a dump. -/
def render : Dump → String
  | word text => text
  | quoted text => quote text
  | tuple name args => name ++ "(" ++ String.intercalate ", " (renderItems args) ++ ")"
  | record name fields => name ++ " \x7b " ++ String.intercalate ", " (renderFields fields) ++ " \x7d"
  | list items => "[" ++ String.intercalate ", " (renderItems items) ++ "]"
  | map entries => "\x7b" ++ String.intercalate ", " (renderEntries entries) ++ "\x7d"

/-- The texts of some dumps. -/
def renderItems : List Dump → List String
  | [] => []
  | dump :: rest => render dump :: renderItems rest

/-- The fields of a record, under bare names. -/
def renderFields : List (String × Dump) → List String
  | [] => []
  | (name, dump) :: rest => (name ++ ": " ++ render dump) :: renderFields rest

/-- The entries of a map, under quoted keys. -/
def renderEntries : List (String × Dump) → List String
  | [] => []
  | (key, dump) :: rest => (quote key ++ ": " ++ render dump) :: renderEntries rest

end

end Dump

end ConfigSchema
