import ConfigSchema.Json
import ConfigSchema.Limits
import ConfigSchema.Schema.Merge
import ConfigSchema.Value.Basic

/-!
# `Settings` — kinds, limits and merge options as JSON

Settings are kept in JSON files of their own. A record with one setting is written as an object, and is read
from an object or from an array of its settings in order: a missing setting takes its standard value, unknown
members are ignored, and superfluous items are refused. A kind is written as its name, and is read from that
name or from an object whose only member is that name with null under it.
-/

namespace ConfigSchema

/-- Reads a record with one setting. -/
def Json.setting? {α : Type} (name : String) (standard : α) (read : Json → Option α) : Json → Option α
  | .object members =>
    match members.lookup name with
    | none => some standard
    | some json => read json
  | .array [] => some standard
  | .array [json] => read json
  | _ => none

/-! ## Kinds -/

/-- A kind is written as its name. -/
def Kind.toJson (k : Kind) : Json := .string k.name

/-- A kind is read from its name, bare or as the only member of an object. -/
def Kind.ofJson? : Json → Option Kind
  | .string name => Kind.ofName? name
  | .object [(name, .null)] => Kind.ofName? name
  | _ => none

theorem Kind.ofJson?_toJson (k : Kind) : Kind.ofJson? k.toJson = some k := Kind.ofName?_name k

/-! ## Limits -/

namespace Limits

/-- The depth as a number. -/
def depthNumber (limits : Limits) : Number :=
  .whole
    { toInt := limits.maxDepth
      lower := Int.le_trans (Int.neg_nonpos_of_nonneg (Int.natCast_nonneg _)) (Int.natCast_nonneg _)
      upper := by
        have hpos : 0 < Nat.pow 2 64 := by decide
        exact Int.ofNat_lt.mpr (Nat.lt_of_le_pred hpos limits.maxDepth_le) }

/-- Limits are written with their depth. -/
def toJson (limits : Limits) : Json := .object [("max_depth", .number limits.depthNumber)]

/-- A depth is a whole number that is not negative; no float is one. -/
def ofDepth? : Json → Option Limits
  | .number (.whole n) => if 0 ≤ n.toInt then ofNat? n.toInt.toNat else none
  | _ => none

/-- Limits are read from their depth, or else are the standard ones. -/
def ofJson? : Json → Option Limits := Json.setting? "max_depth" standard ofDepth?

theorem ofJson?_toJson (limits : Limits) : ofJson? limits.toJson = some limits := by
  simp [ofJson?, toJson, Json.setting?, ofDepth?, depthNumber, ofNat?, limits.maxDepth_le]

end Limits

/-! ## Merge options -/

namespace MergeOptions

/-- Merge options are written with their flag. -/
def toJson (options : MergeOptions) : Json :=
  .object [("ignore_first_defaults", .bool options.ignoreFirstDefaults)]

/-- A flag is a truth value and nothing else. -/
def ofFlag? : Json → Option MergeOptions
  | .bool b => some ⟨b⟩
  | _ => none

/-- Merge options are read from their flag, or else are the standard ones. -/
def ofJson? : Json → Option MergeOptions :=
  Json.setting? "ignore_first_defaults" standard ofFlag?

theorem ofJson?_toJson (options : MergeOptions) : ofJson? options.toJson = some options := by
  simp [ofJson?, toJson, Json.setting?, ofFlag?]

end MergeOptions

end ConfigSchema
