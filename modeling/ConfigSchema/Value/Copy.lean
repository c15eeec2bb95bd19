import ConfigSchema.Value.Basic
import ConfigSchema.Run

/-!
# `Value.Copy` — copies that share nothing

`Value.deepCopy` rebuilds a value. Data has no identity, so for data the copy is the value itself; each
callable is rebound to a fresh identity, one per occurrence. Defaults are injected as such copies, so that
no two documents ever share a callable.
-/

namespace ConfigSchema

namespace Value

mutual

/-- A copy in which every callable has an identity of its own. -/
def deepCopy : Value → Run Value
  | array items => array <$> deepCopyItems items
  | object fields => object <$> deepCopyFields fields
  | function f => (fun id => function (f.rebind id)) <$> Run.fresh
  | v => pure v

/-- Copies of the elements, one after another. -/
def deepCopyItems : List Value → Run (List Value)
  | [] => pure []
  | v :: rest => do
      let copy ← deepCopy v
      let copies ← deepCopyItems rest
      pure (copy :: copies)

/-- Copies of the entries, one after another, under their keys. -/
def deepCopyFields : List (String × Value) → Run (List (String × Value))
  | [] => pure []
  | (key, v) :: rest => do
      let copy ← deepCopy v
      let copies ← deepCopyFields rest
      pure ((key, copy) :: copies)

end

theorem deepCopyItems_eq_mapM (items : List Value) : deepCopyItems items = items.mapM deepCopy := by
  induction items with
  | nil => rfl
  | cons v rest ih => simp [deepCopyItems, ih]

theorem deepCopyFields_eq_mapM (fields : List (String × Value)) :
    deepCopyFields fields = fields.mapM fun p => Prod.mk p.1 <$> deepCopy p.2 := by
  induction fields with
  | nil => rfl
  | cons p rest ih =>
      obtain ⟨key, v⟩ := p
      simp [deepCopyFields, ih]

end Value

end ConfigSchema
