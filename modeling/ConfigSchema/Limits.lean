/-!
# `Limits` — how deep a validation may walk

A validation walks down the containers of a value. `Limits.maxDepth` is the number of container levels
below the root that it may enter; a container found below that fails instead of being walked. A `Position`
in such a walk is the limits of the call together with the depth reached.

Depths are 64-bit counts. Going down from the greatest one stays there, so under `Limits.unlimited` no
depth is ever too deep (`Position.not_exceeded_unlimited`).
-/

namespace ConfigSchema

/-- The greatest depth that is counted. -/
def depthCeiling : Nat := Nat.pow 2 64 - 1

/-- The limits of one validation. -/
structure Limits where
  maxDepth : Nat
  maxDepth_le : maxDepth ≤ depthCeiling := by decide
deriving DecidableEq

namespace Limits

/-- The limits of a call that states none. -/
def standard : Limits := ⟨100, by decide⟩

/-- For input from outside. -/
def strict : Limits := ⟨50, by decide⟩

/-- For trusted input that may be nested deeply. -/
def permissive : Limits := ⟨200, by decide⟩

/-- Enters every container. -/
def unlimited : Limits := ⟨depthCeiling, Nat.le_refl _⟩

/-- The limits with a given depth, if that is counted at all. -/
def ofNat? (n : Nat) : Option Limits :=
  if h : n ≤ depthCeiling then some ⟨n, h⟩ else none

end Limits

/-- A position in a validation. -/
structure Position where
  limits : Limits
  depth : Nat

namespace Position

/-- The position at which a call starts. -/
def root (limits : Limits) : Position := ⟨limits, 0⟩

/-- The position of the children of the current container. -/
def descend (pos : Position) : Position := ⟨pos.limits, min (pos.depth + 1) depthCeiling⟩

/-- Is the position too deep for a container? -/
def exceeded (pos : Position) : Bool := pos.limits.maxDepth < pos.depth

/-- The limits left for a validation that starts anew at this position. -/
def remaining (pos : Position) : Limits :=
  ⟨pos.limits.maxDepth - pos.depth, Nat.le_trans (Nat.sub_le _ _) pos.limits.maxDepth_le⟩

@[simp] theorem remaining_maxDepth (pos : Position) :
    pos.remaining.maxDepth = pos.limits.maxDepth - pos.depth := rfl

@[simp] theorem descend_limits (pos : Position) : pos.descend.limits = pos.limits := rfl

theorem exceeded_eq_false_iff {pos : Position} :
    pos.exceeded = false ↔ pos.depth ≤ pos.limits.maxDepth := by
  rw [exceeded, decide_eq_false_iff_not, Nat.not_lt]

/-- Below the ceiling a step down counts one level. -/
theorem descend_depth {pos : Position} (h : pos.depth < depthCeiling) :
    pos.descend.depth = pos.depth + 1 :=
  Nat.min_eq_left h

theorem descend_depth_le (pos : Position) : pos.descend.depth ≤ depthCeiling := Nat.min_le_right _ _

theorem not_exceeded_unlimited {pos : Position} (hl : pos.limits = .unlimited)
    (hd : pos.depth ≤ depthCeiling) : pos.exceeded = false := by
  simp [exceeded, hl, Limits.unlimited, hd]

/-! ## Several levels down -/

/-- The position `n` levels further down. -/
def down : Nat → Position → Position
  | 0, pos => pos
  | n + 1, pos => down n pos.descend

theorem down_limits (n : Nat) (pos : Position) : (down n pos).limits = pos.limits := by
  induction n generalizing pos with
  | zero => rfl
  | succ n ih => exact ih pos.descend

/-- Depths that are counted are counted level by level, up to the ceiling. -/
theorem down_depth (n : Nat) {pos : Position} (h : pos.depth ≤ depthCeiling) :
    (down n pos).depth = min (pos.depth + n) depthCeiling := by
  induction n generalizing pos with
  | zero => exact (Nat.min_eq_left h).symm
  | succ n ih =>
      rw [down, ih pos.descend_depth_le, descend]
      show min (min (pos.depth + 1) depthCeiling + n) depthCeiling = _
      omega

theorem exceeded_down_eq_false_iff (n : Nat) {pos : Position} (h : pos.depth ≤ depthCeiling) :
    (down n pos).exceeded = false ↔ min (pos.depth + n) depthCeiling ≤ pos.limits.maxDepth := by
  rw [exceeded_eq_false_iff, down_limits, down_depth n h]

end Position

end ConfigSchema
