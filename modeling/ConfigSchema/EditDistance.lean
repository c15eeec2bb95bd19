/-!
# `EditDistance` — how many edits lead from one word to another

An edit inserts, deletes or replaces one character, a character being a Unicode scalar value. The distances of the
prefixes of one word to the prefixes of another obey a recurrence. Only one **row** of them is kept: the distances of
one prefix of `a` to all prefixes of `b`, shortest prefix first. For each character of `a` it is overwritten from left
to right, and after the last one its last entry is the distance of the words.

## Contents
- `overwrite`, the pass along a row, and `nextRow`, which also writes its first entry.
- `lastRow` and `distance`; `editDistance` is the distance of two texts.
-/

namespace ConfigSchema

namespace EditDistance

variable {α : Type} [DecidableEq α]

/-- Overwrites what is left of a row. The last edit deletes `x`, inserts `y`, or replaces `x` by `y`, which costs
    nothing if they are equal: so the new entry is made from the one that it replaces, from the new entry to the left of
    it, and from `diagonal`, which that one has replaced. -/
def overwrite (x : α) : List α → Nat → Nat → List Nat → List Nat
  | y :: b, diagonal, left, above :: row =>
      let entry := min (min (above + 1) (left + 1)) (diagonal + if x = y then 0 else 1)
      entry :: overwrite x b above entry row
  | _, _, _, row => row

/-- The row for one more character, which stands at place `e.2`. -/
def nextRow (b : List α) (row : List Nat) (e : α × Nat) : List Nat :=
  match row with
  | [] => []
  | diagonal :: rest => (e.2 + 1) :: overwrite e.1 b diagonal (e.2 + 1) rest

/-- The distances of `a` to all prefixes of `b`. -/
def lastRow (a b : List α) : List Nat := a.zipIdx.foldl (nextRow b) (List.range (b.length + 1))

/-- The least number of edits between `a` and `b`. -/
def distance (a b : List α) : Nat := if a.isEmpty then b.length else (lastRow a b).getLastD 0

end EditDistance

/-- The least number of single-character edits between two texts. -/
def editDistance (a b : String) : Nat := EditDistance.distance a.toList b.toList

end ConfigSchema
