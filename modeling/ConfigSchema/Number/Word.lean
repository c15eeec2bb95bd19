import ConfigSchema.Number.Basic

/-!
# `Number.Word` — reading a decimal into a machine word

A `Word` is an integer format of at most 64 bits. `Word.read?` reads an optional sign and at least one
decimal digit. A plus sign is always allowed, a minus sign only where the format is signed; a value
outside the format's range is refused.
-/

namespace ConfigSchema

/-- An integer format: its width, and whether it has a sign. -/
structure Word where
  signed : Bool
  width : Nat
  width_pos : 0 < width := by decide
  width_le : width ≤ 64 := by decide

namespace Word

/-- The smallest value. -/
def low (w : Word) : Int := if w.signed then -(Nat.pow 2 (w.width - 1) : Int) else 0

/-- One more than the greatest value. -/
def high (w : Word) : Int := if w.signed then Nat.pow 2 (w.width - 1) else Nat.pow 2 w.width

theorem pow_width_le {m n : Nat} (h : m ≤ n) : Nat.pow 2 m ≤ Nat.pow 2 n :=
  Nat.pow_le_pow_right (by decide) h

theorem neg_two_pow_le_low (w : Word) : -(Nat.pow 2 63 : Int) ≤ w.low := by
  have hw := w.width_le
  have hpow : Nat.pow 2 (w.width - 1) ≤ Nat.pow 2 63 := pow_width_le (by omega)
  have hpos : 0 ≤ Nat.pow 2 63 := Nat.zero_le _
  unfold low
  split <;> omega

theorem high_le_two_pow (w : Word) : w.high ≤ (Nat.pow 2 64 : Int) := by
  have hw := w.width_le
  have hsigned : Nat.pow 2 (w.width - 1) ≤ Nat.pow 2 64 := pow_width_le (by omega)
  have hunsigned : Nat.pow 2 w.width ≤ Nat.pow 2 64 := pow_width_le hw
  unfold high
  split <;> omega

/-- The value of a text of decimal digits. No digit at all is no number. -/
def magnitude? : List Char → Option Nat
  | [] => none
  | c :: rest => (c :: rest).foldl (fun acc d =>
      acc.bind fun n => if d.isDigit then some (10 * n + (d.toNat - '0'.toNat)) else none) (some 0)

/-- The integer that a text denotes, before its range is looked at. -/
def integer? (w : Word) : List Char → Option Int
  | '+' :: rest => (magnitude? rest).map Int.ofNat
  | '-' :: rest => if w.signed then (magnitude? rest).map fun n => -Int.ofNat n else none
  | rest => (magnitude? rest).map Int.ofNat

/-- Reads a text as a number of this format. -/
def read? (w : Word) (text : String) : Option Whole :=
  (w.integer? text.toList).bind fun n =>
    if h : w.low ≤ n ∧ n < w.high then
      some ⟨n, Int.le_trans w.neg_two_pow_le_low h.1, Int.lt_of_lt_of_le h.2 w.high_le_two_pow⟩
    else none

end Word

end ConfigSchema
