import ConfigSchema.Number.Basic

/-!
# `Number.Shortest` — the shortest decimal that reads back

A double is printed with the fewest significant digits that still round to it; among several decimals
of that length the nearest is taken, and of two equally near ones the even one. A decimal rounds to `x`
when it lies within half the spacing of `x` on its side; the midpoints themselves count exactly when the
significand of `x` is even.

The search goes over the decimal grids `10ᵉ`, from coarse to fine. On each grid only the two multiples
around `x` can read back, so the first grid on which one of them does gives the fewest digits.
Everything is integer arithmetic: lengths are measured in quarter units (`2⁻¹⁰⁷⁶`), fine enough for the
halved gap below a power of two.
-/

namespace ConfigSchema

/-- A decimal number: `digits · 10 ^ exponent`. -/
structure Decimal where
  digits : Nat
  exponent : Int
deriving DecidableEq

namespace Double

/-- Quarter units between `x` and the midpoint above it. -/
def roomAbove (x : Double) : Nat := 2 * x.spacing

/-- Quarter units between `x` and the midpoint below it. Below a power of two the gap is halved, except
    at the bottom of the range, where the subnormal numbers keep the spacing. -/
def roomBelow (x : Double) : Nat :=
  if x.fraction = 0 ∧ 1 < x.exponent then x.spacing else 2 * x.spacing

/-- Does a decimal at distance `gap` read back, where `room` is the distance of the midpoint? Both are
    in quarter units times `scale`. -/
def within (x : Double) (gap room scale : Nat) : Bool :=
  if x.fraction % 2 = 0 then gap ≤ room * scale else gap < room * scale

/-- The multiple of `10 ^ e` that reads back as the magnitude of `x`: of the two around `x` the nearer
    one that does, an even one in a tie. -/
def onGrid (x : Double) (e : Int) : Option Nat :=
  let scale := Nat.pow 10 (-e).toNat
  let step := 4 * unitsPerOne * Nat.pow 10 e.toNat
  let value := 4 * x.magnitude * scale
  let below := value / step
  let gapBelow := value % step
  let gapAbove := step - gapBelow
  let lowReads := 0 < below ∧ x.within gapBelow x.roomBelow scale
  let highReads := x.within gapAbove x.roomAbove scale
  let preferLow := gapBelow < gapAbove ∨ (gapBelow = gapAbove ∧ below % 2 = 0)
  if lowReads ∧ (preferLow ∨ ¬ highReads) then some below
  else if highReads then some (below + 1)
  else none

/-- The grid to start from: `10 ^ e` exceeds the magnitude by so much that no multiple on a coarser grid
    can read back. The fraction is the decimal logarithm of two. -/
def coarsest (x : Double) : Int := ((x.magnitude.log2 : Int) - 1072) * 30103 / 100000 + 1

/-- The shortest decimal that reads back as the magnitude of `x`. The search starts at most two grids above
    the leading digit, and seventeen digits always read back, so nineteen grids are enough. Zero is the
    one magnitude that is not searched for: it has the digit `0`. -/
def shortest (x : Double) : Decimal :=
  let grids := (List.range 19).map fun (i : Nat) => x.coarsest - i
  let hit := grids.findSome? fun e => (x.onGrid e).map (Decimal.mk · e)
  if x.magnitude = 0 then ⟨0, 0⟩ else hit.getD ⟨0, 0⟩

end Double

end ConfigSchema
