import ConfigSchema.Number.Shortest

/-!
# `Number.Text` — how numbers are written

Two spellings are in use. The **document** spelling always shows that a float is one: it has a fraction or
an exponent (`1.0`, `-0.0`, `1.5e-7`). The **message** spelling writes an integral float below `10²¹` as an
integer (`1`), and both zeros as `0`; any other number is spelled as in a document. Whole numbers are
spelled alike in both.

Both spellings of a float use the digits of `Double.shortest`.
-/

namespace ConfigSchema

namespace Decimal

/-- The significant digits. -/
def digitChars (d : Decimal) : List Char := Nat.toDigits 10 d.digits

/-- The power of ten that the first digit counts. -/
def leading (d : Decimal) : Int := d.exponent + d.digitChars.length - 1

/-- Without an exponent, and with a fraction: `0.05`, `1.5`, `20.0`. -/
def positional (d : Decimal) : List Char :=
  if d.leading < 0 then
    ['0', '.'] ++ List.replicate (-d.leading - 1).toNat '0' ++ d.digitChars
  else
    let before := d.leading.toNat + 1
    let zeros := List.replicate (before - d.digitChars.length) '0'
    let fraction := if d.digitChars.length ≤ before then ['0'] else d.digitChars.drop before
    d.digitChars.take before ++ zeros ++ '.' :: fraction

/-- With an exponent, which shows its sign and no padding: `5e-324`, `1.5e+16`. -/
def scientific (d : Decimal) : List Char :=
  let fraction := if d.digitChars.length ≤ 1 then [] else '.' :: d.digitChars.drop 1
  let sign := if d.leading < 0 then '-' else '+'
  d.digitChars.take 1 ++ fraction ++ 'e' :: sign :: Nat.toDigits 10 d.leading.natAbs

/-- Positional from `10⁻⁵` up to below `10¹⁶`, scientific outside. -/
def chars (d : Decimal) : List Char :=
  if -5 ≤ d.leading ∧ d.leading ≤ 15 then d.positional else d.scientific

end Decimal

namespace Double

/-- The sign as it is written. -/
def sign (x : Double) : List Char := if x.negative then ['-'] else []

/-- The document spelling. -/
def text (x : Double) : String := String.ofList (x.sign ++ x.shortest.chars)

/-- Has the double no fractional part? -/
def integral (x : Double) : Bool := x.magnitude % unitsPerOne = 0

/-- The message spelling. -/
def display (x : Double) : String :=
  if x.magnitude = 0 then "0"
  else if x.integral ∧ x.magnitude < Nat.pow 10 21 * unitsPerOne then
    let d := x.shortest
    String.ofList (x.sign ++ d.digitChars ++ List.replicate d.exponent.toNat '0')
  else x.text

end Double

namespace Number

/-- The document spelling. -/
def text : Number → String
  | whole n => toString n.toInt
  | double x => x.text

/-- The message spelling. -/
def display : Number → String
  | whole n => toString n.toInt
  | double x => x.display

end Number

end ConfigSchema
