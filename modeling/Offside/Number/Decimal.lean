import Offside.Number.Dyadic

/-!
# Shortest decimals

The text of a number has the fewest decimal digits that round to it. The reals that round to
`m * 2 ^ q` form an interval, whose ends belong to it exactly if `m` is even. For one digit, two
digits and so on, the two neighbours of the number on that decimal grid are tested: the first grid
with a hit wins, and of two hits the nearer one. Everything is computed on natural numbers.
-/

namespace Offside.Number

/-- The number `digits * 10 ^ exponent`. -/
structure Decimal where
  /-- The significant digits, read as one natural number. -/
  digits : Nat
  /-- The power of ten that scales them. -/
  exponent : Int
  deriving DecidableEq, Repr

/-- A power of ten. -/
def tenPow (n : Nat) : Nat := Nat.pow 10 n

/-- The number of decimal digits of a positive natural number. -/
def digitCount (n : Nat) : Nat := (Nat.toDigits 10 n).length

/-- The reals that round to one number, over a common denominator. -/
structure Rounding where
  /-- Numerator of the lower end. -/
  low : Nat
  /-- Numerator of the number itself. -/
  value : Nat
  /-- Numerator of the upper end. -/
  high : Nat
  /-- The common denominator. -/
  denominator : Nat
  /-- Whether the ends belong to the interval. -/
  closed : Bool
  deriving Repr

/-- The rounding interval of `significand * 2 ^ exponent`. Below a power of two the neighbouring
numbers stand twice as dense, so the lower half is half as wide there. -/
def roundingOf (significand : Nat) (exponent : Int) : Rounding :=
  let quarter := exponent - 2
  let scale := twoPow quarter.toNat
  let below :=
    if significand = twoPow fractionBits ∧ minExponent < exponent then 1 else 2
  { low := (4 * significand - below) * scale
    value := 4 * significand * scale
    high := (4 * significand + 2) * scale
    denominator := twoPow (-quarter).toNat
    closed := significand % 2 = 0 }

namespace Rounding

/-- The exponent `k` with `10 ^ (k - 1) ≤ value < 10 ^ k`. -/
def magnitude (r : Rounding) : Int :=
  if r.denominator ≤ r.value then digitCount (r.value / r.denominator)
  else 1 - (digitCount ((r.denominator - 1) / r.value) : Int)

/-- Whether a decimal rounds to the number. -/
def contains (r : Rounding) (d : Decimal) : Bool :=
  let point := d.digits * tenPow d.exponent.toNat * r.denominator
  let unit := tenPow (-d.exponent).toNat
  if r.closed then r.low * unit ≤ point && point ≤ r.high * unit
  else r.low * unit < point && point < r.high * unit

/-- The better of the number's two neighbours on the grid of multiples of `10 ^ exponent`, among
those that round to it. The upper one is taken when both are equally near. -/
def neighbour? (r : Rounding) (exponent : Int) : Option Decimal :=
  let scaled := r.value * tenPow (-exponent).toNat
  let unit := r.denominator * tenPow exponent.toNat
  let down : Decimal := ⟨scaled / unit, exponent⟩
  let up : Decimal := ⟨scaled / unit + 1, exponent⟩
  match r.contains down, r.contains up with
  | true, true => some (if 2 * (scaled % unit) < unit then down else up)
  | true, false => some down
  | false, true => some up
  | false, false => none

/-- Tries grids of ever more digits, at most `remaining` of them. -/
def search (r : Rounding) (exponent : Int) : Nat → Option Decimal
  | 0 => none
  | remaining + 1 => (r.neighbour? exponent).or (r.search (exponent - 1) remaining)

/-- The shortest decimal that rounds to the number. Seventeen digits always suffice. -/
def shortest (r : Rounding) : Decimal :=
  (r.search (r.magnitude - 1) 17).getD ⟨0, 0⟩

end Rounding

/-- Moves trailing zeros from the digits to the exponent, at most `limit` of them. -/
def Decimal.normalize (d : Decimal) : Nat → Decimal
  | 0 => d
  | limit + 1 =>
    if d.digits ≠ 0 ∧ d.digits % 10 = 0 then
      Decimal.normalize ⟨d.digits / 10, d.exponent + 1⟩ limit
    else d

/-- Positional text of a decimal: no exponent, and a point only where there is a fraction. -/
def Decimal.text (d : Decimal) : String :=
  let digits := Nat.toDigits 10 d.digits
  let places := (-d.exponent).toNat
  if places = 0 then String.ofList (digits ++ List.replicate d.exponent.toNat '0')
  else
    let padded := List.replicate (places + 1 - digits.length) '0' ++ digits
    let whole := padded.length - places
    String.ofList (padded.take whole ++ '.' :: padded.drop whole)

/-- How the values without digits are spelled. -/
structure Spelling where
  /-- The text of positive infinity; the negative one has a minus sign in front. -/
  infinity : String
  /-- The text of the value that is not a number. -/
  nan : String

/-- The spelling in token listings and tree dumps. -/
def Spelling.listing : Spelling := ⟨"inf", "NaN"⟩

/-- The spelling in program output. -/
def Spelling.output : Spelling := ⟨"Infinity", "NaN"⟩

/-- The text of a number: shortest digits, never an exponent, and a minus sign also on zero. -/
def text (spelling : Spelling) (x : Float) : String :=
  match decode x with
  | .nan => spelling.nan
  | .infinite negative => signed negative spelling.infinity
  | .finite negative significand exponent =>
    if significand = 0 then signed negative "0"
    else signed negative ((roundingOf significand exponent).shortest.normalize 17).text
where
  /-- Puts the sign in front. -/
  signed (negative : Bool) (s : String) : String := if negative then "-" ++ s else s

/-- The value of a list of decimal digits. -/
def digitsValue (digits : List Char) : Nat :=
  digits.foldl (fun n c => 10 * n + (c.toNat - '0'.toNat)) 0

/-- The number nearest to the decimal with the given whole and fractional digits. -/
def ofDigits (whole fraction : List Char) : Float :=
  Float.ofScientific (digitsValue (whole ++ fraction)) true fraction.length

/-- The number that a literal spells out: decimal digits, at least one, with at most one point among
them. Literals have neither sign nor exponent. -/
def ofText? (text : List Char) : Option Float :=
  let whole := text.takeWhile Char.isDigit
  match text.dropWhile Char.isDigit with
  | [] => if whole.isEmpty then none else some (ofDigits whole [])
  | '.' :: fraction =>
    if fraction.all Char.isDigit && !(whole ++ fraction).isEmpty then some (ofDigits whole fraction)
    else none
  | _ => none

end Offside.Number
