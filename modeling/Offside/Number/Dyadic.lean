/-!
# Numbers as exact binary fractions

A finite number of the language is a binary64 float, hence a sign together with a natural
significand times a power of two. Exact questions about numbers (which decimals round to them, the
remainder of a division, whether they are integers) are answered on this form, in natural-number
arithmetic.
-/

namespace Offside.Number

/-- What a binary64 bit pattern stands for. -/
inductive Decoded where
  /-- Not a number. -/
  | nan
  /-- An infinity with its sign. -/
  | infinite (negative : Bool)
  /-- The number `significand * 2 ^ exponent` with its sign; the significand is below `2 ^ 53`. -/
  | finite (negative : Bool) (significand : Nat) (exponent : Int)
  deriving DecidableEq, Repr

/-- A power of two. -/
def twoPow (n : Nat) : Nat := Nat.pow 2 n

/-- The number of bits of the stored fraction. -/
def fractionBits : Nat := 52

/-- The number of bits of the exponent field. -/
def exponentBits : Nat := 11

/-- The exponent of the least positive number. -/
def minExponent : Int := -1074

/-- Reads the sign, exponent and fraction fields of a number. -/
def decode (x : Float) : Decoded :=
  let bits := x.toBits.toNat
  let negative := bits / twoPow (fractionBits + exponentBits) == 1
  let field := bits / twoPow fractionBits % twoPow exponentBits
  let fraction := bits % twoPow fractionBits
  if field = twoPow exponentBits - 1 then
    if fraction = 0 then .infinite negative else .nan
  else if field = 0 then .finite negative fraction minExponent
  else .finite negative (fraction + twoPow fractionBits) (minExponent + (field - 1 : Nat))

/-- The number `significand * 2 ^ exponent` with the given sign, for a significand below `2 ^ 53`
and an exponent that make it representable. -/
def encode (negative : Bool) (significand : Nat) (exponent : Int) : Float :=
  let shift := min (fractionBits - significand.log2) (exponent - minExponent).toNat
  let significand := significand * twoPow shift
  let exponent := exponent - shift
  let unit := twoPow fractionBits
  let field := if significand < unit then 0 else (exponent - minExponent).toNat + 1
  let sign := if negative then twoPow (fractionBits + exponentBits) else 0
  Float.ofBits (sign + field * unit + significand % unit).toUInt64

/-- The remainder of `x` by `y` that has the sign of `x` and is smaller than `y` in magnitude. It
is always exact. There is none by zero and none of an infinity, while every finite number is its
own remainder by an infinity. -/
def remainder (x y : Float) : Float :=
  match decode x, decode y with
  | .finite negative m p, .finite _ n q =>
    if n = 0 then nan
    else
      let least := min p q
      encode negative (m * twoPow (p - least).toNat % (n * twoPow (q - least).toNat)) least
  | .finite _ _ _, .infinite _ => x
  | _, _ => nan
where
  /-- The one value that is not a number. -/
  nan : Float := Float.ofBits 0x7ff8000000000000

/-- The integer that a number equals, if it is finite and has no fraction. -/
def toInt? (x : Float) : Option Int :=
  match decode x with
  | .finite negative m p =>
    let signed (n : Nat) : Int := if negative then -n else n
    let divisor := twoPow (-p).toNat
    if 0 ≤ p then some (signed (m * twoPow p.toNat))
    else if m % divisor = 0 then some (signed (m / divisor))
    else none
  | _ => none

end Offside.Number
