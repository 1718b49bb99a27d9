import PatternQuery.Decimal.Shortest

/-!
# Writing and reading decimals

Two notations are in use. `jsonNumber` writes the numbers of JSON output: positional and always with
a point when the point stands at most 16 places behind the first digit and at most 4 places in front
of it, and scientific with a signed exponent otherwise. `plainNumber` writes the numbers of text
output: positional throughout, and without a point when the value is whole.

Reading goes two ways as well. `ofDecimal` rounds a decimal to the nearest double. `ofScientific?`
is the reading of JSON numbers, which rounds the significand first and then multiplies or divides by
a power of ten.
-/

namespace PatternQuery.Decimal

/-- The decisions that turn the digits of a number into its text. -/
structure Notation where
  /-- Which of two equally short and equally near decimals is written. -/
  tie : Tie
  /-- The least and the greatest number of places before the point for which the number is written
  positionally; `none` when it always is. -/
  positional : Option (Int × Int)
  /-- What follows a whole number written positionally. -/
  whole : String

/-- JSON numbers: `280.0`, `0.25`, `1e+16`, `1.5e-7`. -/
def jsonNumber : Notation := ⟨.toEven, some (-4, 16), ".0"⟩

/-- Numbers in running text: `280`, `0.25`, and never an exponent. -/
def plainNumber : Notation := ⟨.up, none, ""⟩

/-- The text of `n` zeros. -/
def zeros (n : Nat) : String := String.ofList (List.replicate n '0')

/-- Writes a decimal whose point stands `places` digits into its digits, possibly before the first
or behind the last of them. -/
def positionalText (n : Notation) (digits : List Char) (places : Int) : String :=
  if places ≤ 0 then
    "0." ++ zeros (-places).toNat ++ String.ofList digits
  else if (digits.length : Int) ≤ places then
    String.ofList digits ++ zeros (places.toNat - digits.length) ++ n.whole
  else
    String.ofList (digits.take places.toNat) ++ "." ++ String.ofList (digits.drop places.toNat)

/-- Writes the exponent of a power of ten, always with its sign. -/
def exponentText (exponent : Int) : String :=
  (if exponent < 0 then "e-" else "e+") ++ toString exponent.natAbs

/-- Writes a decimal with one digit before the point and a power of ten. -/
def scientificText (digits : List Char) (places : Int) : String :=
  let fraction := digits.drop 1
  let point := if fraction.isEmpty then "" else "."
  String.ofList (digits.take 1) ++ point ++ String.ofList fraction ++ exponentText (places - 1)

/-- Writes the size of a finite double. -/
def Notation.size (n : Notation) (bits : UInt64) : String :=
  let d := (Binary.ofBits bits).shortest n.tie
  if d.digits = 0 then "0" ++ n.whole
  else
    let digits := Nat.toDigits 10 d.digits
    let places := d.exponent + digits.length
    match n.positional with
    | none => positionalText n digits places
    | some (least, greatest) =>
      if least ≤ places && places ≤ greatest then positionalText n digits places
      else scientificText digits places

/-- Writes a finite double with its sign; minus zero keeps it. -/
def Notation.finite (n : Notation) (x : Float) : String :=
  (if x.toBits >>> 63 == 1 then "-" else "") ++ n.size x.toBits

/-- Writes any double in running text, where the numbers that are not finite have names. -/
def plainText (x : Float) : String :=
  if x.isNaN then "NaN"
  else if x.isInf then (if x < 0 then "-inf" else "inf")
  else plainNumber.finite x

/-- The greatest significand that fits in 64 bits. -/
def maxSignificand : Nat := 0xFFFFFFFFFFFFFFFF

/-- Appends digits to a significand as long as it fits in 64 bits. Returns the significand and the
number of digits that were left out: from the first that does not fit, all are. -/
def fitDigits (significand : Nat) : List Char → Nat × Nat
  | [] => (significand, 0)
  | c :: rest =>
    let next := significand * 10 + (c.toNat - '0'.toNat)
    if next ≤ maxSignificand then fitDigits next rest else (significand, rest.length + 1)

/-- The power of ten as a double; exact up to `10 ^ 22` and rounded once beyond. -/
def powerOfTen (k : Nat) : Float := OfScientific.ofScientific 1 false k

/-- Divides by a power of ten, at most `10 ^ 308` at a time. -/
def divideByPower (x : Float) (k : Nat) : Float :=
  if k ≤ 308 then x / powerOfTen k
  else if x == 0 then x
  else divideByPower (x / powerOfTen 308) (k - 308)
termination_by k

/-- The double that a significand and a power of ten stand for: the significand rounded to a double,
then multiplied or divided by the power. `none` when the product is not finite. -/
def ofScientific? (significand : Nat) (exponent : Int) : Option Float :=
  let x := Float.ofNat significand
  if exponent < 0 then some (divideByPower x exponent.natAbs)
  else if exponent ≤ 308 then
    let product := x * powerOfTen exponent.toNat
    if product.isInf then none else some product
  else if x == 0 then some x
  else none

/-- The double nearest to `digits · 10 ^ exponent`. Exponents far outside the range of doubles are
answered at once, so no large power is computed. -/
def ofDecimal (digits : Nat) (exponent : Int) : Float :=
  let places := exponent + (Nat.toDigits 10 digits).length
  if digits = 0 || places < -400 then 0
  else if 400 < places then 1 / 0
  else if exponent < 0 then OfScientific.ofScientific digits true exponent.natAbs
  else OfScientific.ofScientific digits false exponent.toNat

end PatternQuery.Decimal
