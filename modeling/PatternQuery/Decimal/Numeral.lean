import PatternQuery.Decimal.Notation
import PatternQuery.Text.Digits

/-!
# Numbers as people write them

`Decimal.ofText?` reads a floating-point number from a whole text. The number has digits before its
point or behind it or on both sides, perhaps a sign in front and an exponent behind. The names of
infinity and of the number that is none are read in any case of letters.
-/

namespace PatternQuery.Decimal

/-- A sign and what follows it; a sign may be missing. -/
def splitSign : List Char → Bool × List Char
  | '-' :: rest => (true, rest)
  | '+' :: rest => (false, rest)
  | s => (false, s)

/-- Reads the exponent that fills a whole text, without its mark. -/
def exponent? (s : List Char) : Option Int :=
  let (negative, digits) := splitSign s
  if !digits.isEmpty && digits.all Char.isDigit then
    let n : Int := Text.natOfDigits digits
    some (if negative then -n else n)
  else none

/-- Reads a number that fills a whole text, without its sign. -/
def unsigned? (s : List Char) : Option Float := do
  let (whole, rest) := Text.spanDigits s
  let (fraction, rest) :=
    match rest with
    | '.' :: rest => Text.spanDigits rest
    | rest => ([], rest)
  let exponent ←
    match rest with
    | [] => some 0
    | c :: rest => if c = 'e' ∨ c = 'E' then exponent? rest else none
  if whole.isEmpty && fraction.isEmpty then none
  else some (ofDecimal (Text.natOfDigits (whole ++ fraction)) (exponent - fraction.length))

/-- **Reads a floating-point number.** -/
def ofText? (text : String) : Option Float := do
  let (negative, size) := splitSign text.toList
  let name := String.ofList (size.map Char.toLower)
  let x ←
    if name == "inf" || name == "infinity" then some (1 / 0)
    else if name == "nan" then some (0 / 0)
    else unsigned? size
  return if negative then -x else x

end PatternQuery.Decimal
