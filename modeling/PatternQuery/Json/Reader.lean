import PatternQuery.Json.Basic
import PatternQuery.Json.Fault
import PatternQuery.Decimal.Notation
import PatternQuery.Text.Digits

/-!
# Reading JSON

`Json.ofText` reads one JSON value that fills a whole text, with blanks around it allowed, or says
what is wrong with the text and where. Three decisions go beyond the grammar.

* A whole number from `-2 ^ 63` up to `2 ^ 64 - 1` stays whole. A larger or smaller one, and minus
  zero, becomes a floating-point number. A number too large for a double is refused.
* The members of an object are put in ascending order of their names, and a name that is repeated
  keeps its last value.
* Arrays and objects may be nested up to `maxDepth` deep.
-/

namespace PatternQuery.Json

/-- The deepest nesting of arrays and objects that is read. -/
def maxDepth : Nat := 127

/-- The characters that may stand between the parts of a value. -/
def isBlank (c : Char) : Bool :=
  c = ' ' || c = '\n' || c = '\r' || c = '\t'

/-- What follows the blanks at the start of a text. -/
def skipBlanks (s : List Char) : List Char := s.dropWhile isBlank

/-! ### Words -/

/-- Reads the rest of a word. -/
def readWord : List Char → List Char → Except Stop (List Char)
  | [], s => .ok s
  | _ :: _, [] => .error (.here .endInValue [])
  | expected :: word, c :: rest =>
    if c = expected then readWord word rest else .error (.peeking .noWord (c :: rest))

/-! ### Strings -/

/-- The number that four hexadecimal digits at the start of a text stand for. -/
def readHexUnit (s : List Char) : Except Stop (Nat × List Char) :=
  match Text.readHex 0 4 s with
  | some (unit, rest) => .ok (unit, rest)
  | none =>
    if (String.ofList s).utf8ByteSize < 4 then .error (.here .endInString [])
    else .error ⟨.badEscape, s, 4⟩

/-- Reads a character that has to stand between a high surrogate and the low one. -/
def readLink (mark : Char) : List Char → Except Stop (List Char)
  | [] => .error (.here .endInString [])
  | c :: rest => if c = mark then .ok rest else .error (.peeking .brokenPair (c :: rest))

/-- The character behind an escape `\u`, whose four digits come next. A character beyond U+FFFF is
written as two such escapes, a high surrogate and a low one; a surrogate that stands alone is
refused. -/
def readUnicode (s : List Char) : Except Stop (Char × List Char) := do
  let (unit, rest) ← readHexUnit s
  if 0xDC00 ≤ unit ∧ unit < 0xE000 then throw (.here .loneSurrogate rest)
  else if 0xD800 ≤ unit ∧ unit < 0xDC00 then
    let (low, rest) ← readHexUnit (← readLink 'u' (← readLink '\\' rest))
    if 0xDC00 ≤ low ∧ low < 0xE000 then
      return (Char.ofNat (0x10000 + (unit - 0xD800) * 0x400 + (low - 0xDC00)), rest)
    else throw (.here .loneSurrogate rest)
  else return (Char.ofNat unit, rest)

/-- The character that an escape of one letter stands for. -/
def simpleEscape : Char → Option Char
  | '"' => some '"'
  | '\\' => some '\\'
  | '/' => some '/'
  | 'b' => some '\x08'
  | 'f' => some '\x0C'
  | 'n' => some '\n'
  | 'r' => some '\r'
  | 't' => some '\t'
  | _ => none

/-- The character that an escape stands for, whose backslash has been read. -/
def readEscape : List Char → Except Stop (Char × List Char)
  | [] => .error (.here .endInString [])
  | 'u' :: rest => readUnicode rest
  | c :: rest =>
    match simpleEscape c with
    | some d => .ok (d, rest)
    | none => .error (.peeking .badEscape (c :: rest))

/-- The rest of a string whose opening quote has been read; `read` holds what was read so far, the
last character first. The fuel bounds the characters that are read. -/
def readString : Nat → List Char → List Char → Except Stop (String × List Char)
  | 0, _, s => .error (.here .endInString s)
  | _ + 1, _, [] => .error (.here .endInString [])
  | _ + 1, read, '"' :: rest => .ok (String.ofList read.reverse, rest)
  | fuel + 1, read, '\\' :: rest => do
    let (c, rest) ← readEscape rest
    readString fuel (c :: read) rest
  | fuel + 1, read, c :: rest =>
    if c.toNat < 0x20 then .error (.here .controlCharacter rest)
    else readString fuel (c :: read) rest

/-! ### Numbers -/

/-- The fraction of a number: its digits, if there is a point, and what follows them. -/
def readFraction : List Char → Except Stop (List Char × List Char)
  | '.' :: rest =>
    let (digits, rest) := Text.spanDigits rest
    if !digits.isEmpty then .ok (digits, rest)
    else if rest.isEmpty then .error (.here .endInValue [])
    else .error (.peeking .badNumber rest)
  | rest => .ok ([], rest)

/-- The greatest exponent that is read as a number. -/
def maxExponent : Nat := 0x7FFFFFFF

/-- The digits of an exponent beyond the greatest one: what follows the digit that made it too
large; none when the exponent is not that large. -/
def beyondExponent (n : Nat) : List Char → Option (List Char)
  | [] => none
  | c :: rest =>
    if c.isDigit then
      let n := n * 10 + (c.toNat - '0'.toNat)
      if maxExponent < n then some rest else beyondExponent n rest
    else none

/-- The digits behind an exponent mark and its sign. A positive exponent beyond the greatest one is
too large at once, unless the number is zero. -/
def readExponentDigits (negative zero : Bool) (s : List Char) :
    Except Stop (Option Int × List Char) :=
  let (digits, rest) := Text.spanDigits s
  if digits.isEmpty then
    match s with
    | [] => .error (.here .endInValue [])
    | s => .error (.peeking .badNumber s)
  else
    match beyondExponent 0 s, negative || zero with
    | some behind, false => .error (.here .numberTooLarge behind)
    | _, _ =>
      let n : Int := Text.natOfDigits digits
      .ok (some (if negative then -n else n), rest)

/-- The exponent of a number, if there is one, and what follows it; `zero` says whether the number is
zero. -/
def readExponent (zero : Bool) : List Char → Except Stop (Option Int × List Char)
  | c :: rest =>
    if c = 'e' ∨ c = 'E' then
      match rest with
      | '+' :: rest => readExponentDigits false zero rest
      | '-' :: rest => readExponentDigits true zero rest
      | rest => readExponentDigits false zero rest
    else .ok (none, c :: rest)
  | [] => .ok (none, [])

/-- The digits in front of the point of a number. A zero there stands alone. -/
def readWhole (s : List Char) : Except Stop (List Char × List Char) :=
  match s with
  | [] => .error (.here .endInValue [])
  | '0' :: c :: rest =>
    if c.isDigit then .error (.peeking .badNumber (c :: rest)) else .ok (['0'], c :: rest)
  | c :: rest =>
    if c.isDigit then .ok (Text.spanDigits (c :: rest))
    else .error (.peeking .badNumber (c :: rest))

/-- A whole number, when it lies in the range of whole numbers. Minus zero has no whole form. -/
def wholeNumber? (negative : Bool) (n : Nat) : Option Int :=
  if negative then (if n = 0 ∨ 0x8000000000000000 < n then none else some (-n))
  else if n < 0x10000000000000000 then some n
  else none

/-- The floating-point number with these digits before and behind its point and this exponent. -/
def floatNumber? (negative : Bool) (whole fraction : List Char) (exponent : Int) : Option Float :=
  let (significand, left) := Decimal.fitDigits 0 whole
  let (significand, left') := Decimal.fitDigits significand fraction
  let scale := exponent + left - ((fraction.length : Int) - left')
  (Decimal.ofScientific? significand scale).map fun x => if negative then -x else x

/-- A number, whose sign has been read, and what follows it. -/
def readUnsigned (negative : Bool) (s : List Char) : Except Stop (Json × List Char) := do
  let (whole, rest) ← readWhole s
  let (fraction, rest) ← readFraction rest
  let zero := (whole ++ fraction).all (· == '0')
  let (exponent, rest) ← readExponent zero rest
  let asFloat : Except Stop Json :=
    match floatNumber? negative whole fraction (exponent.getD 0) with
    | some x => .ok (float x)
    | none => .error (.here .numberTooLarge rest)
  let number ←
    if fraction.isEmpty && exponent.isNone then
      match wholeNumber? negative (Text.natOfDigits whole) with
      | some n => .ok (int n)
      | none => asFloat
    else asFloat
  return (number, rest)

/-! ### Values -/

mutual

/-- A value, and what follows it. The first fuel bounds the nesting that is still allowed, the
second one the steps of the reader. -/
def readValue (depth : Nat) : Nat → List Char → Except Stop (Json × List Char)
  | 0, s => .error (.here .endInValue s)
  | fuel + 1, s =>
    match skipBlanks s with
    | [] => .error (.here .endInValue [])
    | '"' :: rest => do
      let (text, rest) ← readString fuel [] rest
      return (str text, rest)
    | '[' :: rest =>
      match depth with
      | 0 => .error (.peeking .tooDeep ('[' :: rest))
      | depth + 1 =>
        match skipBlanks rest with
        | [] => .error (.here .endInArray [])
        | ']' :: rest => .ok (arr [], rest)
        | rest => do
          let (items, rest) ← readItems depth fuel rest
          return (arr items, rest)
    | '\x7b' :: rest =>
      match depth with
      | 0 => .error (.peeking .tooDeep ('\x7b' :: rest))
      | depth + 1 =>
        match skipBlanks rest with
        | [] => .error (.here .endInObject [])
        | '\x7d' :: rest => .ok (obj [], rest)
        | rest => do
          let (members, rest) ← readMembers depth fuel rest
          return (object members, rest)
    | 'n' :: rest => do return (null, ← readWord "ull".toList rest)
    | 't' :: rest => do return (bool true, ← readWord "rue".toList rest)
    | 'f' :: rest => do return (bool false, ← readWord "alse".toList rest)
    | '-' :: rest => readUnsigned true rest
    | c :: rest =>
      if c.isDigit then readUnsigned false (c :: rest)
      else .error (.peeking .noValue (c :: rest))

/-- The items of an array up to its closing bracket, and what follows it. -/
def readItems (depth : Nat) : Nat → List Char → Except Stop (List Json × List Char)
  | 0, s => .error (.here .endInArray s)
  | fuel + 1, s => do
    let (v, rest) ← readValue depth fuel s
    match skipBlanks rest with
    | [] => throw (.here .endInArray [])
    | ']' :: rest => return ([v], rest)
    | ',' :: rest =>
      match skipBlanks rest with
      | [] => throw (.here .endInValue [])
      | ']' :: rest => throw (.peeking .trailingComma (']' :: rest))
      | rest =>
        let (items, rest) ← readItems depth fuel rest
        return (v :: items, rest)
    | rest => throw (.peeking .noArrayEnd rest)

/-- The members of an object up to its closing brace, and what follows it. -/
def readMembers (depth : Nat) : Nat → List Char → Except Stop (List (String × Json) × List Char)
  | 0, s => .error (.here .endInObject s)
  | fuel + 1, s =>
    match s with
    | '"' :: rest => do
      let (name, rest) ← readString fuel [] rest
      match skipBlanks rest with
      | [] => throw (.here .endInObject [])
      | ':' :: rest =>
        let (v, rest) ← readValue depth fuel rest
        match skipBlanks rest with
        | [] => throw (.here .endInObject [])
        | '\x7d' :: rest => return ([(name, v)], rest)
        | ',' :: rest =>
          match skipBlanks rest with
          | [] => throw (.here .endInValue [])
          | '\x7d' :: rest => throw (.peeking .trailingComma ('\x7d' :: rest))
          | rest =>
            let (members, rest) ← readMembers depth fuel rest
            return ((name, v) :: members, rest)
        | rest => throw (.peeking .noObjectEnd rest)
      | rest => throw (.peeking .noColon rest)
    | s => .error (.peeking .nameNotString s)

end

/-- Reads a value that fills a text and is nested at most `depth` deep. Every step of the reader but
one in two consumes a character, so twice the length of the text is fuel enough. -/
def readText (depth : Nat) (s : List Char) : Except Stop Json := do
  let (v, rest) ← readValue depth (2 * s.length + 2) s
  match skipBlanks rest with
  | [] => return v
  | rest => throw (.peeking .trailingText rest)

/-- Reads a text whose value is nested at most `depth` deep. -/
def ofTextWithin (depth : Nat) (text : String) : Except Fault Json :=
  (readText depth text.toList).mapError (Fault.ofStop text)

/-- **Reads a JSON text.** -/
def ofText (text : String) : Except Fault Json :=
  ofTextWithin maxDepth text

end PatternQuery.Json
