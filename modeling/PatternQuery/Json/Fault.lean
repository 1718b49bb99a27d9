/-!
# Faults in JSON texts

What is wrong with a text that is no JSON value, and where. The place of a fault is given as a line
and a column. Lines are counted from one, and the column is the number of bytes that stand in front
of the place in its line.

A fault is noticed either behind the character that is wrong, once that has been taken, or one byte
behind the place that was looked at; at the end of the text both are the end.
-/

namespace PatternQuery.Json

/-- What can be wrong with a text. -/
inductive Defect where
  | endInArray
  | endInObject
  | endInString
  | endInValue
  | noColon
  /-- An item of an array is followed by neither a comma nor the end. -/
  | noArrayEnd
  /-- A member of an object is followed by neither a comma nor the end. -/
  | noObjectEnd
  /-- A word starts like one of those for truth values and null, and is another. -/
  | noWord
  | noValue
  | badEscape
  | badNumber
  | numberTooLarge
  | controlCharacter
  | nameNotString
  | loneSurrogate
  /-- A high surrogate is not followed by an escape. -/
  | brokenPair
  | trailingComma
  | trailingText
  | tooDeep
  deriving Repr, DecidableEq

namespace Defect

/-- The text of the defect. -/
def message : Defect → String
  | endInArray => "EOF while parsing a list"
  | endInObject => "EOF while parsing an object"
  | endInString => "EOF while parsing a string"
  | endInValue => "EOF while parsing a value"
  | noColon => "expected `:`"
  | noArrayEnd => "expected `,` or `]`"
  | noObjectEnd => "expected `,` or `\x7d`"
  | noWord => "expected ident"
  | noValue => "expected value"
  | badEscape => "invalid escape"
  | badNumber => "invalid number"
  | numberTooLarge => "number out of range"
  | controlCharacter => "control character (\\u0000-\\u001F) found while parsing a string"
  | nameNotString => "key must be a string"
  | loneSurrogate => "lone leading surrogate in hex escape"
  | brokenPair => "unexpected end of hex escape"
  | trailingComma => "trailing comma"
  | trailingText => "trailing characters"
  | tooDeep => "recursion limit exceeded"

end Defect

/-- Where a reader stops: the defect, what was left of the text, and how many bytes of that had been
looked at. -/
structure Stop where
  defect : Defect
  left : List Char
  ahead : Nat
  deriving Repr, DecidableEq

namespace Stop

/-- Stops in front of what is left. -/
def here (defect : Defect) (left : List Char) : Stop := ⟨defect, left, 0⟩

/-- Stops one byte behind the place that is looked at. -/
def peeking (defect : Defect) (left : List Char) : Stop := ⟨defect, left, 1⟩

end Stop

/-- A defect and the place where it was noticed. -/
structure Fault where
  defect : Defect
  line : Nat
  column : Nat
  deriving Repr, DecidableEq

namespace Fault

/-- The line and the column behind some bytes. -/
def place (bytes : List UInt8) : Nat × Nat :=
  bytes.foldl
    (fun (p : Nat × Nat) b => if b = 10 then (p.1 + 1, 0) else (p.1, p.2 + 1)) (1, 0)

/-- The fault of a text for which a reader has stopped. -/
def ofStop (text : String) (stop : Stop) : Fault :=
  let bytes := text.toUTF8.toList
  let left := (String.ofList stop.left).utf8ByteSize
  let (line, column) := place (bytes.take (bytes.length - left + stop.ahead))
  ⟨stop.defect, line, column⟩

/-- The text of the fault. -/
def message (f : Fault) : String :=
  s!"{f.defect.message} at line {f.line} column {f.column}"

end Fault

end PatternQuery.Json
