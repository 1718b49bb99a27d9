import PatternQuery.Json.Basic
import PatternQuery.Decimal.Notation

/-!
# Writing JSON

Two forms of the same text: `Json.compact` writes no blanks at all, `Json.pretty` puts every item on
a line of its own, indented by two blanks for each level. Both write the members of an object in the
order in which they are listed. A floating-point number that is not finite is written `null`.
-/

namespace PatternQuery.Json

/-- The hexadecimal digit of a number below sixteen. -/
def hexDigit (n : Nat) : Char :=
  Nat.digitChar (n % 16)

/-- The text of one character inside a JSON string. Quotes, backslashes and the control characters
below U+0020 are escaped, and all else is written as it is. -/
def escape (c : Char) : String :=
  if c = '"' then "\\\""
  else if c = '\\' then "\\\\"
  else if c = '\n' then "\\n"
  else if c = '\r' then "\\r"
  else if c = '\t' then "\\t"
  else if c.toNat = 0x08 then "\\b"
  else if c.toNat = 0x0C then "\\f"
  else if c.toNat < 0x20 then "\\u00" ++ String.ofList [hexDigit (c.toNat / 16), hexDigit c.toNat]
  else c.toString

/-- Writes a string between quotes. -/
def quoted (s : String) : String :=
  "\"" ++ String.join (s.toList.map escape) ++ "\""

/-- Writes a floating-point number. -/
def floatText (x : Float) : String :=
  if x.isFinite then Decimal.jsonNumber.finite x else "null"

mutual

/-- Writes a value without blanks. -/
def compact : Json → String
  | null => "null"
  | bool b => if b then "true" else "false"
  | int n => toString n
  | float x => floatText x
  | str s => quoted s
  | arr items => "[" ++ compactItems items ++ "]"
  | obj members => "\x7b" ++ compactMembers members ++ "\x7d"

/-- Writes items with commas between them. -/
def compactItems : List Json → String
  | [] => ""
  | [v] => compact v
  | v :: w :: rest => compact v ++ "," ++ compactItems (w :: rest)

/-- Writes members with commas between them. -/
def compactMembers : List (String × Json) → String
  | [] => ""
  | [(name, v)] => quoted name ++ ":" ++ compact v
  | (name, v) :: m :: rest => quoted name ++ ":" ++ compact v ++ "," ++ compactMembers (m :: rest)

end

/-- The start of a line at a level. -/
def newLine (level : Nat) : String :=
  "\n" ++ String.ofList (List.replicate (2 * level) ' ')

mutual

/-- Writes a value over several lines, where `level` is the level of the line it starts on. -/
def prettyAt (level : Nat) : Json → String
  | arr [] => "[]"
  | arr (v :: rest) => "[" ++ prettyItems (level + 1) (v :: rest) ++ newLine level ++ "]"
  | obj [] => "\x7b\x7d"
  | obj (m :: rest) => "\x7b" ++ prettyMembers (level + 1) (m :: rest) ++ newLine level ++ "\x7d"
  | null => "null"
  | bool b => if b then "true" else "false"
  | int n => toString n
  | float x => floatText x
  | str s => quoted s

/-- Writes items, each on a line of its own. -/
def prettyItems (level : Nat) : List Json → String
  | [] => ""
  | [v] => newLine level ++ prettyAt level v
  | v :: w :: rest => newLine level ++ prettyAt level v ++ "," ++ prettyItems level (w :: rest)

/-- Writes members, each on a line of its own. -/
def prettyMembers (level : Nat) : List (String × Json) → String
  | [] => ""
  | [(name, v)] => newLine level ++ quoted name ++ ": " ++ prettyAt level v
  | (name, v) :: m :: rest =>
    newLine level ++ quoted name ++ ": " ++ prettyAt level v ++ "," ++ prettyMembers level (m :: rest)

end

/-- Writes a value over several lines. -/
def pretty (v : Json) : String := prettyAt 0 v

end PatternQuery.Json
