import PatternQuery.Text.Digits
import PatternQuery.Toml.Basic

/-!
# TOML strings and keys

The four forms of strings, and keys. Between double quotes a backslash starts an escape; between
single quotes everything stands for itself. Between three quotes a string may have several lines. A
key is made of parts with dots between them, each with quotes or without.
-/

namespace PatternQuery.Toml

/-- The character that an escape stands for, whose backslash has been read, and what follows it. -/
def readEscape : List Char → Option (Char × List Char)
  | 'b' :: rest => some ('\x08', rest)
  | 't' :: rest => some ('\t', rest)
  | 'n' :: rest => some ('\n', rest)
  | 'f' :: rest => some ('\x0C', rest)
  | 'r' :: rest => some ('\r', rest)
  | '"' :: rest => some ('"', rest)
  | '\\' :: rest => some ('\\', rest)
  | 'u' :: rest => do
    let (n, rest) ← Text.readHex 0 4 rest
    if n.isValidChar then some (Char.ofNat n, rest) else none
  | 'U' :: rest => do
    let (n, rest) ← Text.readHex 0 8 rest
    if n.isValidChar then some (Char.ofNat n, rest) else none
  | _ => none

/-- A blank inside a line. -/
def isSpace (c : Char) : Bool := c == ' ' || c == '\t'

/-- What follows the blanks at the start of a text. -/
def skipSpaces (s : List Char) : List Char := s.dropWhile isSpace

/-- What follows a line break at the start of a text. -/
def afterLineBreak : List Char → Option (List Char)
  | '\n' :: rest => some rest
  | '\r' :: '\n' :: rest => some rest
  | _ => none

/-- What follows the blanks and line breaks at the start of a text. A line break is one of `\n` and
`\r\n`. -/
def skipBlankLines : List Char → List Char
  | [] => []
  | '\r' :: '\n' :: rest => skipBlankLines rest
  | c :: rest => if isSpace c || c == '\n' then skipBlankLines rest else c :: rest

/-- The rest of a string between double quotes, whose first quote has been read; `read` holds what
was read so far, the last character first. The fuel bounds the characters that are read. -/
def readBasic : Nat → List Char → List Char → Option (String × List Char)
  | 0, _, _ => none
  | _ + 1, _, [] => none
  | _ + 1, read, '"' :: rest => some (String.ofList read.reverse, rest)
  | fuel + 1, read, '\\' :: rest => do
    let (c, rest) ← readEscape rest
    readBasic fuel (c :: read) rest
  | fuel + 1, read, c :: rest => if isControl c then none else readBasic fuel (c :: read) rest

/-- The rest of a string between single quotes. -/
def readLiteral : List Char → List Char → Option (String × List Char)
  | _, [] => none
  | read, c :: rest =>
    if c = '\x27' then some (String.ofList read.reverse, rest)
    else if isControl c then none
    else readLiteral (c :: read) rest

/-- The quotes at a place where three or more stand in a row: those that belong to the string, at
most two, and what follows the three that end it. -/
def closeMulti (quote : Char) (s : List Char) : Option (List Char × List Char) :=
  let run := (s.takeWhile (· == quote)).length
  if run < 3 then none
  else
    let inside := min (run - 3) 2
    some (List.replicate inside quote, s.drop (inside + 3))

/-- The rest of a string between three double quotes. A backslash at the end of a line takes away
the line break and all blanks and line breaks behind it. -/
def readMultiBasic : Nat → List Char → List Char → Option (String × List Char)
  | 0, _, _ => none
  | _ + 1, _, [] => none
  | fuel + 1, read, '\\' :: rest =>
    match afterLineBreak (skipSpaces rest) with
    | some rest => readMultiBasic fuel read (skipBlankLines rest)
    | none => do
      let (c, rest) ← readEscape rest
      readMultiBasic fuel (c :: read) rest
  | fuel + 1, read, c :: rest =>
    match closeMulti '"' (c :: rest) with
    | some (inside, rest) => some (String.ofList (inside ++ read).reverse, rest)
    | none =>
      match afterLineBreak (c :: rest) with
      | some rest => readMultiBasic fuel ('\n' :: read) rest
      | none => if isControl c then none else readMultiBasic fuel (c :: read) rest

/-- The rest of a string between three single quotes. -/
def readMultiLiteral : Nat → List Char → List Char → Option (String × List Char)
  | 0, _, _ => none
  | _ + 1, _, [] => none
  | fuel + 1, read, c :: rest =>
    match closeMulti '\x27' (c :: rest) with
    | some (inside, rest) => some (String.ofList (inside ++ read).reverse, rest)
    | none =>
      match afterLineBreak (c :: rest) with
      | some rest => readMultiLiteral fuel ('\n' :: read) rest
      | none => if isControl c then none else readMultiLiteral fuel (c :: read) rest

/-- What follows a line break right behind the quotes that start a string of several lines, which is
no part of the string. -/
def skipFirstBreak (s : List Char) : List Char := (afterLineBreak s).getD s

/-- A string in any of its forms, and what follows it; none when the text does not start with a
quote. -/
def readQuoted : List Char → Option (String × List Char)
  | '"' :: '"' :: '"' :: rest => readMultiBasic (rest.length + 1) [] (skipFirstBreak rest)
  | '"' :: rest => readBasic (rest.length + 1) [] rest
  | '\x27' :: '\x27' :: '\x27' :: rest =>
    readMultiLiteral (rest.length + 1) [] (skipFirstBreak rest)
  | '\x27' :: rest => readLiteral [] rest
  | _ => none

/-- One part of a key, and what follows it. -/
def readKeyPart : List Char → Option (String × List Char)
  | '"' :: rest => readBasic (rest.length + 1) [] rest
  | '\x27' :: rest => readLiteral [] rest
  | s =>
    let bare := s.takeWhile isBareKeyChar
    if bare.isEmpty then none else some (String.ofList bare, s.drop bare.length)

/-- The parts of a key, and what follows it. Blanks may stand around the dots and around the key. The
fuel bounds the number of parts. -/
def readKeyParts : Nat → List Char → Option (List String × List Char)
  | 0, _ => none
  | fuel + 1, s => do
    let (part, rest) ← readKeyPart (skipSpaces s)
    match skipSpaces rest with
    | '.' :: rest =>
      let (parts, rest) ← readKeyParts fuel rest
      return (part :: parts, rest)
    | rest => return ([part], rest)

/-- The greatest number of parts of a key. -/
def maxKeyParts : Nat := 79

/-- **Reads a key.** -/
def readKey (s : List Char) : Option (List String × List Char) := do
  let (parts, rest) ← readKeyParts (s.length + 1) s
  if parts.length ≤ maxKeyParts then some (parts, rest) else none

end PatternQuery.Toml
