import PatternQuery.Toml.Basic

/-!
# Writing TOML

How keys and strings are written. A key has no quotes when it can do without them. A string is
written in the first of these forms that needs no escapes: between double quotes, between single
quotes, between three double quotes, between three single quotes. When no form will do, it is written
between double quotes with escapes, over several lines if it has any.
-/

namespace PatternQuery.Toml

/-- The ways to write a string. -/
inductive Quoting where
  /-- Between double quotes, with escapes. -/
  | basic
  /-- Between single quotes, as it is. -/
  | literal
  /-- Between three double quotes, with escapes. -/
  | multiBasic
  /-- Between three single quotes, as it is. -/
  | multiLiteral
  deriving Repr, DecidableEq

namespace Quoting

/-- What stands at both ends. -/
def delimiter : Quoting → String
  | basic => "\""
  | literal => "'"
  | multiBasic => "\"\"\""
  | multiLiteral => "'''"

/-- Whether the text may have several lines. -/
def isMulti : Quoting → Bool
  | basic | literal => false
  | multiBasic | multiLiteral => true

/-- Whether escapes are understood. -/
def hasEscapes : Quoting → Bool
  | basic | multiBasic => true
  | literal | multiLiteral => false

end Quoting

/-- The length of the longest run of a character, where `run` is the length of the run that has just
been read. -/
def longestRun (c : Char) (run : Nat) : List Char → Nat
  | [] => run
  | d :: rest => if d = c then longestRun c (run + 1) rest else max run (longestRun c 0 rest)

/-- Whether a text can be written in a form without any escape. -/
def fitsPlainly (s : List Char) : Quoting → Bool
  | .basic => !s.any (fun c => isControl c || c == '"' || c == '\\')
  | .literal => !s.any (fun c => isControl c || c == '\x27')
  | .multiBasic =>
    !s.any (fun c => (isControl c && c != '\n') || c == '\\') && longestRun '"' 0 s ≤ 2
  | .multiLiteral => !s.any (fun c => isControl c && c != '\n') && longestRun '\x27' 0 s ≤ 2

/-- The form in which a string is written. -/
def quoting (s : List Char) : Quoting :=
  match [Quoting.basic, .literal, .multiBasic, .multiLiteral].find? (fitsPlainly s) with
  | some q => q
  | none => if s.contains '\n' then .multiBasic else .basic

/-- The escape of a control character. -/
def controlEscape (c : Char) : List Char :=
  if c = '\x08' then ['\\', 'b']
  else if c = '\t' then ['\\', 't']
  else if c = '\n' then ['\\', 'n']
  else if c = '\x0C' then ['\\', 'f']
  else if c = '\r' then ['\\', 'r']
  else
    let digit (n : Nat) : Char := (Nat.digitChar (n % 16)).toUpper
    ['\\', 'u', '0', '0', digit (c.toNat / 16), digit c.toNat]

/-- Writes a text with escapes. Several lines and up to two double quotes in a row are left as they
are when `multi` holds; `run` counts the double quotes just written. A tab is always escaped. -/
def escaped (multi : Bool) (run : Nat) : List Char → List Char
  | [] => []
  | c :: rest =>
    if c = '"' then
      if multi && run < 2 then c :: escaped multi (run + 1) rest
      else '\\' :: c :: escaped multi 0 rest
    else if c = '\\' then '\\' :: '\\' :: escaped multi 0 rest
    else if c = '\n' ∧ multi then c :: escaped multi 0 rest
    else if isControl c || c == '\t' then controlEscape c ++ escaped multi 0 rest
    else c :: escaped multi 0 rest

/-- Writes a text in a form. A text of several lines starts on a line of its own. -/
def Quoting.write (q : Quoting) (s : List Char) : String :=
  let newLine := if q.isMulti && s.contains '\n' then "\n" else ""
  let body := if q.hasEscapes then escaped q.isMulti 0 s else s
  q.delimiter ++ newLine ++ String.ofList body ++ q.delimiter

/-- **Writes a string.** -/
def quoted (s : String) : String :=
  (quoting s.toList).write s.toList

/-- **Writes a key.** A key with quotes stays on one line. -/
def key (s : String) : String :=
  let cs := s.toList
  if !cs.isEmpty && cs.all isBareKeyChar then s
  else
    match [Quoting.basic, .literal].find? (fitsPlainly cs) with
    | some q => q.write cs
    | none => Quoting.basic.write cs

end PatternQuery.Toml
