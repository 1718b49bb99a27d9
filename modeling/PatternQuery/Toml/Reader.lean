import PatternQuery.Toml.Quoted
import PatternQuery.Toml.Scalar

/-!
# Reading TOML documents

A document is a list of lines: entries, which name a value, and headers, which name the table that
the entries after them belong to. Tables come into being in several ways, and which of them may be
added to afterwards depends on how they did; `Draft` keeps track of that while a document is read.
-/

namespace PatternQuery.Toml

/-- How a table came into being. -/
inductive Origin where
  /-- By a header of its own. -/
  | header
  /-- By a header that names a table inside it. -/
  | implied
  /-- By an entry whose key has dots. -/
  | dotted
  deriving Repr, DecidableEq

/-- What an entry of a table holds while the document is read. -/
inductive Draft where
  | value (v : Toml)
  | table (origin : Origin) (entries : List (String × Draft))
  /-- An array of tables made by headers: the tables that are complete, and the last one. -/
  | tables (earlier : List Toml) (last : List (String × Draft))

/-- The entries of a table while the document is read. -/
abbrev Entries := List (String × Draft)

mutual

/-- The value that a draft stands for. -/
def Draft.finish : Draft → Toml
  | .value v => v
  | .table _ entries => Toml.table (finishEntries entries)
  | .tables earlier last => arr (earlier ++ [Toml.table (finishEntries last)])

/-- The entries that drafts stand for. -/
def finishEntries : Entries → List (String × Toml)
  | [] => []
  | (key, d) :: rest => (key, d.finish) :: finishEntries rest

end

namespace Entries

/-- Puts a draft in the place of the one with its key. -/
def replace (entries : Entries) (key : String) (d : Draft) : Entries :=
  entries.map fun e => if e.1 == key then (key, d) else e

/-- Adds an entry. Its key must be new. The table that the parts of a dotted key name must be new or
made by dotted keys itself; on the way to it, tables that a header only implies may be passed, and
arrays of tables, of which the last table is meant. -/
def add (key : String) (v : Toml) : List String → Entries → Option Entries
  | [], entries =>
    match entries.lookup key with
    | some _ => none
    | none => some (entries ++ [(key, .value v)])
  | part :: parts, entries =>
    match entries.lookup part with
    | none => do return entries ++ [(part, .table .dotted (← add key v parts []))]
    | some (.table origin inner) =>
      if origin = .dotted ∨ (origin = .implied ∧ !parts.isEmpty) then do
        return replace entries part (.table origin (← add key v parts inner))
      else none
    | some (.tables earlier last) =>
      if parts.isEmpty then none
      else do return replace entries part (.tables earlier (← add key v parts last))
    | some (.value _) => none

/-- Adds an entry whose key has these parts. -/
def addPath (path : List String) (v : Toml) (entries : Entries) : Option Entries := do
  add (← path.getLast?) v path.dropLast entries

/-- Changes the table that a header names. Tables on the way to it are made when they are missing,
and an array of tables stands for its last one. -/
def within (change : Entries → Option Entries) : List String → Entries → Option Entries
  | [], entries => change entries
  | part :: parts, entries =>
    match entries.lookup part with
    | none => do return entries ++ [(part, .table .implied (← within change parts []))]
    | some (.table origin inner) => do
      return replace entries part (.table origin (← within change parts inner))
    | some (.tables earlier last) => do
      return replace entries part (.tables earlier (← within change parts last))
    | some (.value _) => none

/-- Makes the table of a header. A table that has only been implied so far may still get its
header. -/
def openTable (key : String) (entries : Entries) : Option Entries :=
  match entries.lookup key with
  | none => some (entries ++ [(key, .table .header [])])
  | some (.table .implied inner) => some (replace entries key (.table .header inner))
  | some _ => none

/-- Makes the next table of an array of tables. -/
def openItem (key : String) (entries : Entries) : Option Entries :=
  match entries.lookup key with
  | none => some (entries ++ [(key, .tables [] [])])
  | some (.tables earlier last) =>
    some (replace entries key (.tables (earlier ++ [Toml.table (finishEntries last)]) []))
  | some _ => none

end Entries

/-! ### Values -/

/-- The deepest nesting of arrays and tables in values. -/
def maxDepth : Nat := 79

/-- What follows a comment, whose mark has been read. -/
def skipComment : List Char → Option (List Char)
  | [] => some []
  | '\n' :: rest => some ('\n' :: rest)
  | '\r' :: '\n' :: rest => some ('\r' :: '\n' :: rest)
  | c :: rest => if isControl c then none else skipComment rest

/-- What follows the blanks, line breaks and comments inside an array. The fuel bounds their
number. -/
def skipGaps : Nat → List Char → Option (List Char)
  | 0, s => some s
  | fuel + 1, s =>
    match skipBlankLines s with
    | '#' :: rest => do skipGaps fuel (← skipComment rest)
    | rest => some rest

mutual

/-- A value, and what follows it. The first number bounds the nesting that is still allowed, the
second one the steps of the reader. -/
def readValue (depth : Nat) : Nat → List Char → Option (Toml × List Char)
  | 0, _ => none
  | fuel + 1, s =>
    match s with
    | '[' :: rest =>
      match depth with
      | 0 => none
      | depth + 1 => do
        let (items, rest) ← readItems depth fuel rest
        return (arr items, rest)
    | '\x7b' :: rest =>
      match depth with
      | 0 => none
      | depth + 1 =>
        match skipSpaces rest with
        | '\x7d' :: rest => some (table [], rest)
        | rest => do
          let (entries, rest) ← readInline depth fuel [] rest
          return (table (finishEntries entries), rest)
    | s =>
      match readQuoted s with
      | some (text, rest) => some (str text, rest)
      | none => readScalar s

/-- The items of an array up to its closing bracket, and what follows it. A comma may stand behind
the last item. -/
def readItems (depth : Nat) : Nat → List Char → Option (List Toml × List Char)
  | 0, _ => none
  | fuel + 1, s => do
    match ← skipGaps s.length s with
    | ']' :: rest => return ([], rest)
    | s =>
      let (v, rest) ← readValue depth fuel s
      match ← skipGaps rest.length rest with
      | ',' :: rest =>
        let (items, rest) ← readItems depth fuel rest
        return (v :: items, rest)
      | ']' :: rest => return ([v], rest)
      | _ => none

/-- The entries of a table written in one line, up to its closing brace, and what follows it. -/
def readInline (depth : Nat) : Nat → Entries → List Char → Option (Entries × List Char)
  | 0, _, _ => none
  | fuel + 1, entries, s => do
    let (path, rest) ← readKey s
    match rest with
    | '=' :: rest =>
      let (v, rest) ← readValue depth fuel (skipSpaces rest)
      let entries ← Entries.addPath path v entries
      match skipSpaces rest with
      | ',' :: rest => readInline depth fuel entries rest
      | '\x7d' :: rest => return (entries, rest)
      | _ => none
    | _ => none

end

/-! ### Lines -/

/-- What follows the end of a line, before which blanks and a comment may stand. -/
def afterLine (s : List Char) : Option (List Char) := do
  let s ←
    match skipSpaces s with
    | '#' :: rest => skipComment rest
    | rest => some rest
  match s with
  | [] => some []
  | s => afterLineBreak s

/-- Reads an entry of the table that `path` names: the document with the entry, and what follows the
line. -/
def readEntry (document : Entries) (path : List String) (s : List Char) :
    Option (Entries × List Char) := do
  let (key, rest) ← readKey s
  match rest with
  | '=' :: rest =>
    let rest := skipSpaces rest
    let (v, rest) ← readValue maxDepth (2 * rest.length + 2) rest
    return (← Entries.within (Entries.addPath key v) path document, ← afterLine rest)
  | _ => none

/-- Reads the rest of a header behind its first bracket: the document with the table, the path of the
table, and what follows the line. -/
def readHeader (document : Entries) (s : List Char) :
    Option (Entries × List String × List Char) := do
  let (isItem, s) :=
    match s with
    | '[' :: rest => (true, rest)
    | s => (false, s)
  let (path, rest) ← readKey s
  let rest ← readMark ']' rest
  let rest ← if isItem then readMark ']' rest else some rest
  let last ← path.getLast?
  let make := if isItem then Entries.openItem last else Entries.openTable last
  return (← Entries.within make path.dropLast document, path, ← afterLine rest)

/-- Reads the lines that are left; `path` names the table that entries belong to. The fuel bounds the
number of lines. -/
def readLines : Nat → Entries → List String → List Char → Option Entries
  | 0, document, _, s => if s.isEmpty then some document else none
  | fuel + 1, document, path, s => do
    match skipBlankLines s with
    | [] => return document
    | '#' :: rest => readLines fuel document path (← skipComment rest)
    | '[' :: rest =>
      let (document, path, rest) ← readHeader document rest
      readLines fuel document path rest
    | s =>
      let (document, rest) ← readEntry document path s
      readLines fuel document path rest

/-- **Reads a document:** the entries of its top table. A byte-order mark may stand in front. -/
def ofText? (text : String) : Option (List (String × Toml)) := do
  let s :=
    match text.toList with
    | '\uFEFF' :: rest => rest
    | s => s
  return finishEntries (← readLines (s.length + 1) [] [] s)

end PatternQuery.Toml
