/-!
# Pages of text

What the command line shows is put together from a few kinds of parts: facts, lists, tables, and
empty lines between them. A page can be written quietly, which leaves out the marks in front of
titles and the empty lines.
-/

namespace PatternQuery

/-- A part of a page. -/
inductive PagePart where
  /-- Names with values, the names aligned to the right. Nothing is written when there are none. -/
  | facts (title : String) (rows : List (String × String))
  /-- Nothing is written when there are no entries. -/
  | list (title : String) (entries : List String)
  /-- Nothing but the title is written when there are no columns. -/
  | table (title : String) (headers : List String) (rows : List (List String))
  /-- An empty line. -/
  | gap
  /-- The message that something has been done. -/
  | notice (message : String)
  deriving Repr, DecidableEq

/-- A page. -/
abbrev Page := List PagePart

namespace Page

/-- The text of `n` blanks. -/
def blanks (n : Nat) : String := String.ofList (List.replicate n ' ')

/-- Fills a text up with blanks behind it. -/
def padRight (width : Nat) (s : String) : String := s ++ blanks (width - s.length)

/-- Fills a text up with blanks in front of it. -/
def padLeft (width : Nat) (s : String) : String := blanks (width - s.length) ++ s

/-- A message with a mark in front of it, unless the page is quiet. -/
def marked (mark : String) (quiet : Bool) (message : String) : String :=
  if quiet then message else mark ++ " " ++ message

/-- The line of a title. -/
def heading : Bool → String → String := marked "▸"

/-- The line of a message that something has been done. -/
def success : Bool → String → String := marked "✔"

/-- The line of a warning. -/
def warning : Bool → String → String := marked "⚠"

/-- The lines of facts. The names are filled up to the length in bytes of the longest name. -/
def factLines (quiet : Bool) (title : String) (rows : List (String × String)) : List String :=
  let width := (rows.map fun (name, _) => name.utf8ByteSize).foldl max 0
  heading quiet title :: rows.map fun (name, value) => "  " ++ padLeft width name ++ ": " ++ value

/-- The width of each column: the number of characters of its longest cell, headers included. -/
def widths (headers : List String) (rows : List (List String)) : List Nat :=
  rows.foldl (fun widths row => widths.zipWith (fun w (cell : String) => max w cell.length) row)
    (headers.map String.length)

/-- The line of a row. -/
def rowLine (widths : List Nat) (cells : List String) : String :=
  "  " ++ " | ".intercalate (widths.zipWith padRight cells)

/-- The lines of a table. -/
def tableLines (quiet : Bool) (title : String) (headers : List String)
    (rows : List (List String)) : List String :=
  if headers.isEmpty then [heading quiet title]
  else
    let widths := widths headers rows
    heading quiet title :: (headers :: rows).map (rowLine widths)

/-- The lines of a part. -/
def partLines (quiet : Bool) : PagePart → List String
  | .facts title rows => if rows.isEmpty then [] else factLines quiet title rows
  | .list title entries =>
    if entries.isEmpty then [] else heading quiet title :: entries.map ("  - " ++ ·)
  | .table title headers rows => tableLines quiet title headers rows
  | .gap => if quiet then [] else [""]
  | .notice message => [success quiet message]

/-- **Writes a page,** every line with a line break at its end. -/
def text (quiet : Bool) (p : Page) : String :=
  String.join ((p.flatMap (partLines quiet)).map (· ++ "\n"))

end Page

end PatternQuery
