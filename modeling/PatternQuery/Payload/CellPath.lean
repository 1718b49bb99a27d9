import PatternQuery.Json.Record
import PatternQuery.Text.Digits
import PatternQuery.Text.Segment

/-!
# The paths of flattened cells

A flattened result is one object whose keys spell out where each cell belongs. A key of a cell is

    data.data.ROOT.children.BLOCK.data.ROW. … .FIELD

with any number of steps `children.BLOCK.data.ROW` between the index of the root row and the field.
A field may contain dots but does not start with the segment `children`. Other keys are reserved:
`schemas` and all that starts with `schemas.`, `data.schema`, and a path that ends in a step
`children.BLOCK.schema`. What is neither cell nor reserved is in error.

Keys are read as lists of characters, segment by segment, a segment ending at a dot.
-/

namespace PatternQuery

/-- One step down: into a child block of a row, and to a row of that block. -/
structure Nesting where
  block : Nat
  row : Nat
  deriving Repr, DecidableEq

/-- The path of a cell below its root row. -/
structure CellPath where
  steps : List Nesting
  field : String
  deriving Repr, DecidableEq

/-- Why a key is neither the key of a cell nor reserved. -/
inductive CellPathError where
  | missingPrefix (key : String)
  | badIndex (key segment : String)
  | incompleteStep (key : String)
  | missingField (key : String)
  deriving Repr, DecidableEq

namespace CellPathError

/-- The stable name of the error. -/
def code : CellPathError → String
  | missingPrefix _ => "MissingPrefix"
  | badIndex .. => "BadIndex"
  | incompleteStep _ => "IncompleteHop"
  | missingField _ => "MissingField"

/-- The text of the error. -/
def message : CellPathError → String
  | missingPrefix key => s!"key '{key}' does not start with 'data.data.'"
  | badIndex key segment => s!"key '{key}' has non-numeric index '{segment}'"
  | incompleteStep key => s!"key '{key}' has an incomplete children hop"
  | missingField key => s!"key '{key}' names no field"

end CellPathError

namespace Nesting

/-- The order of steps: by block, then by row. -/
def compare (a b : Nesting) : Ordering :=
  (Ord.compare a.block b.block).then (Ord.compare a.row b.row)

/-- The step as it is spelled in a key. -/
def text (n : Nesting) : String :=
  "children." ++ toString n.block ++ ".data." ++ toString n.row ++ "."

end Nesting

namespace CellPath

/-- The order of lists of steps: the first steps that differ decide, and a list that ends sooner
comes first. -/
def compareSteps : List Nesting → List Nesting → Ordering
  | [], [] => .eq
  | [], _ :: _ => .lt
  | _ :: _, [] => .gt
  | a :: as, b :: bs => (a.compare b).then (compareSteps as bs)

/-- The order of paths: by their steps, compared as numbers, and then by their fields. -/
def compare (a b : CellPath) : Ordering :=
  (compareSteps a.steps b.steps).then (Ord.compare a.field b.field)

/-- The number of steps below the root row. -/
def depth (p : CellPath) : Nat := p.steps.length

/-- **The path as it is spelled in a key.** -/
def text (p : CellPath) : String :=
  String.join (p.steps.map Nesting.text) ++ p.field

/-- The segment `children`. -/
def childrenSegment : List Char := ['c', 'h', 'i', 'l', 'd', 'r', 'e', 'n']

/-- The segment `data`. -/
def dataSegment : List Char := ['d', 'a', 't', 'a']

/-- The segment `schema`. -/
def schemaSegment : List Char := ['s', 'c', 'h', 'e', 'm', 'a']

/-- One more than the greatest index of a block or a row. -/
def indexLimit : Nat := 0x100000000

/-- One more than the greatest index of a root row. -/
def rootLimit : Nat := 0x10000000000000000

/-- Reads an index: one or more decimal digits, for a number below a limit. -/
def readIndex (limit : Nat) (key : String) (segment : List Char) : Except CellPathError Nat :=
  let n := Text.natOfDigits segment
  if !segment.isEmpty && segment.all Char.isDigit && n < limit then .ok n
  else .error (.badIndex key (String.ofList segment))

/-- What follows the segment `children`. -/
inductive Step (s : List Char) where
  /-- A step, with the rest of the key. -/
  | nested (step : Nesting) (rest : List Char) (shorter : rest.length ≤ s.length)
  /-- The marker that gives the schema of a block. -/
  | schemaMarker

/-- Reads a step whose first segment `children` has been read. -/
def readStep (key : String) (s : List Char) : Except CellPathError (Step s) :=
  let afterBlock := (Text.cutAtDot s).2
  let afterMark := (Text.cutAtDot afterBlock).2
  let afterRow := (Text.cutAtDot afterMark).2
  have shorter : afterRow.length ≤ s.length :=
    Nat.le_trans (Text.length_cutAtDot_snd_le afterMark)
      (Nat.le_trans (Text.length_cutAtDot_snd_le afterBlock) (Text.length_cutAtDot_snd_le s))
  let blockSegment := (Text.cutAtDot s).1
  let mark := (Text.cutAtDot afterBlock).1
  let rowSegment := (Text.cutAtDot afterMark).1
  if blockSegment.isEmpty then .error (.incompleteStep key)
  else do
    let block ← readIndex indexLimit key blockSegment
    if mark = schemaSegment ∧ afterMark.isEmpty then .ok .schemaMarker
    else if mark ≠ dataSegment ∨ rowSegment.isEmpty then .error (.incompleteStep key)
    else do
      let row ← readIndex indexLimit key rowSegment
      .ok (.nested ⟨block, row⟩ afterRow shorter)

/-- Reads what stands behind the index of the root row: a path, or nothing when it ends in a schema
marker. `steps` holds the steps that have been read. -/
def readTail (key : String) (steps : List Nesting) (s : List Char) :
    Except CellPathError (Option CellPath) :=
  if _h : (Text.cutAtDot s).1 = childrenSegment then
    match readStep key (Text.cutAtDot s).2 with
    | .error e => .error e
    | .ok .schemaMarker => .ok none
    | .ok (.nested step rest _) => readTail key (steps ++ [step]) rest
  else if s.isEmpty then .error (.missingField key)
  else .ok (some ⟨steps, String.ofList s⟩)
termination_by s.length
decreasing_by
  have := Text.length_cutAtDot_le s
  rw [_h] at this
  simp only [childrenSegment, List.length_cons] at this
  omega

/-- **Reads a path.** A schema marker is no path. -/
def ofText (s : String) : Except CellPathError CellPath := do
  match ← readTail s [] s.toList with
  | some p => return p
  | none => throw (.missingField s)

/-- Reads a path from a string. -/
def ofJson (v : Json) : Except DecodeError CellPath := do
  match ofText (← v.toStr) with
  | .ok p => return p
  | .error e => throw (.refused e.message)

/-- Writes a path as a string. -/
def toJson (p : CellPath) : Json := .str p.text

end CellPath

/-- What the key of a flattened result stands for. -/
inductive KeyRole where
  /-- A cell of a root row. -/
  | cell (root : Nat) (path : CellPath)
  /-- A list of schemas or a schema marker. -/
  | reserved
  deriving Repr, DecidableEq

namespace KeyRole

/-- How the key of a cell begins. -/
def cellLead : List Char := "data.data.".toList

/-- Whether a key is reserved whatever follows its first segments. -/
def isReservedName (key : String) : Bool :=
  key == "schemas" || "schemas.".toList.isPrefixOf key.toList || key == "data.schema"

/-- **Reads a key.** -/
def ofKey (key : String) : Except CellPathError KeyRole :=
  if isReservedName key then .ok .reserved
  else if !cellLead.isPrefixOf key.toList then .error (.missingPrefix key)
  else do
    let (rootSegment, rest) := Text.cutAtDot (key.toList.drop cellLead.length)
    let root ← CellPath.readIndex CellPath.rootLimit key rootSegment
    match ← CellPath.readTail key [] rest with
    | some path => return .cell root path
    | none => return .reserved

end KeyRole

end PatternQuery
