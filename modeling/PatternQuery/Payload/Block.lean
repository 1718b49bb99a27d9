import PatternQuery.Json.Basic

/-!
# Nested payloads

A nested payload is a tree of blocks. A block asks for a schema and has rows; a row has members, and
below them child blocks. In the JSON of a payload a block is an object with a string `schema` and an
array `data`, a row is an object among the entries of `data`, and the child blocks of a row are the
blocks among the entries of its member `children`. Entries that are not rows or not blocks are
passed over.
-/

namespace PatternQuery

mutual

/-- A block of rows. -/
inductive Block where
  /-- The block that asks for the schema `requested`. `entries` counts what stood in its data,
  whether it was a row or not. -/
  | mk (requested : String) (entries : Nat) (rows : List BlockRow)

/-- A row of a block. -/
inductive BlockRow where
  | mk (members : List (String × Json)) (children : List Block)

end

namespace Block

/-- The member of a row that holds its child blocks. -/
def childrenMember : String := "children"

/-- The id of the schema the block asks for. -/
def requested : Block → String
  | mk r _ _ => r

/-- The number of entries, rows or not. -/
def entries : Block → Nat
  | mk _ n _ => n

/-- The rows. -/
def rows : Block → List BlockRow
  | mk _ _ rows => rows

end Block

/-- The members of a row. -/
def BlockRow.members : BlockRow → List (String × Json)
  | mk members _ => members

/-- The child blocks of a row. -/
def BlockRow.children : BlockRow → List Block
  | mk _ children => children

namespace Block

mutual

/-- Reads a block. -/
def ofJson? : Json → Option Block
  | .obj members =>
    match (members.lookup "schema").bind Json.str? with
    | some requested => ofData? requested members
    | none => none
  | _ => none

/-- Reads the data of a block, whose members are searched for it. -/
def ofData? (requested : String) : List (String × Json) → Option Block
  | [] => none
  | (name, v) :: rest => if name = "data" then ofEntries? requested v else ofData? requested rest

/-- Reads the data of a block. -/
def ofEntries? (requested : String) : Json → Option Block
  | .arr items => some (mk requested items.length (rowsOf items))
  | _ => none

/-- The rows among the entries of a block. -/
def rowsOf : List Json → List BlockRow
  | [] => []
  | v :: rest =>
    match row? v with
    | some r => r :: rowsOf rest
    | none => rowsOf rest

/-- Reads a row. -/
def row? : Json → Option BlockRow
  | .obj members => some (.mk members (childrenOf members))
  | _ => none

/-- The child blocks of a row, whose members are searched for them. -/
def childrenOf : List (String × Json) → List Block
  | [] => []
  | (name, v) :: rest => if name = childrenMember then blocksOf v else childrenOf rest

/-- The blocks in a member `children`. -/
def blocksOf : Json → List Block
  | .arr items => blockItems items
  | _ => []

/-- The blocks among the items of a member `children`. -/
def blockItems : List Json → List Block
  | [] => []
  | v :: rest =>
    match ofJson? v with
    | some b => b :: blockItems rest
    | none => blockItems rest

end

end Block

end PatternQuery
