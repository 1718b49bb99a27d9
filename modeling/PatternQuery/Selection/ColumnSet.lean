import PatternQuery.Selection.Column

/-!
# Sets of columns

A set of columns is a list of columns with their places. An edit renumbers the places so that they
have no gaps: the columns stand in the order of display, with the places `1, 2, …`, and those by
which rows are grouped have the places `0, 1, …`, in an order of their own. A list of columns that
comes with its places is taken in by `ColumnSet.ofColumns`, which insists on places without gaps.

A request is understood as a whole before any of it is done: its selectors are looked up first, and
only then are columns touched.
-/

namespace PatternQuery

/-- Selected columns. -/
structure ColumnSet where
  /-- The columns in the order of display. -/
  columns : List Column
  deriving Repr, DecidableEq

namespace ColumnSet

/-- The set without columns. -/
def empty : ColumnSet := ⟨[]⟩

/-- The number of columns. -/
def size (s : ColumnSet) : Nat := s.columns.length

/-- Whether a column is selected. -/
def contains (s : ColumnSet) (id : ColumnId) : Bool := s.columns.any (·.id == id)

/-- Puts columns in the order of display. -/
def inSelectOrder (columns : List Column) : List Column :=
  columns.mergeSort fun a b => a.selectOrder ≤ b.selectOrder

/-- The columns by which rows are grouped, in the order of grouping. -/
def grouped (s : ColumnSet) : List Column :=
  (s.columns.filter (·.groupOrder.isSome)).mergeSort fun a b =>
    a.groupOrder.getD 0 ≤ b.groupOrder.getD 0

/-! ### Places -/

/-- The place at a position, where the first place is `start`. -/
def orderFrom (start : UInt32) (position : Nat) : UInt32 := start + position.toUInt32

/-- Whether places, in ascending order, have no gaps from `start` on. -/
def isDenseFrom (start : UInt32) (orders : List UInt32) : Bool :=
  orders.zipIdx.all fun (order, position) => order == orderFrom start position

/-- The first column of a list whose id an earlier column has. -/
def firstRepeated? (seen : List ColumnId) : List Column → Option ColumnId
  | [] => none
  | c :: rest => if seen.contains c.id then some c.id else firstRepeated? (c.id :: seen) rest

/-- **Checks a set:** no column may be there twice, the places of display must be `1, …, n`, and the
places of grouping, where there are any, `0, …, m - 1`. -/
def checkInvariants (s : ColumnSet) : Except ColumnError Unit :=
  match firstRepeated? [] s.columns with
  | some id => .error (.duplicateColumn id)
  | none =>
    let select := (s.columns.map (·.selectOrder)).mergeSort (· ≤ ·)
    let group := (s.columns.filterMap (·.groupOrder)).mergeSort (· ≤ ·)
    if !isDenseFrom 1 select then .error (.selectOrderNotDense s.size)
    else if !isDenseFrom 0 group then .error (.groupOrderNotDense group.length)
    else .ok ()

/-- Takes in columns that carry their places, in any order. -/
def ofColumns (columns : List Column) : Except ColumnError ColumnSet := do
  let s : ColumnSet := ⟨inSelectOrder columns⟩
  s.checkInvariants
  return s

/-- Gives columns their places by `write`, one after another from `start` on; the columns are named
by their positions in the list. -/
def renumber (write : UInt32 → Column → Column) (start : UInt32) (indices : List Nat)
    (columns : List Column) : List Column :=
  indices.zipIdx.foldl (fun columns (index, position) =>
    columns.modify index (write (orderFrom start position))) columns

/-- The places of grouping, each with the position of its column. -/
def groupPlaces (columns : List Column) : List (UInt32 × Nat) :=
  columns.zipIdx.filterMap fun (c, index) => c.groupOrder.map (·, index)

/-- The positions of the columns by which rows are grouped, in the order of grouping. -/
def groupIndices (columns : List Column) : List Nat :=
  ((groupPlaces columns).mergeSort fun a b => a.1 < b.1 ∨ a.1 = b.1 ∧ a.2 ≤ b.2).map (·.2)

/-- Puts columns in the order of display and closes the gaps in it. -/
def densifySelect (columns : List Column) : List Column :=
  (inSelectOrder columns).mapIdx fun position c => { c with selectOrder := orderFrom 1 position }

/-- Closes the gaps in both orders. -/
def densify (s : ColumnSet) : ColumnSet :=
  let columns := densifySelect s.columns
  ⟨renumber (fun order c => { c with groupOrder := some order }) 0 (groupIndices columns) columns⟩

/-- The greatest place of display, or zero. -/
def lastOrder (s : ColumnSet) : UInt32 :=
  (s.columns.map (·.selectOrder)).foldl max 0

/-! ### Selectors -/

/-- The position of the column that a selector names. -/
def resolve (s : ColumnSet) : Selector → Except ColumnError (Fin s.columns.length)
  | .qualified id =>
    match s.columns.findFinIdx? (·.id == id) with
    | some index => .ok index
    | none => .error (.unknownColumn (.qualified id))
  | .field f =>
    match (List.finRange s.columns.length).filter fun i => (s.columns.get i).id.field == f with
    | [] => .error (.unknownColumn (.field f))
    | [index] => .ok index
    | indices => .error (.ambiguousColumn f indices.length)

/-- The positions of the columns that selectors name, none of them twice; `seen` holds those named
before. -/
def resolveAll (s : ColumnSet) (seen : List (Fin s.columns.length)) :
    List Selector → Except ColumnError (List (Fin s.columns.length))
  | [] => .ok []
  | selector :: rest => do
    let index ← s.resolve selector
    if seen.contains index then .error (.duplicateSelector selector)
    else return index :: (← s.resolveAll (index :: seen) rest)

/-- The column a selector names. -/
def get (s : ColumnSet) (selector : Selector) : Except ColumnError Column := do
  let index ← s.resolve selector
  return s.columns.get index

/-! ### Edits -/

/-- An edit of a set of columns. It leaves a set behind whether it gives a result or fails. -/
abbrev EditM := EStateM ColumnError ColumnSet

/-- Selects a column, last in the order of display, and gives its place. -/
def add (id : ColumnId) : EditM UInt32 := do
  let s ← getThe ColumnSet
  if s.contains id then throw (.duplicateColumn id)
  let order := s.lastOrder + 1
  set (ColumnSet.mk (s.columns ++ [⟨id, order, none⟩]))
  return order

/-- Drops a column from both orders, and gives the column. -/
def remove (selector : Selector) : EditM Column := do
  let s ← getThe ColumnSet
  let index ← MonadExcept.ofExcept (s.resolve selector)
  set (ColumnSet.mk (s.columns.eraseIdx index)).densify
  return s.columns.get index

/-- Gives the columns a new order of display. The request must name every column once. -/
def reorder (selectors : List Selector) : EditM Unit := do
  let s ← getThe ColumnSet
  let order ← MonadExcept.ofExcept (s.resolveAll [] selectors)
  if order.length ≠ s.size then throw (.notAPermutation s.size order.length)
  set (ColumnSet.mk (inSelectOrder
    (renumber (fun order c => { c with selectOrder := order }) 1 (order.map (·.val)) s.columns)))

/-- Groups by no column. -/
def clearGroup : EditM Unit :=
  modify fun s => ⟨s.columns.map fun c => { c with groupOrder := none }⟩

/-- Groups by the columns that are named, in their order, and by no others. -/
def group (selectors : List Selector) : EditM Unit := do
  let s ← getThe ColumnSet
  let order ← MonadExcept.ofExcept (s.resolveAll [] selectors)
  clearGroup
  modify fun s =>
    ⟨renumber (fun order c => { c with groupOrder := some order }) 0 (order.map (·.val)) s.columns⟩

/-! ### Reading and writing -/

/-- Reads a set of columns from a list of columns with their places. -/
def ofJson (v : Json) : Except DecodeError ColumnSet := do
  match ofColumns (← v.toListOf Column.ofJson) with
  | .ok s => return s
  | .error e => throw (.refused e.message)

/-- Writes a set of columns. -/
def toJson (s : ColumnSet) : Json :=
  .arr (s.columns.map Column.toJson)

end ColumnSet

end PatternQuery
