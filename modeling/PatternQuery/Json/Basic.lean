/-!
# JSON values

A JSON value as this library handles it. Whole numbers and floating-point numbers are kept apart,
so `1` and `1.0` are different values. Objects are lists of members; an object that was read from
text has its members in ascending order of their names and each name once (`Json.object`), while an
object that is about to be written may list them in any order.
-/

namespace PatternQuery

/-- A JSON value. -/
inductive Json where
  | null
  | bool (b : Bool)
  /-- A whole number. -/
  | int (n : Int)
  /-- A number with a fraction or an exponent, or too large for a whole number. -/
  | float (x : Float)
  | str (s : String)
  | arr (items : List Json)
  | obj (members : List (String × Json))
  deriving Inhabited

namespace Json

/-- The member of an object with a given name. A value that is no object has no members. -/
def get? (name : String) : Json → Option Json
  | obj members => members.lookup name
  | _ => none

/-- The text of a string. -/
def str? : Json → Option String
  | str s => some s
  | _ => none

/-- The items of an array. -/
def items? : Json → Option (List Json)
  | arr items => some items
  | _ => none

/-- The members of an object. -/
def members? : Json → Option (List (String × Json))
  | obj members => some members
  | _ => none

/-- Keeps, of neighbouring members with one name, the last. -/
def keepLast {α : Type} : List (String × α) → List (String × α)
  | [] => []
  | [m] => [m]
  | m :: n :: rest => if m.1 = n.1 then keepLast (n :: rest) else m :: keepLast (n :: rest)

/-- Puts members in ascending order of their names; of members with one name the last one counts. -/
def sortMembers {α : Type} (members : List (String × α)) : List (String × α) :=
  keepLast (members.mergeSort fun m n => !decide (n.1 < m.1))

/-- The object with the given members, in ascending order of their names. -/
def object (members : List (String × Json)) : Json :=
  obj (sortMembers members)

mutual

/-- The same value with the members of every object in ascending order of their names. -/
def sorted : Json → Json
  | arr items => arr (sortedItems items)
  | obj members => object (sortedMembers members)
  | v => v

/-- Sorts the members inside every item. -/
def sortedItems : List Json → List Json
  | [] => []
  | v :: rest => sorted v :: sortedItems rest

/-- Sorts the members inside every member's value. -/
def sortedMembers : List (String × Json) → List (String × Json)
  | [] => []
  | (name, v) :: rest => (name, sorted v) :: sortedMembers rest

end

/-- The string, or null. -/
def ofOption (s : Option String) : Json :=
  match s with
  | some s => str s
  | none => null

/-- The array of strings. -/
def strings (items : List String) : Json :=
  arr (items.map str)

/-- A natural number. -/
def nat (n : Nat) : Json := int n

end Json

end PatternQuery
