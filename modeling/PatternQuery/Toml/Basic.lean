/-!
# TOML values

A TOML document as it is read: a table of values, some of which are tables again. Floating-point
numbers and dates are kept as they are written, because nothing here computes with them.
-/

namespace PatternQuery

/-- A TOML value. -/
inductive Toml where
  | str (s : String)
  | int (n : Int)
  | float (text : String)
  | bool (b : Bool)
  /-- A date, a time of day, or both. -/
  | moment (text : String)
  | arr (items : List Toml)
  | table (entries : List (String × Toml))
  deriving Inhabited

namespace Toml

/-- The text of a string. -/
def str? : Toml → Option String
  | str s => some s
  | _ => none

/-- A truth value. -/
def bool? : Toml → Option Bool
  | bool b => some b
  | _ => none

/-- A natural number below a limit. -/
def natBelow? (limit : Nat) : Toml → Option Nat
  | int n => if 0 ≤ n ∧ n < limit then some n.toNat else none
  | _ => none

/-- The entries of a table. -/
def entries? : Toml → Option (List (String × Toml))
  | table entries => some entries
  | _ => none

/-- A control character, which has no place in a document outside an escape. The tab is none. -/
def isControl (c : Char) : Bool :=
  (c.toNat < 0x20 && c != '\t') || c.toNat == 0x7F

/-- A character of a key without quotes. -/
def isBareKeyChar (c : Char) : Bool :=
  c.isAlphanum || c == '_' || c == '-'

end Toml

end PatternQuery
