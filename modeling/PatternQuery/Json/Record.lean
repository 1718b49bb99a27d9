import PatternQuery.Json.Basic

/-!
# Reading records out of JSON values

A record is read from an object or from an array. In an object its members stand under their names,
unknown members are passed over, and the members that are there are read in the order in which the
object lists them. In an array they stand in the order in which the record declares them, and the
array may not be longer than the declaration. Either way the first member that cannot be read ends
the reading, and only then are missing members noticed.
-/

namespace PatternQuery

/-- Why a value could not be read. -/
inductive DecodeError where
  /-- The value has the wrong form: a member is missing or of the wrong type or out of range. -/
  | malformed
  /-- The value has the right form but breaks a rule of the type it is read as. -/
  | refused (reason : String)
  deriving Repr, DecidableEq

/-- The text of the failure. -/
def DecodeError.message : DecodeError → String
  | malformed => "the value does not have the expected form"
  | refused reason => reason

namespace Json

/-- Reads a string. -/
def toStr : Json → Except DecodeError String
  | str s => .ok s
  | _ => .error .malformed

/-- Reads a truth value. -/
def toBool : Json → Except DecodeError Bool
  | bool b => .ok b
  | _ => .error .malformed

/-- Reads a natural number below a limit. -/
def toNatBelow (limit : Nat) : Json → Except DecodeError Nat
  | int n => if 0 ≤ n ∧ n < limit then .ok n.toNat else .error .malformed
  | _ => .error .malformed

/-- Reads a floating-point number; a whole number is rounded to one. -/
def toFloat : Json → Except DecodeError Float
  | float x => .ok x
  | int n => .ok (Float.ofInt n)
  | _ => .error .malformed

/-- Reads an array whose items are all of one kind. -/
def toListOf {α : Type} (item : Json → Except DecodeError α) : Json → Except DecodeError (List α)
  | arr items => items.mapM item
  | _ => .error .malformed

/-- Reads a value that may be null. -/
def toOptionOf {α : Type} (value : Json → Except DecodeError α) : Json → Except DecodeError (Option α)
  | null => .ok none
  | v => (value v).map some

/-- Reads a record. `declared` names its members in order, `start` is the record before anything is
read, and `step` reads one member into it; `step` passes over names it does not know. -/
def toRecord {σ : Type} (declared : List String) (start : σ)
    (step : σ → String → Json → Except DecodeError σ) : Json → Except DecodeError σ
  | obj members => members.foldlM (fun r (name, v) => step r name v) start
  | arr items => do
    let r ← (declared.zip items).foldlM (fun r (name, v) => step r name v) start
    if declared.length < items.length then .error .malformed else .ok r
  | _ => .error .malformed

/-- Insists on a member that a record must have. -/
def required {α : Type} : Option α → Except DecodeError α
  | some a => .ok a
  | none => .error .malformed

end Json

end PatternQuery
