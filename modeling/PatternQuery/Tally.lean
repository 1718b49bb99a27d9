import PatternQuery.Pattern.Canonical
import PatternQuery.Payload.View

/-!
# Counting work

Four operations are worth counting: compiling a graph, drawing a pattern, taking a flattened result
apart, and laying out a block. An operation counts whether it succeeds or not. `Counted` computations
keep the tally beside their result; the result itself is that of the operation without counting.
-/

namespace PatternQuery

/-- How often each operation has run. -/
structure Tally where
  compiled : Nat
  drawn : Nat
  flattened : Nat
  laidOut : Nat
  deriving Repr, DecidableEq

namespace Tally

/-- Nothing has run. -/
def zero : Tally := ⟨0, 0, 0, 0⟩

/-- How often any of the operations has run. -/
def total (t : Tally) : Nat := t.compiled + t.drawn + t.flattened + t.laidOut

end Tally

/-- A computation with a tally. -/
abbrev Counted := StateM Tally

namespace Counted

/-- Counts graphs that were compiled. -/
def addCompiled (n : Nat) : Counted Unit :=
  modify fun t => { t with compiled := t.compiled + n }

/-- Counts patterns that were drawn. -/
def addDrawn (n : Nat) : Counted Unit :=
  modify fun t => { t with drawn := t.drawn + n }

/-- Counts results that were taken apart. -/
def addFlattened (n : Nat) : Counted Unit :=
  modify fun t => { t with flattened := t.flattened + n }

/-- Counts blocks that were laid out. -/
def addLaidOut (n : Nat) : Counted Unit :=
  modify fun t => { t with laidOut := t.laidOut + n }

/-- Compiles a graph. -/
def compile (g : Graph) (defaultOptional : Bool) : Counted (Except GraphError Compiled) := do
  addCompiled 1
  return g.compile defaultOptional

/-- Draws a pattern. -/
def draw (find : String → Option Schema) (layout : Layout) (p : Pattern) :
    Counted (Except PatternError Graph) := do
  addDrawn 1
  return p.draw find layout

/-- Counts what bringing a pattern into canonical form does: it is drawn, and if it is a pattern its
drawing is compiled. -/
def addCanonical (p : Pattern) : Counted Unit := do
  addDrawn 1
  match p.check with
  | .ok () => addCompiled 1
  | .error _ => return ()

/-- Brings a pattern into canonical form. -/
def canonical (p : Pattern) : Counted (Except QueryError Canonical) := do
  addCanonical p
  return p.canonical

/-- Brings a configuration into canonical form. -/
def canonicalConfig (c : Config) : Counted (Except QueryError Config) := do
  addCanonical c.pattern
  return c.canonical

/-- Takes a flattened result apart. -/
def flatRecord (members : List (String × Json)) : Counted FlatRecord := do
  addFlattened 1
  return .ofMembers members

/-- Makes a payload ready for display, with the tables of all its blocks. -/
def view (payload : Json) (flatten : Bool) (options : ShapeOptions) : Counted View := do
  let v := View.ofPayload payload flatten options
  if flatten && payload.members?.isSome then addFlattened 1
  match v with
  | .nested t => addLaidOut t.count
  | _ => pure ()
  return v

end Counted

end PatternQuery
