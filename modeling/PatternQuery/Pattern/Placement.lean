import PatternQuery.Pattern.Basic
import PatternQuery.Text.Blank

/-!
# A pattern as a tree

`Pattern.place` reads a list of hops as a rooted tree in the order of introduction: every hop is
given the position of the hop that introduced its source, and its depth. The reading succeeds
exactly on the lists that are patterns, so `Pattern.check` is `place` with its result thrown away.

The root hops are counted first. Then the hops are taken in order, and each has to pass its tests
one after another: a relation that is not blank, a source that an earlier hop introduced, under the
schema it was introduced with, and a fresh key for what it introduces.
-/

namespace PatternQuery

/-- The edge that leads to a placed occurrence. -/
structure Incoming where
  /-- The position of the hop that introduced the source. -/
  source : Nat
  relation : String
  optional : Bool
  deriving Repr, DecidableEq

/-- A hop with its place in the tree. -/
structure Placement where
  /-- The occurrence that the hop introduces. -/
  occurrence : Occurrence
  /-- The edge that leads to it; none at the root. -/
  incoming : Option Incoming
  /-- The number of edges from the root. -/
  depth : Nat
  deriving Repr, DecidableEq

namespace Pattern

/-- The placement that introduced a key, with its position. -/
def introducer? (placed : List Placement) (key : String) : Option (Placement × Nat) :=
  placed.zipIdx.find? (·.1.occurrence.key == key)

/-- Places an edge hop behind the hops in `placed`, apart from the test that its key is fresh. -/
def placeEdge (placed : List Placement) (source : Occurrence) (relation : String)
    (target : Occurrence) (optional : Bool) : Except PatternError Placement :=
  if Text.isBlank relation then .error (.blankRelation placed.length)
  else
    match introducer? placed source.key with
    | none => .error (.unknownSource placed.length source.key)
    | some (found, position) =>
      if found.occurrence.schema = source.schema then
        .ok ⟨target, some ⟨position, relation, optional⟩, found.depth + 1⟩
      else
        .error (.schemaMismatch placed.length source.key found.occurrence.schema source.schema)

/-- Places a hop behind the hops in `placed`. -/
def placeHop (placed : List Placement) (hop : Hop) : Except PatternError Placement := do
  let p ←
    match hop with
    | .root o => .ok ⟨o, none, 0⟩
    | .edge source relation target optional => placeEdge placed source relation target optional
  match introducer? placed p.occurrence.key with
  | some _ => .error (.duplicateOccurrence placed.length p.occurrence.key)
  | none => .ok p

/-- Places hops one after another. -/
def placeAll (placed : List Placement) : List Hop → Except PatternError (List Placement)
  | [] => .ok placed
  | hop :: rest => do placeAll (placed ++ [← placeHop placed hop]) rest

/-- Insists on exactly one root hop. -/
def checkRoots (p : Pattern) : Except PatternError Unit :=
  match p.countP Hop.isRoot with
  | 0 => .error .missingRoot
  | 1 => .ok ()
  | count => .error (.multipleRoots count)

/-- **The tree of a pattern,** with one placement for every hop, in order. -/
def place (p : Pattern) : Except PatternError (List Placement) := do
  checkRoots p
  placeAll [] p

/-- Whether a list of hops is a pattern, and if not, why. -/
def check (p : Pattern) : Except PatternError Unit := do
  let _ ← place p

end Pattern

end PatternQuery
