import PatternQuery.Error
import PatternQuery.Graph.Compile
import PatternQuery.Graph.Drawing

/-!
# Canonical patterns

Any list of hops that is a pattern has a canonical form: the one that its drawing compiles to. The
canonical form has its own keys, and the map from the old keys to the new ones is kept, so that
whatever refers to an occurrence by its key can be carried over.
-/

namespace PatternQuery

/-- A canonical pattern, and where the keys of the given one went. -/
structure Canonical where
  hops : Pattern
  /-- Old keys with their new keys, in the order of the given hops. -/
  keyMap : List (String × String)
  deriving Repr, DecidableEq

namespace Pattern

/-- The new key of every old key: the key of the occurrence that the node drawn for it became. -/
def keyMap (p : Pattern) (g : Graph) (c : Compiled) : List (String × String) :=
  (p.zip g.nodes).filterMap fun (hop, n) =>
    (c.binding? n.id).map fun o => (hop.introduces.key, o.key)

/-- **The canonical form of a pattern.** -/
def canonical (p : Pattern) : Except QueryError Canonical :=
  match p.draw (fun _ => none) .standard with
  | .error e => .error (.pattern e)
  | .ok g =>
    match g.compile false with
    | .error e => .error (.graph e)
    | .ok c => .ok ⟨c.hops, p.keyMap g c⟩

end Pattern

namespace Config

/-- A column with its occurrence renamed; an occurrence that the map does not know is kept. -/
def renameColumn (keyMap : List (String × String)) (c : Column) : Column :=
  { c with id := ⟨c.id.field, (keyMap.lookup c.id.schema).getD c.id.schema⟩ }

/-- The configuration with its pattern in canonical form and its columns renamed to match. -/
def canonical (c : Config) : Except QueryError Config := do
  let n ← c.pattern.canonical
  match ColumnSet.ofColumns (c.columns.columns.map (renameColumn n.keyMap)) with
  | .error e => throw (.column e)
  | .ok columns =>
    match make columns n.hops c.applyRBAC c.pagination with
    | .error e => throw (.config e)
    | .ok c => return c

end Config

end PatternQuery
