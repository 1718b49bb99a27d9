import PatternQuery.Schema.Basic
import PatternQuery.Text.Segment

/-!
# Matching a requested schema id

Results name the schema of a block loosely: `lineitem` for `line-item`, or an id with something put
in front of it. A matcher is a list of rules that are tried one after another. The first rule that
fits any schema of the list decides, and of the schemas it fits the first one is taken. Three rules
are given here; a caller can bring its own.
-/

namespace PatternQuery

/-- A way in which a schema may answer to a requested id. -/
structure MatchRule where
  /-- The name under which a match is reported. -/
  name : String
  /-- Whether a schema answers to a requested id. -/
  fits : String → Schema → Bool

namespace MatchRule

/-- The ids are equal. -/
def exact : MatchRule := ⟨"exact", fun requested s => s.id == requested⟩

/-- An id without its hyphens. -/
def withoutHyphens (id : String) : List Char :=
  id.toList.filter (· != '-')

/-- The ids are equal once their hyphens are dropped. Letter case still matters. -/
def hyphenInsensitive : MatchRule :=
  ⟨"hyphen-insensitive", fun requested s => withoutHyphens requested == withoutHyphens s.id⟩

/-- One id contains the other. An empty id contains nothing and is contained in nothing. -/
def containment : MatchRule :=
  ⟨"containment", fun requested s =>
    !requested.isEmpty && !s.id.isEmpty &&
      (Text.contains requested.toList s.id.toList || Text.contains s.id.toList requested.toList)⟩

/-- The rule with a name, of those that are given. -/
def ofName? (s : String) : Option MatchRule :=
  [exact, hyphenInsensitive, containment].find? (·.name == s)

end MatchRule

/-- The rules that are tried, first to last. -/
abbrev Matcher := List MatchRule

/-- A schema that was found, and the rule that found it. -/
structure SchemaMatch where
  index : Nat
  rule : MatchRule

namespace Matcher

/-- Equal ids, then ids equal up to hyphens, then ids of which one contains the other. -/
def standard : Matcher := [.exact, .hyphenInsensitive, .containment]

/-- The first schema that the first fitting rule fits. -/
def resolve (rules : Matcher) (requested : String) (schemas : List Schema) : Option SchemaMatch :=
  rules.findSome? fun rule =>
    (schemas.findIdx? (rule.fits requested)).map fun index => ⟨index, rule⟩

end Matcher

end PatternQuery
