import PatternQuery.Config.Basic

/-!
# Profiles

A profile is a named set of defaults for the command line. Its settings are kept as they were stored,
and a setting may be unset. Before they are used they are checked: a page limit must not be zero, and
a strategy must be one that is known, in any mixture of upper and lower case.
-/

namespace PatternQuery

/-- The settings of a profile as they are stored. -/
structure ProfileSettings where
  defaultOptional : Option Bool
  applyRBAC : Option Bool
  pageLimit : Option Nat
  /-- The name of a strategy, not yet checked. -/
  strategy : Option String
  includeHidden : Option Bool
  deriving Repr, DecidableEq

/-- A profile whose settings are in order. -/
structure Profile where
  defaultOptional : Option Bool
  applyRBAC : Option Bool
  pageLimit : Option Nat
  strategy : Option PageStrategy
  includeHidden : Option Bool
  deriving Repr, DecidableEq

/-- The settings to be changed on a profile; an unset one stays what it is. A change has the shape of
a checked profile, but nothing has looked at its page limit. -/
abbrev ProfileChange := Profile

/-- Why the profiles are not in order, or cannot be changed in some way. -/
inductive ProfileError where
  | notFound (name : String)
  | unknownStrategy (profile strategy : String)
  | zeroPageLimit (profile : String)
  deriving Repr, DecidableEq

/-- The text of the error. -/
def ProfileError.message : ProfileError → String
  | notFound name => s!"profile '{name}' not found"
  | unknownStrategy profile strategy =>
    s!"profile '{profile}' has unknown pagination_strategy '{strategy}'"
  | zeroPageLimit profile => s!"profile '{profile}' page_limit must be greater than zero"

/-- The profile without settings. -/
def Profile.blank : Profile := ⟨none, none, none, none, none⟩

namespace ProfileSettings

/-- No settings. -/
def blank : ProfileSettings := ⟨none, none, none, none, none⟩

/-- The strategy with a name, in which only the case of ASCII letters may differ. -/
def strategyOfText? (text : String) : Option PageStrategy :=
  PageStrategy.ofName? (text.map Char.toLower)

/-- **Checks the settings** of the profile with a name: first the page limit, then the strategy. -/
def check (s : ProfileSettings) (name : String) : Except ProfileError Profile :=
  if s.pageLimit = some 0 then .error (.zeroPageLimit name)
  else
    match s.strategy with
    | none => .ok ⟨s.defaultOptional, s.applyRBAC, s.pageLimit, none, s.includeHidden⟩
    | some text =>
      match strategyOfText? text with
      | some strategy =>
        .ok ⟨s.defaultOptional, s.applyRBAC, s.pageLimit, some strategy, s.includeHidden⟩
      | none => .error (.unknownStrategy name text)

/-- The settings after a change. -/
def change (s : ProfileSettings) (c : ProfileChange) : ProfileSettings :=
  { defaultOptional := c.defaultOptional <|> s.defaultOptional
    applyRBAC := c.applyRBAC <|> s.applyRBAC
    pageLimit := c.pageLimit <|> s.pageLimit
    strategy := c.strategy.map PageStrategy.name <|> s.strategy
    includeHidden := c.includeHidden <|> s.includeHidden }

end ProfileSettings

end PatternQuery
