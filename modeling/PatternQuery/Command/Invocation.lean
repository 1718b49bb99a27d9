import PatternQuery.Profile.Basic

/-!
# Invocations

What the command line is asked to do: an action, and the options that every action has.
-/

namespace PatternQuery

/-- The form in which results are shown. -/
inductive OutputFormat where
  | text
  | json
  deriving Repr, DecidableEq

/-- The colours of text. A page of text has no colours, so the choice is read and has no effect. -/
inductive Theme where
  | auto
  | light
  | dark
  | plain
  deriving Repr, DecidableEq

/-- The options that every action has. -/
structure CommonOptions where
  /-- The profile file. -/
  config : Option String
  /-- The profile that is asked for. -/
  profile : Option String
  format : OutputFormat
  theme : Theme
  /-- Whether pages are written quietly. -/
  quiet : Bool
  deriving Repr, DecidableEq

/-- What is done with the profiles. -/
inductive ProfileAction where
  | list
  | set (name : String) (change : ProfileChange)
  | use (name : String)
  | unset
  | delete (name : String)
  deriving Repr, DecidableEq

/-- What is done. `input` names the file that is read, and a dash stands for the standard input. -/
inductive Action where
  /-- Compiles a graph; `emitConfig` wraps the hops in a whole configuration. -/
  | compile (input : String) (defaultOptional emitConfig : Bool)
  /-- Draws a pattern, with the labels of a catalog. -/
  | expand (input : String) (catalog : Option String) (columnSpacing rowSpacing : Option Float)
  /-- Brings a pattern or a configuration into canonical form. -/
  | normalize (input : String)
  /-- Checks a stored configuration. -/
  | validate (input : String)
  /-- Lays out a payload; `schemas` takes the place of the schemas in a flattened payload. -/
  | shape (input : String) (flatten includeHidden : Bool) (schemas : Option String)
  | profile (action : ProfileAction)

/-- An action with its options. -/
structure Invocation where
  options : CommonOptions
  action : Action

/-- What a list of arguments asks for. -/
inductive Request where
  | run (invocation : Invocation)
  /-- The help text. -/
  | help
  /-- The name and version of the program. -/
  | version
  /-- The arguments make no sense. -/
  | misuse (reason : String)

end PatternQuery
