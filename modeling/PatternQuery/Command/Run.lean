import PatternQuery.Command.Arguments
import PatternQuery.Command.Report
import PatternQuery.Command.Sources
import PatternQuery.Schema.Catalog

/-!
# Running the command line

An invocation is run as a function of what it reads: the standard input and the files it names. Its
outcome says what is written to the two output streams and to the profile file, and with which
status the program ends. The status is 0 when all is well, 1 when an action fails, and 2 for
arguments that make no sense and for a configuration that was checked and is not valid.

The profile file is opened first, so an action fails when that file is not in order, even if it has
no use for profiles.
-/

namespace PatternQuery

/-- What running a command leads to. -/
structure Outcome where
  /-- The status with which the program ends. -/
  exit : Nat
  stdout : String
  stderr : String
  /-- The path of the profile file and its new text, if it is written. -/
  saved : Option (String × String)
  deriving Repr, DecidableEq

namespace Outcome

/-- The outcome of an action that has failed. -/
def ofError (e : CommandError) : Outcome :=
  ⟨1, "", "error: " ++ e.message ++ "\n", none⟩

/-- The outcome of a report. Warnings go with the page only. -/
def ofReport (options : CommonOptions) (exit : Nat) (r : Report) : Outcome :=
  match options.format with
  | .json => ⟨exit, r.json.pretty ++ "\n", "", none⟩
  | .text =>
    ⟨exit, Page.text options.quiet r.page,
      (r.warning.map fun w => Page.warning options.quiet w ++ "\n").getD "", none⟩

end Outcome

namespace Action

/-- The configuration of a compiled pattern under a profile. -/
def configOf (p : Profile) (hops : Pattern) : Except ConfigError Config := do
  let c ← Config.ofPattern hops
  let standard := Pagination.standard
  (c.withApplyRBAC (p.applyRBAC.getD false)).withPagination
    ⟨p.pageLimit.getD standard.limit, standard.offset, p.strategy.getD standard.strategy⟩

/-- Compiles a graph. -/
def compileReport (s : Sources) (p : Profile) (input : String) (defaultOptional emitConfig : Bool) :
    Except CommandError Report := do
  let g ← (Graph.ofJson (← s.json input)).mapError CommandError.decode
  let c ← (g.compile (defaultOptional || p.defaultOptional.getD false)).mapError
    fun e => CommandError.query (.graph e)
  if emitConfig then
    let config ← (configOf p c.hops).mapError fun e => CommandError.query (.config e)
    return .ofConfig config
  else return .ofCompiled c

/-- Reads a pattern: a list of hops, or the pattern of a whole configuration. -/
def readPattern (v : Json) : Except CommandError Pattern :=
  match v with
  | .obj _ => ((Config.load v).map (·.pattern)).mapError .query
  | _ => (Pattern.ofJson v).mapError .decode

/-- Draws a pattern. -/
def expandReport (s : Sources) (input : String) (catalog : Option String)
    (columnSpacing rowSpacing : Option Float) : Except CommandError Report := do
  let hops ← readPattern (← s.json input)
  let catalog ←
    match catalog with
    | some path => ((s.drained input).schemas path).map Catalog.ofList
    | none => .ok Catalog.empty
  let standard := Layout.standard
  let layout : Layout := ⟨columnSpacing.getD standard.columnSpacing,
    rowSpacing.getD standard.rowSpacing, standard.origin⟩
  let g ← (hops.draw catalog.find? layout).mapError .pattern
  return .ofGraph g

/-- Brings a pattern or a configuration into canonical form. -/
def normalizeReport (s : Sources) (input : String) : Except CommandError Report := do
  let v ← s.json input
  match v with
  | .obj _ =>
    let c ← (do (← Config.load v).canonical : Except QueryError Config).mapError .query
    return .ofConfig c
  | _ =>
    let hops ← (Pattern.ofJson v).mapError CommandError.decode
    let c ← hops.canonical.mapError .query
    return .ofCanonical c

/-- Lays out a payload. -/
def shapeReport (s : Sources) (p : Profile) (input : String) (flatten includeHidden : Bool)
    (schemas : Option String) : Except CommandError Report := do
  let payload ← s.json input
  let options : ShapeOptions := ⟨includeHidden || p.includeHidden.getD false, .standard⟩
  match schemas, flatten, payload with
  | some path, true, .obj members =>
    let schemas ← (s.drained input).schemas path
    return .ofView (.ofFlat members (fun _ => schemas) options)
  | _, _, _ => return .ofView (.ofPayload payload flatten options)

end Action

namespace ProfileAction

/-- The edit that an action makes, and what is said once it is done. -/
def edit (path : String) : ProfileAction → ProfileEdit Unit × String
  | list => (pure (), "")
  | set name change => (ProfileBook.put name change, s!"saved profile '{name}' to {path}")
  | use name =>
    (ProfileBook.setDefault (some name), s!"default profile is now '{name}' ({path})")
  | unset => (ProfileBook.setDefault none, "default profile cleared")
  | delete name => (ProfileBook.delete name, s!"deleted profile '{name}'")

/-- Runs an action on the profiles of a file. The file is written when its profiles have been
edited. -/
def outcome (options : CommonOptions) (format : ProfileFormat) (path : Option String) (b : ProfileBook)
    (a : ProfileAction) : Except CommandError Outcome :=
  match a with
  | list => .ok (.ofReport options 0 (.ofProfiles path b))
  | a =>
    let (edit, message) := a.edit (path.getD "")
    match edit.run.run b with
    | (.error e, _) => .error (.profile e)
    | (.ok (), b) =>
      match path with
      | none => .error .noProfileFile
      | some path =>
        .ok ⟨0, Page.text options.quiet [.notice message], "", some (path, format.write b.stored)⟩

end ProfileAction

namespace Invocation

/-- Runs an invocation, up to the writing of its error. -/
def attempt (s : Sources) (format : ProfileFormat) (i : Invocation) : Except CommandError Outcome := do
  let path := i.options.config <|> s.profilePath
  let b ← s.profiles format path
  let active : Except CommandError Profile :=
    ((b.active i.options.profile).map (·.getD .blank)).mapError .profile
  let done (r : Report) : Outcome := .ofReport i.options 0 r
  match i.action with
  | .compile input defaultOptional emitConfig =>
    return done (← Action.compileReport s (← active) input defaultOptional emitConfig)
  | .expand input catalog columnSpacing rowSpacing =>
    return done (← Action.expandReport s input catalog columnSpacing rowSpacing)
  | .normalize input => return done (← Action.normalizeReport s input)
  | .validate input =>
    let loaded := Config.load (← s.json input)
    return .ofReport i.options (if loaded.isOk then 0 else 2) (.ofValidation loaded)
  | .shape input flatten includeHidden schemas =>
    return done (← Action.shapeReport s (← active) input flatten includeHidden schemas)
  | .profile action => action.outcome i.options format path b

/-- The inputs that an action names. -/
def inputs (i : Invocation) : List String :=
  match i.action with
  | .compile input _ _ | .normalize input | .validate input => [input]
  | .expand input catalog _ _ => input :: catalog.toList
  | .shape input _ _ schemas => input :: schemas.toList
  | .profile _ => []

/-- Whether the standard input may be read. -/
def readsStdin (i : Invocation) : Bool :=
  i.inputs.contains Sources.stdinName

/-- The files that may be read, where `profilePath` is the profile file when none is named. -/
def files (i : Invocation) (profilePath : Option String) : List String :=
  (i.options.config <|> profilePath).toList ++ i.inputs.filter (· != Sources.stdinName)

end Invocation

/-- The name and the version of the program. -/
def versionText : String := "quarry 0.1.0\n"

/-- What the program can do. -/
def helpText : String :=
  "Compile, inspect and shape dynamic query definitions\n\n" ++
  "Usage: quarry [OPTIONS] <COMMAND>\n\n" ++
  "Commands:\n" ++
  "  compile    Compile an editor graph into canonical pattern hops\n" ++
  "  expand     Expand pattern hops into an editor graph\n" ++
  "  normalize  Canonicalize a hop list or query config\n" ++
  "  validate   Validate a persisted query config\n" ++
  "  shape      Shape a backend payload into display rows\n" ++
  "  profile    Manage CLI profiles\n\n" ++
  "Options:\n" ++
  "      --config <FILE>    CLI config file (defaults to the user config dir)\n" ++
  "      --profile <NAME>   Profile to apply\n" ++
  "      --format <FORMAT>  Output format for structured responses: text, json\n" ++
  "      --theme <THEME>    Color theme for text output: auto, light, dark, plain\n" ++
  "      --quiet            Plain, undecorated text output\n" ++
  "  -h, --help             Print help\n" ++
  "  -V, --version          Print version\n"

/-- **Runs what a list of arguments asks for,** on a profile file in a format. -/
def Request.outcome (s : Sources) (r : Request) (format : ProfileFormat := .toml) : Outcome :=
  match r with
  | .run i =>
    match i.attempt s format with
    | .ok outcome => outcome
    | .error e => .ofError e
  | .help => ⟨0, helpText, "", none⟩
  | .version => ⟨0, versionText, "", none⟩
  | .misuse reason =>
    ⟨2, "", "error: " ++ reason ++ "\n\nFor more information, try '--help'.\n", none⟩

end PatternQuery
