import PatternQuery.Command.Options

/-!
# Arguments

How a list of arguments is understood. Arguments are read from left to right. A word that names a
command leads to its level, and a word that does not is an operand. An option belongs to the level on
which it stands and may be given once there; the options of the program may be given on every level,
and the deepest one counts.

The value of an option follows it, as the next argument or behind an equals sign. A next argument
that starts with a dash is no value, unless it is the dash alone. Behind two dashes all arguments are
operands.
-/

namespace PatternQuery

/-- What has been read of the arguments. -/
structure ArgumentState where
  level : CommandLevel := .program
  /-- The options that have been given on this level. -/
  given : List String := []
  /-- Whether two dashes have been read. -/
  onlyOperands : Bool := false
  operand : Option String := none
  values : OptionValues := {}

namespace ArgumentState

/-- Whether an argument is an option: it starts with a dash and has more to it. -/
def isOption (argument : String) : Bool :=
  match argument.toList with
  | '-' :: _ :: _ => true
  | _ => false

/-- What an option says: its name, and the value behind an equals sign. An option of letters is named
by its first letter; the others, of which none has a value, no longer matter. -/
def splitOption (argument : String) : Option (String × Option String) :=
  match argument.toList with
  | '-' :: '-' :: rest =>
    let name := rest.takeWhile (· != '=')
    match rest.drop name.length with
    | _ :: value => some (String.ofList name, some (String.ofList value))
    | [] => some (String.ofList name, none)
  | '-' :: letter :: _ => (CommandLevel.longName? letter).map fun name => (name, none)
  | _ => none

/-- Takes an operand. -/
def takeOperand (s : ArgumentState) (word : String) : Except String ArgumentState :=
  match s.level with
  | .command name =>
    match name.operand?, s.operand with
    | some _, none =>
      if name.takesFile && word.isEmpty then .error "a value is required"
      else .ok { s with operand := some word }
    | _, _ => .error s!"unexpected argument '{word}' found"
  | .program | .profile => .error s!"unrecognized subcommand '{word}'"

/-- Takes a word that is no option: a command or an operand. -/
def takeWord (s : ArgumentState) (word : String) : Except String ArgumentState :=
  match if s.onlyOperands then none else s.level.commands.lookup word with
  | some level => .ok { s with level, given := [] }
  | none => s.takeOperand word

/-- Notes that an option has been given on this level. -/
def note (s : ArgumentState) (name : String) : Except String ArgumentState :=
  if s.given.contains name then
    .error s!"the argument '--{name}' cannot be used multiple times"
  else .ok { s with given := name :: s.given }

/-- Takes an option without a value. -/
def takeFlag (s : ArgumentState) (name : String) (set : OptionValues → OptionValues) :
    Except String ArgumentState := do
  let s ← s.note name
  return { s with values := set s.values }

/-- Takes an option with its value. -/
def takeValue (s : ArgumentState) (name : String)
    (set : String → OptionValues → Option OptionValues) (value : String) :
    Except String ArgumentState := do
  let s ← s.note name
  match set value s.values with
  | some values => return { s with values }
  | none => throw s!"invalid value '{value}' for '--{name}'"

/-- The request when all arguments have been read. -/
def finish (s : ArgumentState) : Request :=
  match s.level with
  | .program | .profile => .misuse "a subcommand is required"
  | .command name =>
    match name.operand?, s.operand with
    | some operand, none => .misuse s!"the argument <{operand}> is required"
    | _, operand => .run ⟨s.values.common, name.action (operand.getD "") s.values⟩

/-- Reads the arguments that are left. -/
def read (s : ArgumentState) : List String → Request
  | [] => s.finish
  | argument :: rest =>
    if s.onlyOperands || !isOption argument then
      match s.takeWord argument with
      | .ok s => s.read rest
      | .error reason => .misuse reason
    else if argument == "--" then { s with onlyOperands := true }.read rest
    else
      match splitOption argument with
      | none => .misuse s!"unexpected argument '{argument}' found"
      | some (name, attached) =>
        match s.level.rules.lookup name, attached with
        | none, _ => .misuse s!"unexpected argument '--{name}' found"
        | some .help, none => .help
        | some .version, none => .version
        | some (.flag set), none =>
          match s.takeFlag name set with
          | .ok s => s.read rest
          | .error reason => .misuse reason
        | some (.value set), some value =>
          match s.takeValue name set value with
          | .ok s => s.read rest
          | .error reason => .misuse reason
        | some (.value set), none =>
          match rest with
          | [] => .misuse s!"a value is required for '--{name}'"
          | value :: rest =>
            if isOption value then .misuse s!"a value is required for '--{name}'"
            else
              match s.takeValue name set value with
              | .ok s => s.read rest
              | .error reason => .misuse reason
        | some _, some value => .misuse s!"unexpected value '{value}' for '--{name}' found"

end ArgumentState

/-- **Understands a list of arguments.** -/
def Request.ofArguments (arguments : List String) : Request :=
  ({} : ArgumentState).read arguments

end PatternQuery
