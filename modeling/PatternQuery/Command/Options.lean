import PatternQuery.Command.Invocation
import PatternQuery.Decimal.Numeral

/-!
# Commands and their options

Arguments are read on a level: that of the program itself, that of the command `profile`, or that of
a command that does something. Every level has its options, and words that lead to other levels. An
option is described by what it does with the values of all options.
-/

namespace PatternQuery

/-- The commands that do something. -/
inductive CommandName where
  | compile
  | expand
  | normalize
  | validate
  | shape
  | profileList
  | profileSet
  | profileUse
  | profileUnset
  | profileDelete
  deriving Repr, DecidableEq

/-- Where an argument stands. -/
inductive CommandLevel where
  | program
  | profile
  | command (name : CommandName)
  deriving Repr, DecidableEq

/-- The values of all options, those of every command together. -/
structure OptionValues where
  common : CommonOptions := ⟨none, none, .text, .auto, false⟩
  defaultOptional : Bool := false
  emitConfig : Bool := false
  catalog : Option String := none
  columnSpacing : Option Float := none
  rowSpacing : Option Float := none
  flatten : Bool := false
  includeHidden : Bool := false
  schemas : Option String := none
  change : ProfileChange := .blank

/-- What an option does with the values. -/
inductive OptionRule where
  /-- An option without a value. -/
  | flag (set : OptionValues → OptionValues)
  /-- An option with a value; `none` when the value makes no sense. -/
  | value (set : String → OptionValues → Option OptionValues)
  /-- The option that asks for help. -/
  | help
  /-- The option that asks for the version. -/
  | version

namespace OptionRule

/-- An option whose value is read by `read`. -/
def ofReader {α : Type} (read : String → Option α) (set : α → OptionValues → OptionValues) :
    OptionRule :=
  value fun text v => (read text).map fun a => set a v

/-- Reads the path of a file, which is not empty. -/
def path? (text : String) : Option String := if text.isEmpty then none else some text

/-- Reads a truth value. -/
def bool? (text : String) : Option Bool :=
  if text == "true" then some true else if text == "false" then some false else none

/-- Reads a whole number of at most 64 bits: decimal digits, perhaps with a sign. -/
def int? (text : String) : Option Int :=
  let (negative, digits) := Decimal.splitSign text.toList
  if !digits.isEmpty && digits.all Char.isDigit then
    let n : Int := Text.natOfDigits digits
    let n := if negative then -n else n
    if -0x8000000000000000 ≤ n ∧ n < 0x8000000000000000 then some n else none
  else none

/-- Reads a page limit. -/
def pageLimit? (text : String) : Option Nat := do
  let n ← int? text
  if 0 ≤ n ∧ n < 0x100000000 then some n.toNat else none

/-- Reads a format. -/
def format? (text : String) : Option OutputFormat :=
  [("text", OutputFormat.text), ("json", .json)].lookup text

/-- Reads a theme. -/
def theme? (text : String) : Option Theme :=
  [("auto", Theme.auto), ("light", .light), ("dark", .dark), ("plain", .plain)].lookup text

end OptionRule

open OptionRule in
/-- The options of the program. -/
def commonRules : List (String × OptionRule) :=
  [("config", ofReader path? fun a v => { v with common := { v.common with config := some a } }),
   ("profile", ofReader some fun a v => { v with common := { v.common with profile := some a } }),
   ("format", ofReader format? fun a v => { v with common := { v.common with format := a } }),
   ("theme", ofReader theme? fun a v => { v with common := { v.common with theme := a } }),
   ("quiet", flag fun v => { v with common := { v.common with quiet := true } }),
   ("help", help)]

namespace CommandName

/-- The name of the operand, for commands that have one. Only the name of a profile may be empty. -/
def operand? : CommandName → Option String
  | compile => some "GRAPH"
  | expand => some "INPUT"
  | normalize => some "INPUT"
  | validate => some "CONFIG"
  | shape => some "PAYLOAD"
  | profileSet | profileUse | profileDelete => some "NAME"
  | profileList | profileUnset => none

/-- Whether the operand is a file. -/
def takesFile : CommandName → Bool
  | compile | expand | normalize | validate | shape => true
  | profileList | profileSet | profileUse | profileUnset | profileDelete => false

open OptionRule in
/-- The options of a command, apart from those of the program. -/
def rules : CommandName → List (String × OptionRule)
  | compile =>
    [("default-optional", flag fun v => { v with defaultOptional := true }),
     ("emit-config", flag fun v => { v with emitConfig := true })]
  | expand =>
    [("catalog", ofReader path? fun a v => { v with catalog := some a }),
     ("column-spacing", ofReader Decimal.ofText? fun a v => { v with columnSpacing := some a }),
     ("row-spacing", ofReader Decimal.ofText? fun a v => { v with rowSpacing := some a })]
  | shape =>
    [("flatten", flag fun v => { v with flatten := true }),
     ("include-hidden", flag fun v => { v with includeHidden := true }),
     ("schemas", ofReader path? fun a v => { v with schemas := some a })]
  | profileSet =>
    [("default-optional",
        ofReader bool? fun a v => { v with change := { v.change with defaultOptional := some a } }),
     ("apply-rbac",
        ofReader bool? fun a v => { v with change := { v.change with applyRBAC := some a } }),
     ("page-limit",
        ofReader pageLimit? fun a v => { v with change := { v.change with pageLimit := some a } }),
     ("pagination-strategy",
        ofReader PageStrategy.ofName? fun a v =>
          { v with change := { v.change with strategy := some a } }),
     ("include-hidden",
        ofReader bool? fun a v => { v with change := { v.change with includeHidden := some a } })]
  | normalize | validate | profileList | profileUse | profileUnset | profileDelete => []

/-- The action of a command with its operand, which is empty for commands that have none. -/
def action (operand : String) (v : OptionValues) : CommandName → Action
  | compile => .compile operand v.defaultOptional v.emitConfig
  | expand => .expand operand v.catalog v.columnSpacing v.rowSpacing
  | normalize => .normalize operand
  | validate => .validate operand
  | shape => .shape operand v.flatten v.includeHidden v.schemas
  | profileList => .profile .list
  | profileSet => .profile (.set operand v.change)
  | profileUse => .profile (.use operand)
  | profileUnset => .profile .unset
  | profileDelete => .profile (.delete operand)

end CommandName

namespace CommandLevel

/-- The options that may stand on a level. -/
def rules : CommandLevel → List (String × OptionRule)
  | program => ("version", .version) :: commonRules
  | profile => commonRules
  | command name => name.rules ++ commonRules

/-- The long name of an option of one letter. -/
def longName? (letter : Char) : Option String :=
  [('h', "help"), ('V', "version")].lookup letter

/-- The commands that a level leads to. -/
def commands : CommandLevel → List (String × CommandLevel)
  | program =>
    [("compile", command .compile), ("expand", command .expand),
     ("normalize", command .normalize), ("validate", command .validate),
     ("shape", command .shape), ("profile", profile)]
  | profile =>
    [("list", command .profileList), ("set", command .profileSet), ("use", command .profileUse),
     ("unset", command .profileUnset), ("delete", command .profileDelete)]
  | command _ => []

end CommandLevel

end PatternQuery
