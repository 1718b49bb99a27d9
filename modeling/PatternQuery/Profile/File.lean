import PatternQuery.Profile.Book
import PatternQuery.Toml.Printer
import PatternQuery.Toml.Reader

/-!
# The profile file

Profiles are stored in a TOML document: the name of the default profile, and a table `profiles` with
a table for every profile. Entries that are not known are passed over when the file is read, and are
gone when it is written again.
-/

namespace PatternQuery

namespace ProfileSettings

/-- One more than the greatest page limit. -/
def pageLimitBound : Nat := 0x100000000

/-- Reads a setting that may be missing. -/
def readSetting {α : Type} (entries : List (String × Toml)) (name : String)
    (read : Toml → Option α) : Option (Option α) :=
  match entries.lookup name with
  | none => some none
  | some v => (read v).map some

/-- Reads the settings of a profile from the entries of a table; none when one of them has the wrong
type. -/
def ofEntries? (entries : List (String × Toml)) : Option ProfileSettings := do
  return {
    defaultOptional := ← readSetting entries "default_optional" Toml.bool?
    applyRBAC := ← readSetting entries "apply_rbac" Toml.bool?
    pageLimit := ← readSetting entries "page_limit" (Toml.natBelow? pageLimitBound)
    strategy := ← readSetting entries "pagination_strategy" Toml.str?
    includeHidden := ← readSetting entries "include_hidden" Toml.bool? }

/-- Reads the settings of a profile. They stand in a table, or all of them in an array in the order
in which they are written, with anything behind them. A date or a time holds no settings. -/
def ofToml? : Toml → Option ProfileSettings
  | .table entries => ofEntries? entries
  | .arr (defaultOptional :: applyRBAC :: pageLimit :: strategy :: includeHidden :: _) => do
    return {
      defaultOptional := some (← defaultOptional.bool?)
      applyRBAC := some (← applyRBAC.bool?)
      pageLimit := some (← pageLimit.natBelow? pageLimitBound)
      strategy := some (← strategy.str?)
      includeHidden := some (← includeHidden.bool?) }
  | .moment _ => some .blank
  | _ => none

/-- The line of a setting; none when it is not set. -/
def line (name : String) (text : Option String) : Option String :=
  text.map fun t => name ++ " = " ++ t ++ "\n"

/-- The text of a truth value. -/
def boolText (b : Bool) : String := if b then "true" else "false"

/-- Writes the settings that are set, each on its line. -/
def text (s : ProfileSettings) : String :=
  String.join ([line "default_optional" (s.defaultOptional.map boolText),
    line "apply_rbac" (s.applyRBAC.map boolText),
    line "page_limit" (s.pageLimit.map toString),
    line "pagination_strategy" (s.strategy.map Toml.quoted),
    line "include_hidden" (s.includeHidden.map boolText)].filterMap id)

end ProfileSettings

namespace StoredProfiles

/-- Reads a list of profiles into ascending order of their names. -/
def settingsOfToml? (entries : List (String × Toml)) :
    Option (List (String × ProfileSettings)) :=
  entries.foldlM
    (fun settings (name, v) => do
      return Ordered.insert compare name (← ProfileSettings.ofToml? v) settings) []

/-- **Reads a profile file.** -/
def ofText? (text : String) : Option StoredProfiles := do
  let entries ← Toml.ofText? text
  let defaultName ← ProfileSettings.readSetting entries "default_profile" Toml.str?
  let settings ←
    match entries.lookup "profiles" with
    | none => some []
    | some v => settingsOfToml? (← v.entries?)
  return ⟨defaultName, settings⟩

/-- Writes the table of a profile. -/
def tableText (name : String) (s : ProfileSettings) : String :=
  "[profiles." ++ Toml.key name ++ "]\n" ++ s.text

/-- **Writes a profile file:** the default profile first, if there is one, and then the tables in the
order of their names, with an empty line between one part and the next. The header of the table of
profiles is written only when there are none. -/
def text (s : StoredProfiles) : String :=
  let start := s.defaultName.toList.map fun name => "default_profile = " ++ Toml.quoted name ++ "\n"
  let tables :=
    if s.settings.isEmpty then ["[profiles]\n"]
    else s.settings.map fun (name, settings) => tableText name settings
  "\n".intercalate (start ++ tables)

end StoredProfiles

/-- **A format of the profile file:** how its text is read, and how it is written. -/
structure ProfileFormat where
  /-- What a text stores; none when the text is not in order. -/
  read : String → Option StoredProfiles
  write : StoredProfiles → String

/-- The format that is in use. -/
def ProfileFormat.toml : ProfileFormat := ⟨StoredProfiles.ofText?, StoredProfiles.text⟩

end PatternQuery
