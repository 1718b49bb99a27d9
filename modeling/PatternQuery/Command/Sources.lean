import PatternQuery.Error
import PatternQuery.Files.Basic
import PatternQuery.Json.Reader
import PatternQuery.Profile.File
import PatternQuery.Schema.Basic

/-!
# Sources

What the command line reads: the standard input, the files that are named, and the profile file. The
standard input is named by a dash and gives its text once. Reading ends in a value or in one of the
errors with which an action can fail.
-/

namespace PatternQuery

/-- What a program can read. -/
structure Sources where
  stdin : String
  file : String → FileContent
  /-- The profile file that is used when none is named. -/
  profilePath : Option String

/-- What is done with a file or a folder. -/
inductive FileTask where
  | read
  /-- Making the folder of a file. -/
  | create
  | write
  deriving Repr, DecidableEq

/-- The verb of a task. -/
def FileTask.name : FileTask → String
  | read => "read"
  | create => "create"
  | write => "write"

/-- Why an action fails. -/
inductive CommandError where
  | query (e : QueryError)
  /-- A list of hops given by itself is no pattern. -/
  | pattern (e : PatternError)
  /-- A value given by itself could not be read. -/
  | decode (e : DecodeError)
  | profile (e : ProfileError)
  | file (task : FileTask) (path : String) (e : FileError)
  /-- A text is no JSON value. -/
  | json (f : Json.Fault)
  | badProfileFile (path : String)
  | noProfileFile
  deriving Repr, DecidableEq

namespace CommandError

/-- The text of the error. -/
def message : CommandError → String
  | query e => e.withCode
  | pattern e => e.message
  | decode e => e.message
  | profile e => e.message
  | file task path e => s!"failed to {task.name} {path}: {e.message}"
  | json f => f.message
  | badProfileFile path => s!"failed to parse CLI config {path}: the file is not in order"
  | noProfileFile => "no config directory found; pass --config or set QUARRY_CONFIG"

end CommandError

namespace Sources

/-- The name that stands for the standard input. -/
def stdinName : String := "-"

/-- Reads a file, or the standard input. -/
def read (s : Sources) (path : String) : Except CommandError String :=
  if path == stdinName then .ok s.stdin
  else (s.file path).mapError (.file .read path)

/-- What is left to be read once a path has been read: the standard input gives its text once. -/
def drained (s : Sources) (path : String) : Sources :=
  if path == stdinName then { s with stdin := "" } else s

/-- Reads a JSON value. -/
def json (s : Sources) (path : String) : Except CommandError Json := do
  (Json.ofText (← s.read path)).mapError .json

/-- Reads a list of schemas. -/
def schemas (s : Sources) (path : String) : Except CommandError (List Schema) := do
  (Schema.listOfJson (← s.json path)).mapError .decode

/-- Opens the profile file, which is written in a format. Where there is none, there are no profiles. -/
def profiles (s : Sources) (format : ProfileFormat) (path : Option String) :
    Except CommandError ProfileBook := do
  let stored ←
    match path with
    | none => .ok .empty
    | some path =>
      match s.file path with
      | .error e => if e.isAbsence then .ok .empty else .error (.file .read path e)
      | .ok content =>
        match format.read content with
        | some stored => .ok stored
        | none => .error (.badProfileFile path)
  (ProfileBook.ofStored stored).mapError .profile

end Sources

end PatternQuery
