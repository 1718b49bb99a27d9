import PatternQuery.Command.Run

/-!
# The program

Reads what an invocation names, runs it, and writes its outcome. The profile file is the one named by
`--config`, or by the environment variable `QUARRY_CONFIG`, or else `quarry/cli.toml` in the user's
configuration directory.
-/

namespace PatternQuery.Program

/-- What a failure to read or write says. The number of a failure can come with a minus sign. -/
def fileError (e : IO.Error) : FileError :=
  match e with
  | .noFileOrDirectory .. => .missing
  | .inappropriateType _ code _ => if code = 20 ∨ code = -20 then .notFolder else .isFolder
  | .alreadyExists .. => .occupied
  | .permissionDenied .. => .other "Permission denied (os error 13)"
  | e => .other (toString e)

/-- What there is under the name of a file. -/
def contentOf (path : String) : IO FileContent := do
  try
    return .ok (← IO.FS.readFile path)
  catch e => return .error (fileError e)

/-- Whether there is a folder under a path. A folder can be opened for reading, and only then it turns
out to be one. -/
def isFolder (path : String) : IO Bool := do
  match ← contentOf path with
  | .error .isFolder => return true
  | _ => return false

/-- The user's configuration directory. -/
def configDirectory : IO (Option String) := do
  match ← IO.getEnv "XDG_CONFIG_HOME" with
  | some base => if base.startsWith "/" then return some base
  | none => pure ()
  return (← IO.getEnv "HOME").map (· ++ "/.config")

/-- The profile file that is used when none is named. -/
def profilePath : IO (Option String) := do
  match (← IO.getEnv "QUARRY_CONFIG").filter (!·.isEmpty) with
  | some path => return some path
  | none => return (← configDirectory).map (· ++ "/quarry/cli.toml")

/-- Makes a folder, or finds that it is there. -/
def secureFolder (path : String) : IO Unit := do
  try
    IO.FS.createDir path
  catch e =>
    unless fileError e = .occupied ∧ (← isFolder path) do throw e

/-- Makes the folders on the way of a path, the innermost of which comes first. -/
def makeFolders : List (List String) → IO Unit
  | [] => return ()
  | parts :: outer => do
    let path := FilePath.ofParts parts
    try
      secureFolder path
    catch e =>
      unless fileError e = .missing do throw e
      makeFolders outer
      secureFolder path

/-- Writes the profile file, and makes its folder first. -/
def save (path content : String) : IO (Except CommandError Unit) := do
  let folder := FilePath.folderParts path
  try
    makeFolders (FilePath.foldersOnWay folder)
  catch e => return .error (.file .create (FilePath.ofParts folder) (fileError e))
  try
    IO.FS.writeFile path content
    return .ok ()
  catch e => return .error (.file .write path (fileError e))

/-- Writes an outcome; the profile file comes first, and an outcome that cannot be saved is the
failure to save it. -/
def emit (o : Outcome) : IO UInt32 := do
  let saved ←
    match o.saved with
    | some (path, content) => save path content
    | none => pure (.ok ())
  let o :=
    match saved with
    | .ok () => o
    | .error e => .ofError e
  IO.print o.stdout
  IO.eprint o.stderr
  return UInt32.ofNat o.exit

/-- Reads what a request needs. The standard input is read only when it is named. -/
def gather (request : Request) : IO Sources := do
  let profilePath ← profilePath
  match request with
  | .run i =>
    let contents ← (i.files profilePath).mapM fun path => return (path, ← contentOf path)
    let stdin ← if i.readsStdin then (← IO.getStdin).readToEnd else pure ""
    return ⟨stdin, fun path => (contents.lookup path).getD (.error .missing), profilePath⟩
  | _ => return ⟨"", fun _ => .error .missing, profilePath⟩

end PatternQuery.Program

/-- Runs the program with its arguments. -/
def main (arguments : List String) : IO UInt32 := do
  let request := PatternQuery.Request.ofArguments arguments
  PatternQuery.Program.emit (request.outcome (← PatternQuery.Program.gather request))
