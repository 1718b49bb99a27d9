import PatternQuery.Command.Run
import PatternQuery.Files.Tree

/-!
# Sessions

A session is a sequence of invocations in one tree of files. The profile file that one invocation
saves is there for the next. To save it means to make its folder and then to write it; when either
fails, nothing but the error is reported, though folders may have been made.
-/

namespace PatternQuery

namespace FileTree

/-- Saves a file in its folder, which is made if it is not there. -/
def save (t : FileTree) (path content : String) : Except CommandError Unit × FileTree :=
  let folder := FilePath.folderParts path
  match (makeFolders (FilePath.foldersOnWay folder)).run.run t with
  | (.error e, t) => (.error (.file .create (FilePath.ofParts folder) e), t)
  | (.ok (), t) =>
    match (write path content).run.run t with
    | (.error e, t) => (.error (.file .write path e), t)
    | (.ok (), t) => (.ok (), t)

/-- Carries out what an outcome asks for. -/
def settle (t : FileTree) (o : Outcome) : Outcome × FileTree :=
  match o.saved with
  | none => (o, t)
  | some (path, content) =>
    match t.save path content with
    | (.ok (), t) => (o, t)
    | (.error e, t) => (.ofError e, t)

/-- **Runs a list of arguments in a tree of files,** where the profile file is in a format. -/
def run (t : FileTree) (profilePath : Option String) (arguments : List String) (stdin : String)
    (format : ProfileFormat := .toml) : Outcome × FileTree :=
  t.settle ((Request.ofArguments arguments).outcome ⟨stdin, t.read, profilePath⟩ format)

end FileTree

end PatternQuery
