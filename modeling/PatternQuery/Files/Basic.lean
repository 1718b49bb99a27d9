/-!
# Reading and writing files

What can go wrong when a file is read or written, and the path of the folder in which a file stands.
A path is a text of names with slashes between them. A part of it that is empty or a dot leads
nowhere, so the folder of a file is named by what remains when its name and the idle parts around it
are taken away.
-/

namespace PatternQuery

/-- Why a file cannot be read or written. -/
inductive FileError where
  /-- There is nothing under the path. -/
  | missing
  /-- A file stands where a folder is needed. -/
  | occupied
  /-- The path leads through something that is no folder. -/
  | notFolder
  /-- The path names a folder. -/
  | isFolder
  | nameTooLong
  | other (reason : String)
  deriving Repr, DecidableEq

namespace FileError

/-- The text of the error. -/
def message : FileError → String
  | missing => "No such file or directory (os error 2)"
  | occupied => "File exists (os error 17)"
  | notFolder => "Not a directory (os error 20)"
  | isFolder => "Is a directory (os error 21)"
  | nameTooLong => "File name too long (os error 36)"
  | other reason => reason

/-- Whether the error says that nothing stands under the path. -/
def isAbsence : FileError → Bool
  | missing | notFolder | nameTooLong => true
  | occupied | isFolder | other _ => false

end FileError

/-- The text of a file, or why it cannot be read. -/
abbrev FileContent := Except FileError String

namespace FilePath

/-- The parts of a path. -/
def parts (path : String) : List String := path.splitOn "/"

/-- The path that has these parts. -/
def ofParts : List String → String
  | [""] => "/"
  | parts => "/".intercalate parts

/-- Whether a part leads nowhere. -/
def isIdle (part : String) : Bool := part.isEmpty || part == "."

/-- Takes the idle parts at the end away, but never the first part. -/
def trim : List String → List String
  | [] => []
  | first :: rest => first :: (rest.reverse.dropWhile isIdle).reverse

/-- The parts of the path of the folder in which a file stands; empty when the path is a name alone. -/
def folderParts (path : String) : List String :=
  trim (trim (parts path)).dropLast

/-- Whether a path ends in a part that leads somewhere. The first part of a path that starts at the
top is empty, and there is nothing to be made at the top. -/
def endsInName : List String → Bool
  | [] => false
  | [first] => !first.isEmpty
  | _ :: rest => rest.getLast?.any (!isIdle ·)

/-- The paths of the folders on the way of a path, which is the first of them itself. -/
def foldersOnWay (parts : List String) : List (List String) :=
  ((List.range parts.length).reverse.map fun n => parts.take (n + 1)).filter endsInName

end FilePath

end PatternQuery
