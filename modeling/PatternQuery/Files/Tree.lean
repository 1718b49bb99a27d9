import PatternQuery.Files.Basic

/-!
# Trees of files

The files and folders that a program can reach. One of the folders at the top is the working folder,
from which paths lead that do not start at the top. A path is followed part by part, and all but the
last thing on the way have to be folders, even where the path turns back.

Edits pass the tree on when they fail, because an edit that makes several folders can fail behind the
first of them.
-/

namespace PatternQuery

/-- What can stand at a place. -/
inductive FileEntry where
  | folder
  | file (content : String)
  /-- A file that stays empty, whatever is written to it. -/
  | sink
  deriving Repr, DecidableEq

/-- A place: the names that lead to it from the top. -/
abbrev FilePlace := List String

/-- A tree of files. -/
structure FileTree where
  /-- The name of the working folder. A path that starts with it starts at the top. -/
  working : String
  /-- What stands at each place, apart from the top and the working folder. -/
  entries : List (FilePlace × FileEntry)
  deriving Repr, DecidableEq

/-- A computation that edits a tree and can fail. -/
abbrev FileEdit := ExceptT FileError (StateM FileTree)

namespace FileTree

/-- A tree with nothing in its working folder. -/
def empty (working : String) : FileTree := ⟨working, []⟩

/-- What stands at a place. -/
def entryAt? (t : FileTree) (place : FilePlace) : Option FileEntry :=
  if place = [] ∨ place = [t.working] then some .folder else t.entries.lookup place

/-- Puts an entry at a place. -/
def insert (t : FileTree) (place : FilePlace) (e : FileEntry) : FileTree :=
  { t with entries := (place, e) :: t.entries.filter (·.1 != place) }

/-! ### Following a path -/

/-- The greatest size of a name, in bytes. -/
def maxNameSize : Nat := 255

/-- The greatest size of a path, in bytes. -/
def maxPathSize : Nat := 4095

/-- Where a path starts, and the parts that are left to be followed. -/
def start (t : FileTree) (parts : List String) : Except FileError (FilePlace × List String) :=
  if maxPathSize < (FilePath.ofParts parts).utf8ByteSize then .error .nameTooLong
  else
    match parts with
    | "" :: rest => .ok ([], rest)
    | part :: _ => .ok (if part == t.working then [] else [t.working], parts)
    | [] => .ok ([t.working], [])

/-- Follows one part of a path. Nothing needs to stand at the place that is reached. -/
def step (t : FileTree) (here : FilePlace) (part : String) : Except FileError FilePlace :=
  match t.entryAt? here with
  | none => .error .missing
  | some .folder =>
    if FilePath.isIdle part then .ok here
    else if part == ".." then .ok here.dropLast
    else if maxNameSize < part.utf8ByteSize then .error .nameTooLong
    else .ok (here ++ [part])
  | some _ => .error .notFolder

/-- The place to which the parts of a path lead. -/
def locate (t : FileTree) (parts : List String) : Except FileError FilePlace := do
  let (here, parts) ← t.start parts
  parts.foldlM t.step here

/-- The folder to which all parts of a path but the last lead, and the last part; none when the path
has no more parts than its start. -/
def locateFolder (t : FileTree) (parts : List String) :
    Except FileError (FilePlace × Option String) := do
  let (here, parts) ← t.start parts
  let here ← parts.dropLast.foldlM t.step here
  return (← t.step here "", parts.getLast?)

/-- Whether a path leads to a folder. -/
def isFolder (t : FileTree) (parts : List String) : Bool :=
  match t.locate parts with
  | .ok place => t.entryAt? place == some .folder
  | .error _ => false

/-- **Reads a file.** -/
def read (t : FileTree) (path : String) : FileContent := do
  match t.entryAt? (← t.locate (FilePath.parts path)) with
  | some (.file content) => return content
  | some .sink => return ""
  | some .folder => throw .isFolder
  | none => throw .missing

/-! ### Edits -/

/-- Whether the last part of a path is a name, and not a dot or two dots. -/
def isName (last : Option String) : Bool :=
  last.any fun name => !FilePath.isIdle name && name != ".."

/-- Makes a folder in one that is there. -/
def makeFolder (t : FileTree) (parts : List String) : Except FileError FileTree := do
  let (here, last) ← t.locateFolder parts
  if isName last then
    let place ← t.step here (last.getD "")
    if (t.entryAt? place).isSome then throw .occupied
    return t.insert place .folder
  else throw .occupied

/-- Makes a folder, or finds that it is there. -/
def secureFolder (parts : List String) : FileEdit Unit := do
  let t ← get
  match t.makeFolder parts with
  | .ok t => set t
  | .error e => if e = .occupied ∧ t.isFolder parts then return () else throw e

/-- **Makes the folders on the way of a path,** the innermost of which comes first. Those that lie
around a folder are made only when it turns out that they are missing. -/
def makeFolders : List (List String) → FileEdit Unit
  | [] => return ()
  | parts :: outer => do
    match (← get).makeFolder parts with
    | .error .missing => makeFolders outer
    | _ => pure ()
    secureFolder parts

/-- **Writes a file**, whose folder has to be there. A path that ends in a slash, a dot or two dots
names a folder. -/
def write (path content : String) : FileEdit Unit := do
  let t ← get
  let parts := FilePath.parts path
  let bare := (parts.reverse.dropWhile String.isEmpty).reverse
  let _ ← t.start parts
  let (here, last) ← t.locateFolder (if bare.isEmpty then parts else bare)
  if isName last && bare.length == parts.length then
    let place ← t.step here (last.getD "")
    match t.entryAt? place with
    | some .folder => throw .isFolder
    | some .sink => return ()
    | some (.file _) | none => set (t.insert place (.file content))
  else throw .isFolder

end FileTree

end PatternQuery
