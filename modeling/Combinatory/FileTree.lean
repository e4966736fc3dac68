/-!
# File trees

Directories and text files below a root directory, as a value. A path is a list of names from the root.

## The model

A tree lists its directories, apart from the root, and its files with their texts. Reading and writing need a
path that leads through directories to a file name; nothing is written below something that is not a directory,
and a directory cannot be read or replaced. Directories are made one after the other along a path, and those made
before a name that cannot be one stay.
-/

namespace Combinatory

/-- The names on the way from the root. -/
abbrev Path : Type := List String

/-- Directories and files. -/
structure FileTree where
  /-- The directories below the root. -/
  directories : List Path := []
  /-- The files. -/
  files : List (Path × String) := []

namespace FileTree

/-- Whether there is a directory at a path. -/
def isDirectory (t : FileTree) (p : Path) : Bool := p.isEmpty || t.directories.contains p

/-- Whether there is a file at a path. -/
def isFile (t : FileTree) (p : Path) : Bool := (t.files.lookup p).isSome

/-- Whether a text can be used as a path: not too long, and without a zero character. -/
def isPath (path : String) : Bool := path.utf8ByteSize ≤ 4095 && !path.toList.contains '\x00'

/-- Whether a text on a path can be the name of a file: not too long. -/
def isFileName (name : String) : Bool := name.utf8ByteSize ≤ 255

/-- Follows names from a directory. Every name but the last must lead to a directory; an empty name and `.` stay,
and `..` goes back. -/
def follow (t : FileTree) : (here : Path) → List String → Option Path
  | p, [] => some p
  | p, name :: names =>
    if !t.isDirectory p then none
    else if name = "" ∨ name = "." then t.follow p names
    else if name = ".." then if p = [] then none else t.follow p.dropLast names
    else if isFileName name then t.follow (p ++ [name]) names
    else none

/-- The place of a file in the tree. The last name must be one of a file. -/
def place (t : FileTree) (path : String) : Option Path :=
  let names := path.splitOn "/"
  match names.getLast? with
  | none | some "" | some "." | some ".." => none
  | _ => if isPath path ∧ names.head? ≠ some "" then t.follow [] names else none

/-- The text of a file. -/
def read (t : FileTree) (path : String) : Option String := do t.files.lookup (← t.place path)

/-- Writes a file, in place of the one that is there. -/
def write (t : FileTree) (path text : String) : Option FileTree := do
  let p ← t.place path
  if t.isDirectory p || !t.isDirectory p.dropLast then none
  else some { t with files := (p, text) :: t.files.filter (·.1 ≠ p) }

/-- Makes the directories on the way along the given names, and says whether all of them are there. Those made
before a name that cannot be a directory stay. -/
def makeDirectories (t : FileTree) : (here : Path) → List String → Bool × FileTree
  | _, [] => (true, t)
  | p, name :: names =>
    if name = "" ∨ name = "." then t.makeDirectories p names
    else if name = ".." then if p = [] then (false, t) else t.makeDirectories p.dropLast names
    else
      let q := p ++ [name]
      if t.isFile q || !isFileName name then (false, t)
      else if t.isDirectory q then t.makeDirectories q names
      else { t with directories := q :: t.directories }.makeDirectories q names

/-- Makes the directories above a file, and says whether all of them are there. -/
def makeParents (t : FileTree) (path : String) : Bool × FileTree :=
  let names := ((path.splitOn "/").filter fun name => name ≠ "" ∧ name ≠ ".").dropLast
  if isPath ("/".intercalate names) then t.makeDirectories [] names else (false, t)

end FileTree

/-- Puts a path behind another one. An absolute path takes its place; otherwise they are joined by one slash, unless
the first one is empty or ends with one. -/
def joinPath (base path : String) : String :=
  if path.startsWith "/" then path
  else if base = "" ∨ base.endsWith "/" then base ++ path
  else base ++ "/" ++ path

end Combinatory
