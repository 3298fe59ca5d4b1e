/-!
# Files

Commands reach files through `Files`, which says how to read and write them in some monad. A
`Folder` is a small file system in memory: every path leads to a file or through the folders that
the files imply. `Folder.files` runs commands on it without touching a disk.
-/

namespace ClosureConversion

/-- Access to files by path. -/
structure Files (m : Type → Type) where
  /-- The text of a file; none if there is no such file or it is not text. -/
  read : String → m (Option String)
  /-- Whether a path leads to a file. -/
  isFile : String → m Bool
  /-- Write a file and tell whether that worked. -/
  write : String → String → m Bool

/-- Files in memory, by the names on the way to them. -/
structure Folder where
  entries : List (List String × ByteArray)

namespace Folder

/-- Whether there is a file at a place. -/
def hasFile (f : Folder) (place : List String) : Bool := f.entries.any (·.1 == place)

/-- Whether there is a folder at a place: the top, or a place on the way to a file. -/
def hasFolder (f : Folder) (place : List String) : Bool :=
  place.isEmpty || f.entries.any fun e => place.length < e.1.length && place.isPrefixOf e.1

/-- Follow names from a folder; every place passed on the way is a folder. A last name that stands
for a folder itself gives no place. -/
def follow? (f : Folder) (here : List String) : List String → Option (List String)
  | [] => none
  | [name] =>
    if name = "" ∨ name = "." ∨ name = ".." then none else some (here ++ [name])
  | name :: rest =>
    if name = "" ∨ name = "." then f.follow? here rest
    else if name = ".." then (if here = [] then none else f.follow? here.dropLast rest)
    else if f.hasFolder (here ++ [name]) then f.follow? (here ++ [name]) rest
    else none

/-- Whether a path can be followed at all: it is not too long, no name in it is, and it holds no
null character. -/
def isPath (path : String) : Bool :=
  path.utf8ByteSize < 4096 && (path.splitOn "/").all (·.utf8ByteSize ≤ 255) &&
    !path.toList.contains '\x00'

/-- The place that a path leads to. -/
def place? (f : Folder) (path : String) : Option (List String) :=
  if isPath path ∧ !path.startsWith "/" then f.follow? [] (path.splitOn "/") else none

/-- The contents at a place. -/
def contents? (f : Folder) (place : List String) : Option ByteArray := f.entries.lookup place

/-- The path of the null device, which is always empty and takes anything. -/
def nullDevice : String := "/dev/null"

/-- The text of a file. -/
def read (f : Folder) (path : String) : Option String :=
  if path = nullDevice then some ""
  else do String.fromUTF8? (← f.contents? (← f.place? path))

/-- The folder with a file written, unless there is no place for it. -/
def write? (f : Folder) (path text : String) : Option Folder :=
  if path = nullDevice then some f
  else do
    let place ← f.place? path
    if f.hasFolder place then none
    else return ⟨f.entries.filter (·.1 != place) ++ [(place, text.toUTF8)]⟩

/-- A folder with the given files. -/
def ofFiles (files : List (String × ByteArray)) : Folder :=
  ⟨files.map fun e => (e.1.splitOn "/", e.2)⟩

/-- The files that are here and not in another folder, with their text. -/
def newFiles (f before : Folder) : List (String × Option String) :=
  (f.entries.filter (fun e => !before.hasFile e.1)).map fun e =>
    ("/".intercalate e.1, String.fromUTF8? e.2)

/-- Access to the files of a folder as the state. -/
def files : Files (StateM Folder) where
  read path := return (← get).read path
  isFile path := do
    let f ← get
    return ((f.place? path).map f.hasFile).getD false
  write path text := do
    match (← get).write? path text with
    | some f => set f; return true
    | none => return false

end Folder

end ClosureConversion
