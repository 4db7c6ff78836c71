import ParticleFx.Action
import ParticleFx.Frame

namespace ParticleFx

inductive Entry where
  | directory
  | text (content : String)
  | image (frame : Frame)
deriving DecidableEq

-- The names that lead from the working directory to a place. A place outside of it starts with the
-- root, or with a step up.
abbrev Place := List String

-- The path that leads to a place.
def Place.path (place : Place) : String :=
  match place with
  | "/" :: rest => "/" ++ "/".intercalate rest
  | [] => "."
  | _ => "/".intercalate place

-- The files a command can see, by the paths of their places.
structure Workspace where
  entries : List (String × Entry) := []
deriving DecidableEq

namespace Workspace

-- The working directory, the directories above it and the root are always there, and so is the
-- device that holds nothing.
def entry? (w : Workspace) (place : Place) : Option Entry :=
  if place = ["/"] ∨ place.all (· = "..") ∨ place = ["/", "dev"] then some .directory
  else if place = ["/", "dev", "null"] then some (.text "")
  else w.entries.lookup (Place.path place)

def put (w : Workspace) (place : Place) (e : Entry) : Workspace :=
  let path := Place.path place
  ⟨(path, e) :: w.entries.filter fun x => x.1 ≠ path⟩

-- The directory above; the root is above itself.
def up (place : Place) : Place :=
  if place = ["/"] then place
  else if place.all (· = "..") then place ++ [".."]
  else place.dropLast

-- The most bytes that a name may have.
def longestName : Nat := 255

-- The most bytes that a path may have.
def longestPath : Nat := 4095

-- Follows names from a place. Every place but the last has to be a directory.
def walk (w : Workspace) : Place → List String → Except PathFault Place
  | place, [] => .ok place
  | place, name :: rest =>
    match w.entry? place with
    | none => .error .notFound
    | some .directory =>
      if name = "" ∨ name = "." then w.walk place rest
      else if name = ".." then w.walk (up place) rest
      else if longestName < name.utf8ByteSize then .error .nameTooLong
      else w.walk (place ++ [name]) rest
    | some _ => .error .notDirectory

def parts (path : String) : List String :=
  path.splitOn "/"

-- Where a path sets out, and the names after that. An empty first name stands for the root.
def setOut (names : List String) : Place × List String :=
  match names with
  | "" :: rest => (["/"], rest)
  | _ => ([], names)

-- The place that names lead to, if it can be reached.
def follow (w : Workspace) (names : List String) : Except PathFault Place :=
  w.walk (setOut names).1 (setOut names).2

-- Paths that are refused before anything is looked up.
def permit (path : String) : Except PathFault Unit :=
  if path.contains '\x00' then .error .zeroByte
  else if longestPath < path.utf8ByteSize then .error .nameTooLong
  else if path = "" then .error .notFound
  else .ok ()

def find (w : Workspace) (path : String) : Except PathFault Entry := do
  permit path
  let place ← w.follow (parts path)
  match w.entry? place with
  | some e => .ok e
  | none => .error .notFound

def readText (w : Workspace) (path : String) : Except PathFault String := do
  match ← w.find path with
  | .text content => .ok content
  | .directory => .error .isDirectory
  | .image _ => .ok ""

def has (w : Workspace) (path : String) : Bool :=
  match w.find path with
  | .ok _ => true
  | .error _ => false

def isDirectory (w : Workspace) (names : List String) : Bool :=
  match w.follow names with
  | .ok place => w.entry? place == some .directory
  | .error _ => false

-- Makes every directory that is missing on the way along names, starting in a directory. A file in
-- the way is no directory to go on from; but once a directory had to be made, every later one is
-- asked for by itself, as the last one always is, and then the file occupies its place. What was
-- made stays, even if the end cannot be reached.
def makeDirectories (w : Workspace) (made : Bool) :
    Place → List String → Except PathFault Unit × Workspace
  | _, [] => (.ok (), w)
  | place, name :: rest =>
    if name = "" ∨ name = "." then w.makeDirectories made place rest
    else if name = ".." then w.makeDirectories made (up place) rest
    else if longestName < name.utf8ByteSize then (.error .nameTooLong, w)
    else
      let next := place ++ [name]
      match w.entry? next with
      | none => (w.put next .directory).makeDirectories true next rest
      | some .directory => w.makeDirectories made next rest
      | some _ => (.error (if made ∨ rest = [] then .occupied else .notDirectory), w)

-- The end of a path, read backward, without closing separators and dots.
def trimEnd : List Char → List Char
  | ['/'] => ['/']
  | '/' :: rest => trimEnd rest
  | '.' :: '/' :: rest => trimEnd ('/' :: rest)
  | cs => cs

-- The path of the directory that holds a path, which is empty for the working directory.
-- The root and the empty path are in no directory.
def parent? (path : String) : Option String :=
  let ending := trimEnd path.toList.reverse
  if ending = [] ∨ ending = ['/'] then none
  else some (String.ofList (trimEnd (ending.dropWhile (· ≠ '/'))).reverse)

-- Makes the directory that a path leads to, with all the directories above it.
def makeDirectory (w : Workspace) (path : String) : Except PathFault Unit × Workspace :=
  match permit path with
  | .error why => (.error why, w)
  | .ok () =>
    let (start, names) := setOut (parts path)
    w.makeDirectories false start names

-- Makes the directory that a file is to be written into.
def makeParent (path : String) : Act Workspace Unit := fun w =>
  match parent? path with
  | none | some "" => (.ok (), w)
  | some directory =>
    let (result, after) := w.makeDirectory directory
    (result.mapError (.noDirectory directory), after)

def hasParent (w : Workspace) (path : String) : Bool :=
  match parent? path with
  | none => false
  | some directory => directory = "" || w.isDirectory (parts directory)

-- The names of a path without separators at its end, from the last to the first.
def namesBackward (path : String) : List String :=
  (parts path).reverse.dropWhile (· = "")

-- Puts a file where a path leads to. A separator at the end asks for a directory, and so do dots.
def write (w : Workspace) (path : String) (e : Entry) : Except PathFault Workspace := do
  permit path
  match namesBackward path with
  | [] => .error .isDirectory
  | last :: above =>
    let place ← w.follow (above.reverse ++ if path.endsWith "/" then ["."] else [last])
    if path.endsWith "/" ∨ w.entry? place = some .directory then .error .isDirectory
    else .ok (w.put place e)

end Workspace

end ParticleFx
