/-! Files by their paths. Where the working directory stands is not known: a path from the root and
one that goes up beyond the working directory lead to places of their own. -/

namespace Sketchwright

/-- Files by path, with what they hold; a directory exists as long as it holds a file. -/
abbrev Files (α : Type) := List (String × α)

inductive FileError where
  | notFound
  | notDirectory
  | isDirectory
  /-- What was read is not the UTF-8 form of a text. -/
  | notText
  /-- Any other error of the system, with its text. -/
  | other (text : String)
  deriving DecidableEq, Repr

def FileError.message : FileError → String
  | .notFound => "No such file or directory (os error 2)"
  | .notDirectory => "Not a directory (os error 20)"
  | .isDirectory => "Is a directory (os error 21)"
  | .notText => "stream did not contain valid UTF-8"
  | .other text => text

namespace Files

def isAbsolute (path : String) : Bool := path.toList.head? == some '/'

/-- The names between the slashes of a path. -/
def names (path : String) : List String := (path.toList.splitOn '/').map String.ofList

/-- The place above another one. Above the working directory the way goes on upwards, and above the
root there is nothing. -/
def above (here : List String) : List String :=
  match here.getLast? with
  | none | some ".." => here ++ [".."]
  | some "/" => here
  | some _ => here.dropLast

/-- The place that a name leads to. -/
def step (here : List String) (name : String) : List String :=
  if name = "" ∨ name = "." then here
  else if name = ".." then above here
  else here ++ [name]

/-- Where a path starts; the root has a name of its own. -/
def origin (path : String) : List String := if isAbsolute path then ["/"] else []

/-- The place of a path: the names on the shortest way to it. -/
def place (path : String) : List String := (names path).foldl step (origin path)

/-- The path of a place. -/
def spelling : List String → String
  | "/" :: names => "/" ++ "/".intercalate names
  | names => "/".intercalate names

variable {α : Type}

/-- What the file at a place holds. -/
def file? (files : Files α) (here : List String) : Option α :=
  (files.find? fun entry => place entry.1 == here).map (·.2)

/-- The working directory, the root and what is above them are directories, and so is every place
above a file. -/
def isDirectory (files : Files α) (here : List String) : Bool :=
  here.all (fun name => name == "/" || name == "..") ||
    files.any fun entry => here.isPrefixOf (place entry.1) && place entry.1 != here

/-- The place that names lead to; each place on the way has to be a directory. -/
def walk (files : Files α) (here : List String) :
    List String → Except FileError (List String)
  | [] => .ok here
  | name :: rest =>
    if files.isDirectory here then files.walk (step here name) rest
    else .error (if (files.file? here).isSome then .notDirectory else .notFound)

/-- What the file at a path holds. -/
def read (files : Files α) (path : String) : Except FileError α := do
  if path.isEmpty then throw .notFound
  let here ← files.walk (origin path) (names path)
  if files.isDirectory here then throw .isDirectory
  match files.file? here with
  | some content => return content
  | none => throw .notFound

/-- Puts something into the file at a place, or into a new one there. -/
def put (files : Files α) (here : List String) (content : α) : Files α :=
  if (files.file? here).isSome then
    files.map fun entry => if place entry.1 == here then (entry.1, content) else entry
  else files ++ [(spelling here, content)]

/-- A path with a slash at its end can only name a directory. -/
def namesDirectory (path : String) : Bool := (names path).getLast? == some ""

/-- Writes to the file at a path. A path with a slash at its end is refused when the way to it is
there. -/
def write (files : Files α) (path : String) (content : α) : Except FileError (Files α) := do
  if path.isEmpty then throw .notFound
  if namesDirectory path then
    let _ ← files.walk (origin path) ((names path).reverse.dropWhile (· == "")).reverse
    throw .isDirectory
  let here ← files.walk (origin path) (names path)
  if files.isDirectory here then throw .isDirectory
  return files.put here content

end Files

end Sketchwright
