import ShellVM.Text.Lossy

/-!
# Files

A tree of directories, files and programs, the names of which are rows of bytes. `Files.walk` goes
along the parts of a path from directory to directory; what it comes to, or the first obstacle on
the way, is what `Files.find` gives.
-/

namespace ShellVM

/-- Why the system refuses a request. -/
inductive Refusal where
  | notFound
  | argumentsTooLong
  | denied
  | notDirectory
  | isDirectory
  | nameTooLong
deriving DecidableEq

namespace Refusal

def code : Refusal → Nat
  | notFound => 2
  | argumentsTooLong => 7
  | denied => 13
  | notDirectory => 20
  | isDirectory => 21
  | nameTooLong => 36

def text : Refusal → String
  | notFound => "No such file or directory"
  | argumentsTooLong => "Argument list too long"
  | denied => "Permission denied"
  | notDirectory => "Not a directory"
  | isDirectory => "Is a directory"
  | nameTooLong => "File name too long"

def message (r : Refusal) : String := r.text ++ " (os error " ++ r.code.repr ++ ")"

end Refusal

/-- What stands at a place. -/
inductive Entry where
  | directory
  | file (contents : ByteArray)
  | program (name : String)
  /-- Has nothing to read, and swallows what is written to it. -/
  | null

/-- A place in the tree, by the names on the way from the root. -/
abbrev Place := List String

structure Files where
  entries : List (Place × Entry)
  /-- Where relative paths start. -/
  here : Place

namespace Files

/-- The longest name and the longest path, in bytes. -/
def maxName : Nat := 255

def maxPath : Nat := 4095

def entry? (f : Files) (place : Place) : Option Entry :=
  if place.isEmpty then some .directory else f.entries.lookup place

def isDirectory (f : Files) (place : Place) : Bool :=
  match f.entry? place with
  | some .directory => true
  | _ => false

/-- The place of `name` in a directory. Two dots lead back; no name, or one dot, leads nowhere. -/
def enter (f : Files) (place : Place) (name : String) : Except Refusal Place :=
  if !f.isDirectory place then .error .notDirectory
  else if name == "" || name == "." then .ok place
  else if name == ".." then .ok place.dropLast
  else if maxName < name.length then .error .nameTooLong
  else .ok (place ++ [name])

/-- Goes along the parts of a path. -/
def walk (f : Files) : List String → Place → Except Refusal Place
  | [], place => .ok place
  | part :: rest, place => do
    let next ← f.enter place part
    if (f.entry? next).isNone then throw .notFound
    f.walk rest next

def start (f : Files) (path : String) : Place := if path.startsWith "/" then [] else f.here

/-- The place that a path leads to, if something stands there. -/
def locate (f : Files) (path : String) : Except Refusal Place :=
  if path.isEmpty then .error .notFound
  else if maxPath < path.length then .error .nameTooLong
  else f.walk (path.splitOn "/") (f.start path)

/-- What a path leads to. -/
def find (f : Files) (path : String) : Except Refusal Entry := do
  match f.entry? (← f.locate path) with
  | some entry => return entry
  | none => throw .notFound

/-- The contents of a file. -/
def read (f : Files) (path : String) : Except Refusal ByteArray := do
  match ← f.find path with
  | .directory => throw .isDirectory
  | .file contents => return contents
  | .program _ | .null => return .empty

/-- The place for writing to a path: that of the file there, or of a new one. -/
def target (f : Files) (path : String) : Except Refusal Place := do
  if path.isEmpty then throw .notFound
  if maxPath < path.length then throw .nameTooLong
  let parts := path.splitOn "/"
  let place ← f.enter (← f.walk parts.dropLast (f.start path)) (parts.getLastD "")
  if f.isDirectory place then throw .isDirectory
  return place

def put (f : Files) (place : Place) (contents : ByteArray) : Files :=
  match f.entry? place with
  | none => { f with entries := (place, .file contents) :: f.entries }
  | some (.file _) =>
    { f with entries := f.entries.map fun (p, n) => if p == place then (p, .file contents) else (p, n) }
  | some _ => f

/-- Writes behind the contents of a file. -/
def append (f : Files) (place : Place) (more : ByteArray) : Files :=
  match f.entry? place with
  | some (.file contents) => f.put place (contents ++ more)
  | _ => f

/-- The names in a directory. -/
def names (f : Files) (place : Place) : List String :=
  f.entries.filterMap fun (p, _) =>
    match p.getLast? with
    | some name => if p.dropLast == place then some name else none
    | none => none

/-! ## The tree that programs find -/

/-- The names of the programs that can be started. -/
def programs : List String := ["sh", "echo", "cat", "true", "false", "printf", "sleep"]

def directories : List String :=
  ["bin", "boot", "dev", "etc", "home", "lib", "media", "mnt", "opt", "proc", "root", "run", "sbin",
    "srv", "sys", "tmp", "usr", "var"]

/-- The directory in which scripts run. -/
def workplace : Place := ["tmp", "work"]

def standard : Files where
  entries :=
    directories.map (fun d => ([d], .directory)) ++
    ["bin", "lib", "local", "sbin", "share"].map (fun d => (["usr", d], .directory)) ++
    ["bin", "sbin"].map (fun d => (["usr", "local", d], .directory)) ++
    programs.map (fun p => (["bin", p], .program p)) ++
    programs.map (fun p => (["usr", "bin", p], .program p)) ++
    ["group", "hostname", "hosts", "passwd", "shadow"].map (fun n => (["etc", n], .file .empty)) ++
    [(["dev", "null"], .null), (workplace, .directory)]
  here := workplace

/-- A file, and the directories on the way to it. -/
def create (f : Files) (place : Place) (contents : ByteArray) : Files :=
  let above := (List.range place.length).map place.take
  let f := above.foldl (fun f d =>
    if (f.entry? d).isSome then f else { f with entries := (d, .directory) :: f.entries }) f
  f.put place contents

/-- The standard tree with files in the directory where scripts run. -/
def withFiles (files : List (String × ByteArray)) : Files :=
  files.foldl (fun f (name, contents) => f.create (workplace ++ name.splitOn "/") contents) standard

end Files

end ShellVM
