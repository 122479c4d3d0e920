import QuantumLowering.Command.Files
import QuantumLowering.Command.Path
import QuantumLowering.Text.Dictionary

/-!
A directory in memory, in which commands run without a disk. Of what lies outside, only a few
directories and the null device are known. Places are paths from the root of all files on.
-/

namespace QuantumLowering

inductive WorkspaceEntry where
  | file (text : String)
  | directory
deriving DecidableEq, Repr, Inhabited

abbrev Workspace := Dictionary WorkspaceEntry

namespace Workspace

def home : List String := ["tmp", "workspace"]

def rootDirectories : List String :=
  ["bin", "boot", "dev", "etc", "home", "lib", "media", "mnt", "opt", "proc", "root", "run", "sbin",
    "srv", "sys", "tmp", "usr", "var"]

def outerEntry? : List String → Option WorkspaceEntry
  | [] => some .directory
  | ["dev", "null"] => some (.file "")
  | [name] => if name ∈ rootDirectories then some .directory else none
  | _ => none

def join (path : List String) : String := String.intercalate "/" path

/-- The path of a place in the working directory, if it lies there. -/
def inner? (place : List String) : Option (List String) :=
  if home.isPrefixOf place then some (place.drop home.length) else none

def entry? (w : Workspace) (place : List String) : Option WorkspaceEntry :=
  match inner? place with
  | some [] => some .directory
  | some path => w.get? (join path)
  | none => outerEntry? place

def child (place : List String) (component : String) : List String :=
  match component with
  | "." => place
  | ".." => place.dropLast
  | name => place ++ [name]

def maxName : Nat := 255

def maxPath : Nat := 4095

def isLong (component : String) : Bool := maxName < component.utf8ByteSize

/-- Walks on from a place. Every component but the last has to be a directory, and what the last one
is stays open. -/
def walk (w : Workspace) (place : List String) : List String → Except FileError (List String)
  | [] => .ok place
  | component :: rest =>
    match w.entry? place with
    | none => .error .notFound
    | some (.file _) => .error .notDirectory
    | some .directory =>
      if isLong component && !rest.isEmpty then .error .nameTooLong
      else walk w (child place component) rest

def locate (w : Workspace) (path : String) : Except FileError (List String) :=
  if path.isEmpty then .error .notFound
  else if maxPath < path.utf8ByteSize then .error .nameTooLong
  else w.walk (if path.startsWith "/" then [] else home) (Path.components path)

def read (w : Workspace) (path : String) : Except FileError String := do
  let place ← w.locate path
  match w.entry? place with
  | none => throw (if place.getLast?.any isLong then .nameTooLong else .notFound)
  | some .directory => throw .isDirectory
  | some (.file text) => if path.endsWith "/" then throw .notDirectory else return text

def write (w : Workspace) (path text : String) : Except FileError Workspace := do
  let place ← w.locate path
  if path.endsWith "/" || w.entry? place = some .directory then throw .isDirectory
  else if place.getLast?.any isLong then throw .nameTooLong
  else
    match inner? place with
    | some inner => return w.insert (join inner) (.file text)
    | none => return w

def parents (place : List String) : List (List String) :=
  (List.range place.length).filterMap fun n => if n = 0 then none else some (place.take n)

def create (w : Workspace) (path : String) (entry : WorkspaceEntry) : Workspace :=
  let place := (Path.components path).filter (· ≠ ".")
  let w := (parents place).foldl (fun w above => w.insert (join above) .directory) w
  w.insert (join place) entry

def changedSince (after before : Workspace) : List (String × String) :=
  after.entries.filterMap fun (path, entry) =>
    match entry with
    | .file text => if before.get? path = some entry then none else some (path, text)
    | .directory => none

def files : FileAccess (StateM Workspace) where
  read path := return (← get).read path
  write path text := do
    match (← get).write path text with
    | .ok w =>
      set w
      return .ok ()
    | .error e => return .error e

end Workspace

end QuantumLowering
