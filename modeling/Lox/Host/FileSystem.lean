import Lox.Text.Utf8

/-!
A tree of directories and files. A name in a directory stands for a directory or for a file, which
open files keep using on their own. Every open file has a position of its own, and all that are open
on one file see each other's writes.
-/

namespace Lox

open Text

namespace FileSystem

/-- Why an operation is refused. -/
inductive Fault where
  | noEntry
  | badDescriptor
  | exists
  | notDirectory
  | isDirectory
  | nameTooLong
  | nulInName
  deriving Repr, DecidableEq

def Fault.message : Fault → String
  | .noEntry => "No such file or directory (os error 2)"
  | .badDescriptor => "Bad file descriptor (os error 9)"
  | .exists => "File exists (os error 17)"
  | .notDirectory => "Not a directory (os error 20)"
  | .isDirectory => "Is a directory (os error 21)"
  | .nameTooLong => "File name too long (os error 36)"
  | .nulInName => "file name contained an unexpected NUL byte"

/-- The names on the way from the root, outermost first. -/
abbrev Path := List String

abbrev FileId := Nat

abbrev HandleId := Nat

inductive Node where
  | directory
  | file (id : FileId)
  deriving Repr, DecidableEq

/-- An open file. One opened for appending writes at the end wherever it stands, and does not read. -/
structure Handle where
  file : FileId
  position : Nat := 0
  appends : Bool := false
  closed : Bool := false
  deriving Repr, DecidableEq

/-- How a file is opened: whether a missing one is made, whether it must be missing, whether what it
holds is dropped, and whether it is opened for appending. -/
structure Access where
  create : Bool := false
  exclusive : Bool := false
  truncate : Bool := false
  append : Bool := false
  deriving Repr, DecidableEq

def maxName : Nat := 255

def maxPath : Nat := 4095

end FileSystem

open FileSystem

structure FileSystem where
  nodes : List (Path × Node) := []
  contents : Array Bytes := #[]
  handles : Array Handle := #[]
  /-- Where relative names start. -/
  working : Path := ["home"]

namespace FileSystem

/-- The directory that the last name of a path is looked up in, and that name unless the path ends in
a directory of its own (`.`, `..` or the root). -/
structure Place where
  directory : Path
  name : Option String
  /-- Does a slash behind the name ask for a directory? -/
  slash : Bool
  deriving Repr, DecidableEq

def node? (fs : FileSystem) (p : Path) : Option Node :=
  if p = [] then some .directory else fs.nodes.lookup p

/-- One step on the way from a directory. -/
def step (fs : FileSystem) (here : Path) (name : String) : Except Fault Path :=
  match fs.node? here with
  | some .directory =>
    if name = "." then .ok here
    else if name = ".." then .ok here.dropLast
    else if maxName < name.utf8ByteSize then .error .nameTooLong
    else match fs.node? (here ++ [name]) with
      | some _ => .ok (here ++ [name])
      | none => .error .noEntry
  | some (.file _) => .error .notDirectory
  | none => .error .noEntry

def walk (fs : FileSystem) : Path → List String → Except Fault Path
  | p, [] => .ok p
  | p, name :: names => do fs.walk (← fs.step p name) names

/-- Finds the last name of a path. -/
def locate (fs : FileSystem) (path : String) : Except Fault Place :=
  if path.toList.contains '\x00' then .error .nulInName
  else if path = "" then .error .noEntry
  else if maxPath < path.utf8ByteSize then .error .nameTooLong
  else
    let start := if path.toList.head? = some '/' then [] else fs.working
    let names := (path.splitOn "/").filter (· ≠ "")
    match names.getLast? with
    | none => .ok ⟨[], none, false⟩
    | some last => do
      let directory ← fs.walk start names.dropLast
      if fs.node? directory ≠ some .directory then .error .notDirectory
      else if last = "." then .ok ⟨directory, none, false⟩
      else if last = ".." then .ok ⟨directory.dropLast, none, false⟩
      else .ok ⟨directory, some last, path.toList.getLast? = some '/'⟩

/-- The node of a path that is there. -/
def find (fs : FileSystem) (path : String) : Except Fault Node := do
  match ← fs.locate path with
  | ⟨_, none, _⟩ => .ok .directory
  | ⟨directory, some name, slash⟩ =>
    if maxName < name.utf8ByteSize then .error .nameTooLong
    else match fs.node? (directory ++ [name]) with
      | none => .error .noEntry
      | some .directory => .ok .directory
      | some (.file id) => if slash then .error .notDirectory else .ok (.file id)

def isFile (fs : FileSystem) (path : String) : Bool :=
  match fs.find path with
  | .ok (.file _) => true
  | _ => false

def content (fs : FileSystem) (id : FileId) : Bytes := fs.contents.getD id []

def setContent (fs : FileSystem) (id : FileId) (bytes : Bytes) : FileSystem :=
  { fs with contents := fs.contents.setIfInBounds id bytes }

/-- All that a file holds. -/
def readAll (fs : FileSystem) (path : String) : Except Fault Bytes := do
  match ← fs.find path with
  | .directory => .error .isDirectory
  | .file id => .ok (fs.content id)

/-- A new file that holds nothing. -/
def create (fs : FileSystem) (p : Path) : FileId × FileSystem :=
  (fs.contents.size, { fs with
    nodes := fs.nodes ++ [(p, .file fs.contents.size)], contents := fs.contents.push [] })

/-- The file that a path is opened as for writing, made or emptied where the access says so. -/
def openFile (fs : FileSystem) (path : String) (access : Access) :
    Except Fault (FileId × FileSystem) := do
  match ← fs.locate path with
  | ⟨_, none, _⟩ => .error (if access.exclusive then .exists else .isDirectory)
  | ⟨directory, some name, slash⟩ =>
    if slash && access.create then .error .isDirectory
    else if maxName < name.utf8ByteSize then .error .nameTooLong
    else match fs.node? (directory ++ [name]) with
      | none => if access.create then .ok (fs.create (directory ++ [name])) else .error .noEntry
      | some .directory => .error (if access.exclusive then .exists else .isDirectory)
      | some (.file id) =>
        if slash then .error .notDirectory
        else if access.exclusive then .error .exists
        else .ok (id, if access.truncate then fs.setContent id [] else fs)

/-- Makes a file hold these bytes and no others. -/
def writeAll (fs : FileSystem) (path : String) (bytes : Bytes) : Except Fault FileSystem := do
  let (id, fs) ← fs.openFile path { create := true, truncate := true }
  return fs.setContent id bytes

def openHandle (fs : FileSystem) (path : String) (access : Access) :
    Except Fault (HandleId × FileSystem) := do
  let (id, fs) ← fs.openFile path access
  return (fs.handles.size, { fs with handles := fs.handles.push { file := id, appends := access.append } })

def handle? (fs : FileSystem) (h : HandleId) : Option Handle := fs.handles[h]?

def modifyHandle (fs : FileSystem) (h : HandleId) (f : Handle → Handle) : FileSystem :=
  { fs with handles := fs.handles.modify h f }

/-- The bytes with others written over them from a position on; a gap before it is filled with
zeros. -/
def overwrite (old : Bytes) (position : Nat) (new : Bytes) : Bytes :=
  if new.isEmpty then old
  else old.take position ++ List.replicate (position - old.length) 0 ++ new
    ++ old.drop (position + new.length)

theorem overwrite_end (old new : Bytes) : overwrite old old.length new = old ++ new := by
  unfold overwrite
  split
  · simp_all [List.isEmpty_iff]
  · simp [List.drop_eq_nil_of_le]

/-- Writes where the handle stands, or at the end if it appends, and moves it behind what it wrote. -/
def write (fs : FileSystem) (id : HandleId) (h : Handle) (bytes : Bytes) : FileSystem :=
  if bytes.isEmpty then fs else
    let old := fs.content h.file
    let position := if h.appends then old.length else h.position
    let fs := fs.setContent h.file (overwrite old position bytes)
    fs.modifyHandle id ({ · with position := position + bytes.length })

/-- What stands behind the position of a handle. -/
def ahead (fs : FileSystem) (h : Handle) : Bytes := (fs.content h.file).drop h.position

def seek (fs : FileSystem) (id : HandleId) (position : Nat) : FileSystem :=
  fs.modifyHandle id ({ · with position })

def close (fs : FileSystem) (id : HandleId) : FileSystem :=
  fs.modifyHandle id ({ · with closed := true })

/-- Adds a directory, or a file with these bytes, and the directories around it. -/
def add (fs : FileSystem) (p : Path) (content : Option Bytes) : FileSystem :=
  let missing := (List.range p.length).map (p.take ·) |>.filter fun q => (fs.node? q).isNone
  let fs := { fs with nodes := fs.nodes ++ missing.map (·, Node.directory) }
  match content, fs.node? p with
  | none, none => { fs with nodes := fs.nodes ++ [(p, Node.directory)] }
  | some bytes, none =>
    let (id, fs) := fs.create p
    fs.setContent id bytes
  | some bytes, some (.file id) => fs.setContent id bytes
  | _, _ => fs

/-- A file system whose working directory holds these files and directories. -/
def ofEntries (entries : List (Path × Option Bytes)) : FileSystem :=
  let fs : FileSystem := {}
  entries.foldl (fun fs (p, content) => fs.add (fs.working ++ p) content) (fs.add fs.working none)

/-- The files and directories inside the working directory, with their paths from there. -/
def entries (fs : FileSystem) : List (Path × Option Bytes) :=
  fs.nodes.filterMap fun (p, node) =>
    if fs.working.isPrefixOf p && p ≠ fs.working then
      some (p.drop fs.working.length, match node with
        | .directory => none
        | .file id => some (fs.content id))
    else none

/-- The files that hold other bytes than they did before, or were not there. -/
def changes (before after : FileSystem) : List (Path × Bytes) :=
  after.nodes.filterMap fun (p, node) => match node with
    | .directory => none
    | .file id =>
      if before.node? p = some (.file id) && before.content id == after.content id then none
      else some (p, after.content id)

end FileSystem

end Lox
