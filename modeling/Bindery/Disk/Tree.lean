import Bindery.Disk.Basic

/-! A machine held as a value: a tree of files, of which only what lies in the working directory need
be known, and programs. -/

namespace Bindery

/-- Files, directories and programs are known by the names on the way from the root. Directories with
something in them need no entry of their own. -/
structure DiskTree where
  files : List (List String × String) := []
  folders : List (List String) := []
  programs : List (List String × (List String → ProcessResult)) := []
  environment : List (String × String) := []

namespace DiskTree

/-- The way to the working directory. Its name is empty, which no path can spell, so a path that
leaves it does not come back. -/
def home : List String := [""]

/-- The names in a path that lead somewhere. -/
def names (path : String) : List String :=
  (Path.segments path.toList).filter (!Path.isIdle ·)

/-- Files by their paths in the working directory. -/
def ofFiles (files : List (String × String)) : DiskTree where
  files := files.map fun f => (home ++ names f.1, f.2)

/-- The files in the working directory, by their paths. -/
def toFiles (t : DiskTree) : List (String × String) :=
  t.files.filterMap fun f =>
    if home.isPrefixOf f.1 then some ("/".intercalate (f.1.drop home.length), f.2) else none

inductive Entry where
  | file (text : String)
  | folder
  | program (result : List String → ProcessResult)

/-- Whether names lead to the root, the working directory, or something that is known to have
something in it. -/
def isFolder (t : DiskTree) (names : List String) : Bool :=
  names.isPrefixOf home || t.folders.any names.isPrefixOf || t.files.any (names.isPrefixOf ·.1) ||
    t.programs.any (names.isPrefixOf ·.1)

def entry? (t : DiskTree) (names : List String) : Option Entry :=
  match t.files.find? (·.1 == names), t.programs.find? (·.1 == names) with
  | some f, _ => some (.file f.2)
  | none, some p => some (.program p.2)
  | none, none => if t.isFolder names then some .folder else none

/-- Names in a directory have at most this many bytes. -/
def nameLimit : Nat := 255

/-- Follows names from a directory. Only directories can be gone through. The root lies above
itself. -/
def walk (t : DiskTree) (here : List String) : List String → Except FileError (List String)
  | [] => .ok here
  | name :: names =>
    match t.entry? here with
    | none => .error .missing
    | some .folder =>
      if Path.isIdle name then t.walk here names
      else if name == ".." then t.walk here.dropLast names
      else if nameLimit < name.utf8ByteSize then .error .nameTooLong
      else t.walk (here ++ [name]) names
    | some _ => .error .notDirectory

/-- The names that lead to a path. -/
def resolve (t : DiskTree) (path : String) : Except FileError (List String) :=
  match pathFault? path with
  | some e => .error e
  | none => t.walk (if Path.isAbsolute path then [] else home) (Path.segments path.toList)

def find (t : DiskTree) (path : String) : Except FileError Entry := do
  match t.entry? (← t.resolve path) with
  | some e => pure e
  | none => .error .missing

def readText (t : DiskTree) (path : String) : Except FileError String := do
  match ← t.find path with
  | .file text => pure text
  | .folder => .error .isDirectory
  | .program _ => .error .notText

def isFile (t : DiskTree) (path : String) : Bool :=
  match t.find path with
  | .ok .folder => false
  | .ok _ => true
  | .error _ => false

def isPresent (t : DiskTree) (path : String) : Bool :=
  (t.find path).toOption.isSome

/-- Follows names and creates the directories that are missing. -/
def createAlong (t : DiskTree) (here : List String) : List String → Except FileError DiskTree
  | [] => .ok t
  | name :: names =>
    if Path.isIdle name then t.createAlong here names
    else if name == ".." then t.createAlong here.dropLast names
    else if nameLimit < name.utf8ByteSize then .error .nameTooLong
    else
      match t.entry? (here ++ [name]) with
      | some .folder => t.createAlong (here ++ [name]) names
      | some _ => .error .notDirectory
      | none =>
        { t with folders := (here ++ [name]) :: t.folders }.createAlong (here ++ [name]) names

/-- Creates a directory and those above it. Nothing is created by a path from the root. -/
def createDirs (t : DiskTree) (path : String) : Except FileError DiskTree :=
  match pathFault? path with
  | some .missing => .ok t
  | some e => .error e
  | none =>
    if Path.isAbsolute path then .error .denied
    else t.createAlong home (Path.segments path.toList)

/-- Writes a file. Nothing is written by a path from the root. -/
def writeText (t : DiskTree) (path text : String) : Except FileError DiskTree := do
  let names ← t.resolve path
  match t.entry? names with
  | some .folder => .error .isDirectory
  | some (.program _) => .error .denied
  | some (.file _) =>
    pure { t with files := t.files.map fun f => if f.1 == names then (names, text) else f }
  | none =>
    if Path.isAbsolute path then .error .denied
    else pure { t with files := t.files ++ [(names, text)] }

/-- What the program at a path does. A file or directory that is no program is not run. -/
def program (t : DiskTree) (path : String) : Except FileError (List String → ProcessResult) := do
  match ← t.find path with
  | .program result => pure result
  | _ => .error .denied

def readBytes (t : DiskTree) (path : OsPath) : Except FileError ByteArray := do
  let text ← t.readText (← path.known)
  pure text.toUTF8

def run (t : DiskTree) (path : OsPath) (args : List String) : Except FileError ProcessResult := do
  let path ← path.known
  if (path :: args).any hasZero then .error .zeroInCommand
  else (t.program path).map fun result => result args

end DiskTree

/-- Steps on a machine held as a value. -/
abbrev DiskM := StateM DiskTree

namespace DiskM

/-- Keeps the tree that a step leaves, if it succeeds. -/
def change (f : DiskTree → Except FileError DiskTree) : DiskM (Except FileError Unit) := do
  match f (← get) with
  | .ok t => set t; pure (.ok ())
  | .error e => pure (.error e)

instance : MonadDisk DiskM where
  readText path := do pure ((← get).readText path)
  readBytes path := do pure ((← get).readBytes path)
  isFile path := do pure ((← get).isFile path)
  isPresent path := do pure ((← get).isPresent path)
  createDirs path := change (·.createDirs path)
  writeText path text := change (·.writeText path text)
  environment? name := do pure (((← get).environment.find? (·.1 == name)).map (·.2))
  program? name := do pure (((← get).program name).toOption.map fun _ => name)
  run path args := do pure ((← get).run path args)

end DiskM

end Bindery
