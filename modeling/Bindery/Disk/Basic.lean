import Bindery.Failure
import Bindery.OsPath
import Bindery.Path
import Bindery.Source.Map

/-! What the tool asks of the machine it runs on: files, programs and variables of its environment. -/

namespace Bindery

/-- What a program has left behind. The output is none if it is not text. -/
structure ProcessResult where
  code : Option Int
  output : Option String
  errors : String

/-- A machine with files, programs and an environment. -/
class MonadDisk (m : Type → Type) where
  readText : String → m (Except FileError String)
  readBytes : OsPath → m (Except FileError ByteArray)
  isFile : String → m Bool
  isPresent : String → m Bool
  createDirs : String → m (Except FileError Unit)
  writeText : String → String → m (Except FileError Unit)
  environment? : String → m (Option String)
  program? : String → m (Option String)
  run : OsPath → List String → m (Except FileError ProcessResult)

/-- Whether a text holds a zero character, which no path and no argument may. -/
def hasZero (text : String) : Bool :=
  text.contains '\x00'

/-- What is wrong with a path whatever there is on the machine. -/
def pathFault? (path : String) : Option FileError :=
  if hasZero path then some .zeroInPath
  else if path.isEmpty then some .missing
  else if 4096 ≤ path.utf8ByteSize then some .nameTooLong
  else none

/-- The text of a path, on a machine of which all names are texts. Another path leads nowhere there. -/
def OsPath.known (path : OsPath) : Except FileError String :=
  match path.text? with
  | some text => .ok text
  | none => .error .missing

/-- Steps of the tool on a machine; a failure says what was tried. -/
abbrev ToolT (m : Type → Type) := ExceptT Failure m

namespace Disk

variable {m : Type → Type} [Monad m] [MonadDisk m]

/-- Asks the machine, and says what was tried if it refuses. -/
def attempt {α : Type} (message : String) (x : m (Except FileError α)) : ToolT m α := do
  match ← ExceptT.lift x with
  | .ok a => pure a
  | .error e => throw ⟨.text message, [.file e]⟩

/-- Puts a message before the causes of a failure. -/
def within {α : Type} (message : String) (x : ToolT m α) : ToolT m α :=
  tryCatch x fun f => throw (f.within message)

def read (path : String) : ToolT m String :=
  attempt ("failed to read file: " ++ path) (MonadDisk.readText path)

/-- Creates a directory and those above it, unless something of that name is there. -/
def ensureDir (path : String) : ToolT m Unit := do
  unless ← ExceptT.lift (MonadDisk.isPresent path) do
    attempt ("failed to create directory: " ++ path) (MonadDisk.createDirs path)

/-- Writes a file and creates the directories above it. -/
def write (path text : String) : ToolT m Unit := do
  match Path.parent? path with
  | some dir => ensureDir dir
  | none => pure ()
  attempt ("failed to write file: " ++ path) (MonadDisk.writeText path text)

def loadSource (s : SourceMap) (path : String) : ToolT m SourceMap := do
  let text ← within s!"failed to read source {path}" (read path)
  pure (s.insert path text)

def firstFile : List String → m (Option String)
  | [] => pure none
  | path :: paths => do
    if ← MonadDisk.isFile path then pure (some path) else firstFile paths

def findIn (name : String) (dirs : List String) : m (Option String) :=
  firstFile (dirs.map (Path.join · name))

end Disk

end Bindery
