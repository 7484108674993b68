import Bindery.CommandLine.Run

/-! The program. -/

namespace Bindery

def FileError.ofError (e : IO.Error) : FileError :=
  match e with
  | .noFileOrDirectory _ _ _ => .missing
  | .inappropriateType _ _ _ => .notDirectory
  | .permissionDenied _ _ _ => .denied
  | _ => .notText

def isFolder (path : String) : IO Bool := do
  ((← IO.currentDir) / path).isDir

def isThere (path : String) : IO Bool := do
  ((← IO.currentDir) / path).pathExists

/-- Runs a step on a file, and tells directories apart from other things that cannot be read. -/
def tryFile {α : Type} (path : String) (x : IO α) : IO (Except FileError α) := do
  match pathFault? path with
  | some e => pure (.error e)
  | none =>
    try pure (.ok (← x))
    catch e => pure (.error (if ← isFolder path then .isDirectory else .ofError e))

/-- The files and the environment of this machine; programs are not looked for. -/
instance : MonadDisk IO where
  readText path := tryFile path (IO.FS.readFile path)
  readBytes path :=
    match path.known with
    | .ok path => tryFile path (IO.FS.readBinFile path)
    | .error e => pure (.error e)
  isFile path := do pure ((← isThere path) && !(← isFolder path))
  isPresent path := isThere path
  createDirs path := tryFile path (IO.FS.createDirAll path)
  writeText path text := tryFile path (IO.FS.writeFile path text)
  environment? name := IO.getEnv name
  program? _ := pure none
  run _ _ := pure (.error .missing)

end Bindery

open Bindery in
def main (args : List String) : IO UInt32 := do
  let out ← IO.getStdout
  let err ← IO.getStderr
  match Invocation.parse (← IO.getEnv "SWIVEL_CLANG") args with
  | .error .help => out.putStr Invocation.usage; pure 0
  | .error .version => out.putStr Invocation.version; pure 0
  | .error .misuse => err.putStr Invocation.usage; pure 2
  | .ok i =>
    let cwd := (← IO.currentDir).toString
    let o ← i.command.outcome cwd (!i.plain && (← err.isTty))
    out.putStr o.output
    err.putStr o.messages
    pure o.code.toUInt32
