import Bindery.Config.Basic
import Bindery.Digest.Fingerprint
import Bindery.Dump.Unit
import Bindery.Json.Parser

/-! Where dumps come from, a compiler that is run on each header, a directory of files or a text at
hand, and loading a header from its dump. -/

namespace Bindery

variable {m : Type → Type} [Monad m] [MonadDisk m]

/-- A compiler, the arguments it always gets, and where its dumps are kept. -/
structure Compiler where
  path : OsPath
  args : List String
  cacheDir : Option String
  deriving DecidableEq, Repr

namespace Compiler

def installHint : String :=
  "help: Install clang or pass its path with `--clang` / `[clang] path` in swivel.toml"

def argsHint : String :=
  "help: Check the include directories and `[clang] args` used to parse the header"

/-- The compiler of the environment, or the one of the usual name. -/
def findUsual : m (Option String) := do
  let named ←
    match ← MonadDisk.environment? "CLANG" with
    | some name => MonadDisk.program? name
    | none => pure none
  match named with
  | some path => pure (some path)
  | none => MonadDisk.program? "clang"

/-- The path of the compiler. A single name is looked for among the programs of the machine. -/
def locate (path : Option String) : ToolT m String := do
  match path with
  | some path =>
    if 1 < Path.depth path then pure path
    else
      match ← ExceptT.lift (MonadDisk.program? path) with
      | some found => pure found
      | none => throw (.text s!"`{path}` not found in PATH\n{installHint}")
  | none =>
    match ← ExceptT.lift findUsual with
    | some found => pure found
    | none => throw (.text s!"clang not found in PATH\n{installHint}")

def ofConfig (c : ClangConfig) : ToolT m Compiler := do
  let path ← locate c.path
  pure ⟨path, c.defines.map ("-D" ++ ·) ++ c.dirs.map ("-I" ++ ·) ++ c.args, c.cacheDir⟩

def dumpArgs (c : Compiler) (header : OsPath) : List String :=
  ["-x", "c", "-fsyntax-only", "-Xclang", "-ast-dump=json"] ++ c.args ++ [header.lossy]

def commandAt (c : Compiler) (header : OsPath) : String :=
  " ".intercalate (c.path.lossy :: c.dumpArgs header)

/-- What decides about the dump of a header; `digest` is that of the header. Of paths only the text counts
that is shown for them. -/
def request (c : Compiler) (header : OsPath) (digest : String) : Fingerprint :=
  ⟨c.path.lossy :: c.args ++ [header.lossy, digest]⟩

/-- The file in which the dump of a header is kept. -/
def cachePath (c : Compiler) (header : OsPath) : ToolT m (Option String) := do
  match c.cacheDir with
  | none => pure none
  | some dir =>
    let digest ← Disk.digestOf header
    pure (some (Path.join dir ((c.request header digest).short ++ ".json")))

def codeText : Option Int → String
  | some n => s!"Some({n})"
  | none => "None"

def run (c : Compiler) (header : OsPath) : ToolT m String := do
  let failed := s!"clang failed on {header.lossy}\n{argsHint}"
  match ← ExceptT.lift (MonadDisk.run c.path (c.dumpArgs header)) with
  | .error e => throw ⟨.text failed, [.text s!"failed to spawn `{c.path.lossy}`", .file e]⟩
  | .ok r =>
    if r.code != some 0 then
      throw ⟨.text failed,
        [.text s!"`{c.commandAt header}` failed with exit code {codeText r.code}\n{r.errors}"]⟩
    match r.output with
    | some text => pure text
    | none => throw ⟨.text s!"clang dump of {header.lossy} is not UTF-8", [.file .notText]⟩

/-- The dump of the header at a path, as it was kept or made anew. -/
def dumpAt (c : Compiler) (header : OsPath) : ToolT m String := do
  match ← c.cachePath header with
  | none => c.run header
  | some path =>
    if ← ExceptT.lift (MonadDisk.isFile path) then Disk.read path
    else
      let text ← c.run header
      Disk.write path text
      pure text

/-! A header is asked for by the text of its path. -/

def commandLine (c : Compiler) (header : String) : String :=
  c.commandAt header

def dump (c : Compiler) (header : String) : ToolT m String :=
  c.dumpAt header

end Compiler

def dumpPath (dir header : String) : String :=
  Path.join dir ((Path.fileName? header).getD "" ++ ".json")

inductive DumpProvider where
  | compiler (c : Compiler)
  | directory (dir : String)
  /-- One dump for every header. -/
  | fixed (dump : String)
  deriving DecidableEq, Repr

namespace Disk

/-- The texts of those files that can be read. -/
def texts : List String → m (List (String × String))
  | [] => pure []
  | file :: files => do
    let text ← MonadDisk.readText file
    let rest ← texts files
    pure ((text.toOption.map (file, ·)).toList ++ rest)

end Disk

namespace DumpProvider

def dump (header : String) : DumpProvider → ToolT m String
  | .compiler c => c.dump header
  | .directory dir =>
    Disk.within s!"no AST dump for {header}" (Disk.read (dumpPath dir header))
  | .fixed dump => pure dump

/-- How deep a dump may be nested. -/
def depthLimit : Nat := 127

def loadText (text header : String) : ToolT m HeaderUnit := do
  match Json.parse? depthLimit text with
  | none => throw ⟨.text s!"invalid clang AST dump for {header}", [.json]⟩
  | some j =>
    let headerText ← Disk.read header
    let root := (Node.ofJson {} j).1
    let texts ← ExceptT.lift (Disk.texts (nameSet root.files))
    let readable (file : String) : Option String := (texts.find? (·.1 == file)).map (·.2)
    match HeaderUnit.ofNode ⟨header, headerText, readable⟩ root with
    | .ok u => pure u
    | .error e => throw e.toFailure

def load (p : DumpProvider) (header : String) : ToolT m HeaderUnit := do
  let text ← p.dump header
  Disk.within s!"failed to load AST of {header}" (loadText text header)

end DumpProvider

end Bindery
