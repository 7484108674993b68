import Bindery.Config.Toml
import Bindery.Disk.Basic

/-! Finding and loading the file with the settings of a project. -/

namespace Bindery.Config

variable {m : Type → Type} [Monad m] [MonadDisk m]

def fileName : String := "swivel.toml"

def load (path : String) : ToolT m Config := do
  let text ← Disk.attempt ("failed to read config file: " ++ path) (MonadDisk.readText path)
  match ofToml? text with
  | some c => pure c
  | none => throw ⟨.text ("failed to parse config file: " ++ path), [.toml]⟩

/-- Loads settings; a file that is missing or no good gives the default ones. -/
def loadOrDefault (path : String) : m Config := do
  match ← (load path : ToolT m Config) with
  | .ok c => pure c
  | .error _ => pure {}

/-- The file in a directory or the nearest one above it that has one. -/
def discover (dir : String) : m (Option String) :=
  Disk.firstFile ((Path.ancestors dir).map (Path.join · fileName))

end Bindery.Config
