import Bindery.Digest.Sha256
import Bindery.Disk.Basic

/-! Fingerprints of requests. A fingerprint is the digest of texts, each with a zero byte behind it. -/

namespace Bindery

structure Fingerprint where
  parts : List String := []
  deriving DecidableEq, Repr

namespace Fingerprint

def bytes (f : Fingerprint) : List UInt8 :=
  f.parts.flatMap fun part => part.toUTF8.toList ++ [0]

def add (f : Fingerprint) (parts : List String) : Fingerprint :=
  ⟨f.parts ++ parts⟩

def full (f : Fingerprint) : String :=
  Sha256.hex (Sha256.digest f.bytes)

/-- The first sixteen digits. -/
def short (f : Fingerprint) : String :=
  String.ofList (f.full.toList.take 16)

end Fingerprint

namespace Disk

variable {m : Type → Type} [Monad m] [MonadDisk m]

/-- The digest of what a file holds. A directory can be opened but not read. -/
def digestOf (path : OsPath) : ToolT m String := do
  match ← ExceptT.lift (MonadDisk.readBytes path) with
  | .ok bytes => pure (Sha256.hex (Sha256.digest bytes.toList))
  | .error .isDirectory => throw ⟨.file .isDirectory, []⟩
  | .error e => throw ⟨.text ("failed to open file for hashing: " ++ path.lossy), [.file e]⟩

end Disk

end Bindery
