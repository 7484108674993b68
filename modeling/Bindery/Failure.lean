import Bindery.Binding.Error

/-! Why a whole operation failed: a chain of causes, the outermost first. -/

namespace Bindery

/-- What the file system answers instead of doing what it was asked. -/
inductive FileError where
  | missing | isDirectory | notDirectory | notText
  /-- A program that may not be run. -/
  | denied
  | nameTooLong
  /-- A path with a zero character in it. -/
  | zeroInPath
  /-- A command with a zero character in it. -/
  | zeroInCommand
  deriving DecidableEq, Repr

def FileError.message : FileError → String
  | .missing => "No such file or directory (os error 2)"
  | .notDirectory => "Not a directory (os error 20)"
  | .isDirectory => "Is a directory (os error 21)"
  | .notText => "stream did not contain valid UTF-8"
  | .denied => "Permission denied (os error 13)"
  | .nameTooLong => "File name too long (os error 36)"
  | .zeroInPath => "file name contained an unexpected NUL byte"
  | .zeroInCommand => "nul byte found in provided data"

inductive Cause where
  | text (message : String)
  | file (e : FileError)
  /-- A text that is not JSON. -/
  | json
  /-- A text that is not a configuration. -/
  | toml
  /-- An offset in a dump that its text does not have, or a number that is too large. -/
  | badOffset
  | bind (e : BindError)
  deriving DecidableEq, Repr

structure Failure where
  outer : Cause
  inner : List Cause := []
  deriving DecidableEq, Repr

namespace Failure

def causes (f : Failure) : List Cause :=
  f.outer :: f.inner

def within (message : String) (f : Failure) : Failure :=
  ⟨.text message, f.causes⟩

def text (message : String) : Failure :=
  ⟨.text message, []⟩

/-- The first binding error among the causes. -/
def bindError? (f : Failure) : Option BindError :=
  f.causes.findSome? fun c =>
    match c with
    | .bind e => some e
    | _ => none

end Failure

end Bindery
