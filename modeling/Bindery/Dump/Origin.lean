import Bindery.Dump.Node
import Bindery.Path
import Bindery.Source.Map
import Bindery.Source.Parameters

/-! The header that a dump was made of, and the texts that are read while its declarations are
built. A text is read when it is first asked for. -/

namespace Bindery

structure Origin where
  path : String
  text : String
  /-- The texts of other files, as far as they can be read. -/
  readable : String → Option String

namespace Origin

/-- The name by which the header is included. -/
def name (o : Origin) : String :=
  (Path.fileName? o.path).getD o.path

/-- Whether `file` is a directory and a name behind it. -/
def endsInName (file name : String) : Bool :=
  let name := name.toList.reverse
  let file := file.toList.reverse
  name.isPrefixOf file && ((file.drop name.length).head?).any fun c => c == '/' || c == '\\'

def isMain (o : Origin) (file : String) : Bool :=
  file == o.path || file == o.name || endsInName file o.name

def text? (o : Origin) (file : String) : Option String :=
  if o.isMain file then some o.text else o.readable file

end Origin

/-- Why loading stops. -/
inductive LoadFault where
  /-- An offset that the text has not. -/
  | badOffset (offset : ParamText.BadOffset)
  /-- A sum for which its word has no room. -/
  | overflow
  deriving DecidableEq, Repr

/-- The result of sums that have to fit their words. -/
def fitted {α : Type} : Option α → Except LoadFault α
  | some a => .ok a
  | none => .error .overflow

/-- Steps that keep the texts they read. -/
abbrev SourceM := StateT SourceMap (Except LoadFault)

namespace SourceM

def read (o : Origin) (file : String) : SourceM (Option String) := do
  match (← get).text? file with
  | some text => pure (some text)
  | none =>
    match o.text? file with
    | some text => modify (·.insert file text); pure (some text)
    | none => pure none

def location? (o : Origin) (file : String) (offset : Nat) : SourceM (Option Location) := do
  let _ ← read o file
  pure ((← get).location? file offset)

/-- The text from one position up to the end of another of the same file. -/
def textThrough (o : Origin) (start stop : Option Point) : SourceM (Option (List Char)) := do
  match start, stop with
  | some p, some q =>
    if p.file == q.file then
      match ← read o p.file with
      | none => pure none
      | some text =>
        let stop ← liftM (fitted q.stop?)
        pure (slice? p.offset stop text.toList)
    else pure none
  | _, _ => pure none

end SourceM

end Bindery
