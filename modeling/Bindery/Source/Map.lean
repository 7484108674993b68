import Bindery.Location
import Bindery.Text.Offset

/-! The texts of the files that declarations are written in. -/

namespace Bindery

/-- Texts by file name; a name occurs once. -/
structure SourceMap where
  files : List (String × String) := []
  deriving DecidableEq, Repr

namespace SourceMap

def insert (m : SourceMap) (name text : String) : SourceMap :=
  ⟨(name, text) :: m.files.filter (·.1 != name)⟩

def text? (m : SourceMap) (name : String) : Option String :=
  (m.files.find? (·.1 == name)).map (·.2)

def contains (m : SourceMap) (name : String) : Bool :=
  m.files.any (·.1 == name)

def names (m : SourceMap) : List String :=
  m.files.foldr (fun file names => insertSorted file.1 names) []
where
  insertSorted (name : String) : List String → List String
    | [] => [name]
    | n :: ns => if n < name then n :: insertSorted name ns else name :: n :: ns

/-- The line that holds the byte at `offset` and the offset at which it starts, for a text that
starts at `pos` when `line` and `start` describe the line so far. -/
def lineAt (offset pos line start : Nat) : List Char → Nat × Nat
  | [] => (line, start)
  | c :: cs =>
    if pos + 1 ≤ offset && c == '\n' then lineAt offset (pos + 1) (line + 1) (pos + 1) cs
    else lineAt offset (pos + c.utf8Size) line start cs

/-- The location of a byte of a file. The end of the text has one too. -/
def location? (m : SourceMap) (file : String) (offset : Nat) : Option Location :=
  match m.text? file with
  | none => none
  | some text =>
    if offset ≤ text.utf8ByteSize then
      let (line, start) := lineAt offset 0 1 0 text.toList
      some ⟨file, line, offset - start + 1, offset⟩
    else none

/-- The text from one place up to another of the same file. -/
def textBetween? (m : SourceMap) (start stop : Location) : Option String :=
  if start.file == stop.file then
    (m.text? start.file).bind fun text =>
      (slice? start.offset stop.offset text.toList).map String.ofList
  else none

end SourceMap

end Bindery
