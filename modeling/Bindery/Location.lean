/-! A place in a source file: the name of the file, the line and column counted from one, and the
number of bytes before it. -/

namespace Bindery

structure Location where
  file : String
  line : Nat
  column : Nat
  offset : Nat
  deriving DecidableEq, Repr

namespace Location

/-- Stands for a place that is not known. -/
def unknown : Location := ⟨"<unknown>", 0, 0, 0⟩

def isUnknown (l : Location) : Bool :=
  l.line == 0 && l.file == "<unknown>"

/-- The place as messages print it; the offset is left out. -/
def render (l : Location) : String :=
  s!"{l.file}:{l.line}:{l.column}"

end Location

end Bindery
