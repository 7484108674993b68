/-! Text written line by line at a depth of indentation. -/

namespace Bindery

/-- The lines written so far and the depth at which the next one is written. -/
structure Writer where
  lines : List String := []
  depth : Nat := 0
  deriving DecidableEq, Repr

namespace Writer

def margin (depth : Nat) : String :=
  String.join (List.replicate depth "    ")

def line (w : Writer) (text : String) : Writer :=
  { w with lines := w.lines ++ [margin w.depth ++ text] }

def addLines (w : Writer) (texts : List String) : Writer :=
  texts.foldl line w

def indent (w : Writer) : Writer :=
  { w with depth := w.depth + 1 }

/-- At the margin there is nothing to take back. -/
def dedent (w : Writer) : Writer :=
  { w with depth := w.depth - 1 }

/-- What `write` writes, one level deeper. -/
def indented (w : Writer) (write : Writer → Writer) : Writer :=
  (write w.indent).dedent

def text (w : Writer) : String :=
  String.join (w.lines.map (· ++ "\n"))

end Writer

end Bindery
