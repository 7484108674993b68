import Bindery.Text.Blank
import Bindery.Text.Offset
import Bindery.Text.Word

/-! Constants defined in the text of a header, one a line: a hash sign, `define`, a name, a blank
and a value that ends with the line. -/

namespace Bindery

/-- A constant with the offsets of the hash sign and of the name. -/
structure Definition where
  name : String
  value : String
  start : Nat
  nameOffset : Nat
  deriving DecidableEq, Repr

namespace Definition

def isMargin (c : Char) : Bool :=
  c == ' ' || c == '\t'

/-- The value up to a comment outside string literals. -/
def beforeComment (inString escaped : Bool) : List Char → List Char
  | [] => []
  | c :: cs =>
    if escaped then c :: beforeComment inString false cs
    else if c == '\\' && inString then c :: beforeComment inString true cs
    else if c == '"' then c :: beforeComment (!inString) false cs
    else if c == '/' && !inString && (cs.head? == some '/' || cs.head? == some '*') then []
    else c :: beforeComment inString false cs

/-- The value written in the rest of a line. None is given where the line goes on behind its end,
or where nothing is left without the comment. -/
def valueOf (rest : List Char) : Option String :=
  let text := (rest.reverse.dropWhile (· == '\r')).reverse
  if (trimEnd text).getLast? == some '\\' then none
  else
    let value := trim (beforeComment false false text)
    if value.isEmpty then none else some (String.ofList value)

/-- The constant defined by a line that starts at `offset`. -/
def ofLine (offset : Nat) (line : List Char) : Option Definition :=
  let margin := line.takeWhile isMargin
  match line.dropWhile isMargin with
  | '#' :: rest =>
    let gap := rest.takeWhile isMargin
    let word := rest.dropWhile isMargin
    if "define".toList.isPrefixOf word then
      let rest := word.drop 6
      let blanks := rest.takeWhile isMargin
      let named := rest.dropWhile isMargin
      let name := named.takeWhile isWordCharacter
      let after := named.dropWhile isWordCharacter
      if blanks.isEmpty || name.isEmpty || !(after.head?.any isMargin) then none
      else
        let start := offset + margin.length
        (valueOf (after.dropWhile isMargin)).map fun value =>
          ⟨String.ofList name, value, start, start + 1 + gap.length + 6 + blanks.length⟩
    else none
  | _ => none

/-- The constants of a text whose first line starts at `offset` and begins with `line` reversed. -/
def scanLines (offset : Nat) (line : List Char) : List Char → List Definition
  | [] => (ofLine offset line.reverse).toList
  | c :: cs =>
    if c == '\n' then
      (ofLine offset line.reverse).toList ++
        scanLines (offset + byteLength line + 1) [] cs
    else scanLines offset (c :: line) cs

def scan (text : String) : List Definition :=
  scanLines 0 [] text.toList

end Definition

end Bindery
