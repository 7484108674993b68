import Bindery.Number.Shortest
import Bindery.Text.Integer

/-! Values of JSON and their printed forms. A number is a whole number or a binary one with a sign.
The fields of an object keep their order. -/

namespace Bindery

inductive Json where
  | null
  | bool (b : Bool)
  | int (n : Int)
  | real (negative : Bool) (magnitude : Binary64)
  | str (s : String)
  | arr (items : List Json)
  | obj (fields : List (String × Json))

namespace Json

/-- The value of a field of an object. Of several fields of one name the last one counts. -/
def get? (j : Json) (key : String) : Option Json :=
  match j with
  | .obj fields => (fields.reverse.find? (·.1 == key)).map (·.2)
  | _ => none

def str? : Json → Option String
  | .str s => some s
  | _ => none

def bool? : Json → Option Bool
  | .bool b => some b
  | _ => none

/-- A number that fits 64 bits without a sign. -/
def nat? : Json → Option Nat
  | .int n => if 0 ≤ n ∧ n < limit64 then some n.toNat else none
  | _ => none

def items? : Json → Option (List Json)
  | .arr items => some items
  | _ => none

def isObject : Json → Bool
  | .obj _ => true
  | _ => false

/-- A number that is not whole, as text: the fewest digits from which it is read back. -/
def realText (negative : Bool) (magnitude : Binary64) : String :=
  (if negative then "-" else "") ++ magnitude.shortest.text

def numberText? : Json → Option String
  | .int n => some (toString n)
  | .real negative magnitude => some (realText negative magnitude)
  | _ => none

def escapeChar (c : Char) : List Char :=
  if c == '"' then ['\\', '"']
  else if c == '\\' then ['\\', '\\']
  else if c == '\n' then ['\\', 'n']
  else if c == '\r' then ['\\', 'r']
  else if c == '\t' then ['\\', 't']
  else if c == '\x08' then ['\\', 'b']
  else if c == '\x0c' then ['\\', 'f']
  else if c.toNat < 0x20 then
    ['\\', 'u', '0', '0', hexDigit (c.toNat / 16), hexDigit (c.toNat % 16)]
  else [c]

def quote (s : String) : String :=
  String.ofList ('"' :: s.toList.flatMap escapeChar ++ ['"'])

mutual

/-- The shortest form, without blanks. -/
def compact : Json → String
  | .null => "null"
  | .bool b => if b then "true" else "false"
  | .int n => toString n
  | .real negative magnitude => realText negative magnitude
  | .str s => quote s
  | .arr items => "[" ++ ",".intercalate (compactItems items) ++ "]"
  | .obj fields => "\x7b" ++ ",".intercalate (compactFields fields) ++ "\x7d"

def compactItems : List Json → List String
  | [] => []
  | j :: js => j.compact :: compactItems js

def compactFields : List (String × Json) → List String
  | [] => []
  | (key, j) :: fields => (quote key ++ ":" ++ j.compact) :: compactFields fields

end

/-- The items of a list or object, one a line; an empty one has no lines. -/
def block (opening closing indent : String) (items : List String) : String :=
  if items.isEmpty then opening ++ closing
  else
    opening ++ "\n" ++ ",\n".intercalate (items.map ((indent ++ "  ") ++ ·)) ++ "\n" ++ indent ++
      closing

mutual

/-- The form with one item a line, two blanks deeper for each level. -/
def pretty (indent : String) : Json → String
  | .null => "null"
  | .bool b => if b then "true" else "false"
  | .int n => toString n
  | .real negative magnitude => realText negative magnitude
  | .str s => quote s
  | .arr items => block "[" "]" indent (prettyItems (indent ++ "  ") items)
  | .obj fields => block "\x7b" "\x7d" indent (prettyFields (indent ++ "  ") fields)

def prettyItems (indent : String) : List Json → List String
  | [] => []
  | j :: js => j.pretty indent :: prettyItems indent js

def prettyFields (indent : String) : List (String × Json) → List String
  | [] => []
  | (key, j) :: fields => (quote key ++ ": " ++ j.pretty indent) :: prettyFields indent fields

end

end Json

end Bindery
