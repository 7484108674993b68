import Bindery.Toml.Basic
import Bindery.Toml.Scalar
import Bindery.Toml.Text

/-! Reading TOML documents. -/

namespace Bindery.Toml

def isWordChar (c : Char) : Bool :=
  c.isAlphanum || c == '+' || c == '-' || c == '_' || c == '.' || c == ':'

/-- Whether a time follows after a blank. -/
def timeFollows : List Char → Bool
  | ' ' :: a :: b :: ':' :: _ => a.isDigit && b.isDigit
  | _ => false

/-- A truth value, a number, or a date with or without a time. -/
def word? (cs : List Char) : Option (Toml × List Char) :=
  let word := cs.takeWhile isWordChar
  let rest := cs.dropWhile isWordChar
  if word == "true".toList then some (.bool true, rest)
  else if word == "false".toList then some (.bool false, rest)
  else if isDate word && timeFollows rest then
    let time := rest.drop 1
    if isZonedTime (time.takeWhile isWordChar) then some (.date, time.dropWhile isWordChar) else none
  else if isDateOrTime word then some (.date, rest)
  else if isNumber word then some (.number, rest)
  else none

mutual

/-- A value, with `depth` levels of lists and tables allowed in it. -/
def value? (depth : Nat) (cs : List Char) : Option (Toml × List Char) :=
  match cs with
  | '[' :: rest =>
    match depth with
    | 0 => none
    | depth + 1 => listItems? depth [] rest
  | '\x7b' :: rest =>
    match depth with
    | 0 => none
    | depth + 1 =>
      match skipBlanks rest with
      | '\x7d' :: rest => some (.table .closed [], rest)
      | _ => pairs? depth [] rest
  | cs =>
    match string? cs with
    | some (s, rest) => some (.str s, rest)
    | none => word? cs
termination_by (depth, 0, 0)
decreasing_by all_goals exact Prod.Lex.left _ _ (Nat.lt_succ_self _)

/-- The items of a list up to its end, behind those in `seen`. -/
def listItems? (depth : Nat) (seen : List Toml) (cs : List Char) : Option (Toml × List Char) :=
  match skipLines cs with
  | ']' :: rest => some (.arr seen.reverse, rest)
  | start =>
    match value? depth start with
    | none => none
    | some (v, rest) =>
      match skipLines rest with
      | ',' :: rest => if _h : rest.length < cs.length then listItems? depth (v :: seen) rest else none
      | ']' :: rest => some (.arr (v :: seen).reverse, rest)
      | _ => none
termination_by (depth, 1, cs.length)
decreasing_by
  · exact Prod.Lex.right _ (Prod.Lex.left _ _ (by omega))
  · exact Prod.Lex.right _ (Prod.Lex.right _ _h)

/-- The pairs of a table in braces up to its end. -/
def pairs? (depth : Nat) (entries : Entries) (cs : List Char) : Option (Toml × List Char) :=
  match key? cs with
  | some ((path, key), '=' :: rest) =>
    match value? depth (skipBlanks rest) with
    | none => none
    | some (v, rest) =>
      match insertKey path key v .header entries with
      | none => none
      | some entries =>
        match skipBlanks rest with
        | ',' :: rest => if _h : rest.length < cs.length then pairs? depth entries rest else none
        | '\x7d' :: rest => some (.table .closed entries, rest)
        | _ => none
  | _ => none
termination_by (depth, 1, cs.length)
decreasing_by
  · exact Prod.Lex.right _ (Prod.Lex.left _ _ (by omega))
  · exact Prod.Lex.right _ (Prod.Lex.right _ _h)

end

/-- A header or a key with its value, if the line holds one. -/
def statement? (d : TomlDraft) (cs : List Char) : Option (TomlDraft × List Char) :=
  match cs with
  | '[' :: '[' :: rest =>
    match key? rest with
    | some ((path, key), ']' :: ']' :: rest) => do
      pure (← TomlDraft.openRepeated (← d.close) path key, rest)
    | _ => none
  | '[' :: rest =>
    match key? rest with
    | some ((path, key), ']' :: rest) => do
      pure (← TomlDraft.openTable (← d.close) path key, rest)
    | _ => none
  | cs =>
    if (endLine? cs).isSome then some (d, cs)
    else
      match key? cs with
      | some ((path, key), '=' :: rest) => do
        let (v, rest) ← value? (nestingLimit - 1) (skipBlanks rest)
        pure (← d.addKey path key v, rest)
      | _ => none

def lines? (d : TomlDraft) (cs : List Char) : Option TomlDraft :=
  match statement? d (skipBlanks cs) with
  | none => none
  | some (d, rest) =>
    match endLine? rest with
    | none => none
    | some [] => some d
    | some rest => if _h : rest.length < cs.length then lines? d rest else none
termination_by cs.length

/-- The table that a document writes. A mark of the byte order may stand before it. -/
def parse? (text : String) : Option Entries := do
  let cs := text.toList
  (← lines? {} (if cs.head? == some '\uFEFF' then cs.drop 1 else cs)).close

end Bindery.Toml
