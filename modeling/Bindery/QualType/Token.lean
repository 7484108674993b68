import Bindery.Number.Width
import Bindery.Text.Blank
import Bindery.Text.Group

/-! Tokens of a printed C type. A parenthesised text right after a tag keyword, by which records
without a name are described, is one token. -/

namespace Bindery

inductive QualTypeError where
  | unexpectedChar (c : Char)
  | unbalanced
  | unexpectedToken (token : String)
  | unexpectedEnd
  | unknownAnonymous (key : String)
  | invalidBuiltin (words : String)
  deriving DecidableEq, Repr

def QualTypeError.message : QualTypeError → String
  | .unexpectedChar c => "unexpected character `" ++ String.singleton c ++ "`"
  | .unbalanced => "unbalanced parentheses"
  | .unexpectedToken t => "unexpected token " ++ t
  | .unexpectedEnd => "unexpected end of type"
  | .unknownAnonymous key => s!"anonymous {key} was not adopted by a typedef"
  | .invalidBuiltin words => s!"invalid builtin `{words}`"

namespace QualType

inductive Token where
  | word (text : String)
  | number (n : Nat)
  | star | openParen | closeParen | openBracket | closeBracket | comma | ellipsis
  | anonymous (key : String)
  deriving DecidableEq, Repr

/-- A token as error messages quote it. -/
def Token.quoted : Token → String
  | .word text => s!"`{text}`"
  | .number n => s!"`{n}`"
  | .star => "`*`"
  | .openParen => "`(`"
  | .closeParen => "`)`"
  | .openBracket => "`[`"
  | .closeBracket => "`]`"
  | .comma => "`,`"
  | .ellipsis => "`...`"
  | .anonymous key => s!"`({key})`"

/-- The token that a single character is by itself. -/
def Token.ofPunctuation? (c : Char) : Option Token :=
  if c == '*' then some .star
  else if c == '(' then some .openParen
  else if c == ')' then some .closeParen
  else if c == '[' then some .openBracket
  else if c == ']' then some .closeBracket
  else if c == ',' then some .comma
  else none

def isTag (word : String) : Bool :=
  word == "struct" || word == "union" || word == "enum"

def isWordStart (c : Char) : Bool :=
  c.isAlpha || c == '_'

def isWordChar (c : Char) : Bool :=
  c.isAlphanum || c == '_'

def decimalValue (digits : List Char) : Nat :=
  digits.foldl (fun n c => 10 * n + (c.toNat - '0'.toNat)) 0

/-- The character whose code is the first byte of the UTF-8 form of `c`. -/
def leadByte (c : Char) : Char :=
  let n := c.toNat
  if n < 0x80 then c
  else if n < 0x800 then Char.ofNat (0xC0 + n / 0x40)
  else if n < 0x10000 then Char.ofNat (0xE0 + n / 0x1000)
  else Char.ofNat (0xF0 + n / 0x40000)

/-- The description in parentheses after a tag keyword, if there is one, and what follows it. -/
def anonymousGroup (cs : List Char) :
    Except QualTypeError (Option (String × {r : List Char // r.length < cs.length})) :=
  match h : trimStart cs with
  | '(' :: inner =>
    match hg : splitParens inner with
    | none => .error .unbalanced
    | some (inside, rest) =>
      .ok (some (String.ofList inside, ⟨rest, by
        have h₁ := length_dropWhile_le isBlank cs
        have h₂ := splitGroup_length hg
        rw [trimStart] at h
        rw [h, List.length_cons] at h₁
        omega⟩))
  | _ => .ok none

def tokenize (cs : List Char) : Except QualTypeError (List Token) :=
  match cs with
  | [] => .ok []
  | '.' :: '.' :: '.' :: rest => (tokenize rest).map (.ellipsis :: ·)
  | c :: rest =>
    if isAsciiBlank c then tokenize rest
    else if isWordStart c then
      let word := String.ofList (c :: rest.takeWhile isWordChar)
      if isTag word then
        match anonymousGroup (rest.dropWhile isWordChar) with
        | .error e => .error e
        | .ok none => (tokenize (rest.dropWhile isWordChar)).map (.word word :: ·)
        | .ok (some (key, ⟨behind, _⟩)) =>
          (tokenize behind).map fun ts => .word word :: .anonymous key :: ts
      else (tokenize (rest.dropWhile isWordChar)).map (.word word :: ·)
    else if c.isDigit then
      let n := decimalValue (c :: rest.takeWhile Char.isDigit)
      if n < limit64 then (tokenize (rest.dropWhile Char.isDigit)).map (.number n :: ·)
      else .error (.unexpectedChar c)
    else
      match Token.ofPunctuation? c with
      | some t => (tokenize rest).map (t :: ·)
      | none => .error (.unexpectedChar (leadByte c))
termination_by cs.length
decreasing_by
  all_goals
    have h₁ := fun p => length_dropWhile_le p rest
    have h₂ := h₁ isWordChar
    have h₃ := h₁ Char.isDigit
    simp only [List.length_cons]
    omega

/-- What follows the opening parenthesis of the first description of a record without a name. -/
def anonymousStart : List Char → Option (List Char)
  | [] => none
  | c :: cs =>
    if "(unnamed".toList.isPrefixOf (c :: cs) || "(anonymous".toList.isPrefixOf (c :: cs) then some cs
    else anonymousStart cs

/-- The description inside the first parentheses that describe a record without a name. -/
def anonymousKey (text : String) : Option String :=
  (anonymousStart text.toList).bind fun inner =>
    (splitParens inner).map fun (inside, _) => String.ofList inside

end QualType

end Bindery
