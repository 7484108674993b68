import Bindery.Text.Integer

/-! Blanks, comments, strings and keys of TOML. A reader returns what it has read and what is left. -/

namespace Bindery.Toml

/-- Characters that may stand in comments and strings: all but control characters, and the tab. -/
def isTextChar (c : Char) : Bool :=
  c == '\t' || (0x20 ≤ c.toNat && c.toNat != 0x7F)

def skipBlanks (cs : List Char) : List Char :=
  cs.dropWhile fun c => c == ' ' || c == '\t'

def afterBreak? : List Char → Option (List Char)
  | '\n' :: cs => some cs
  | '\r' :: '\n' :: cs => some cs
  | _ => none

/-- What follows blanks, a comment and the end of the line. -/
def endLine? (cs : List Char) : Option (List Char) :=
  let cs := skipBlanks cs
  let cs := if cs.head? == some '#' then cs.dropWhile isTextChar else cs
  if cs.isEmpty then some [] else afterBreak? cs

/-- What follows blanks, comments and line breaks. -/
def skipLines (cs : List Char) : List Char :=
  let cs' := skipBlanks cs
  match endLine? cs' with
  | none => cs'
  | some rest => if _h : rest.length < cs.length then skipLines rest else cs'
termination_by cs.length

/-- The character that a backslash and a letter stand for. -/
def plainEscape? (c : Char) : Option Char :=
  if c == '"' || c == '\\' then some c
  else if c == 'b' then some '\x08'
  else if c == 't' then some '\t'
  else if c == 'n' then some '\n'
  else if c == 'f' then some '\x0c'
  else if c == 'r' then some '\r'
  else none

/-- The number of digits behind a letter that introduces the number of a character. -/
def escapeWidth? (c : Char) : Option Nat :=
  if c == 'u' then some 4 else if c == 'U' then some 8 else none

/-- The character that `n` hexadecimal digits stand for. -/
def codePoint? (n : Nat) (digits : List Char) : Option Char :=
  if digits.length == n then
    (digitsValue? 16 0 digits).bind fun code =>
      if code < 0xD800 || (0xE000 ≤ code && code < 0x110000) then some (Char.ofNat code) else none
  else none

/-- The rest of a string in double quotes, behind the characters `seen` in reverse. -/
def basicBody (seen : List Char) (cs : List Char) : Option (String × List Char) :=
  match cs with
  | [] => none
  | '"' :: rest => some (String.ofList seen.reverse, rest)
  | '\\' :: e :: rest =>
    match escapeWidth? e with
    | some n =>
      match codePoint? n (rest.take n) with
      | some c => basicBody (c :: seen) (rest.drop n)
      | none => none
    | none =>
      match plainEscape? e with
      | some c => basicBody (c :: seen) rest
      | none => none
  | c :: rest => if isTextChar c && c != '\\' then basicBody (c :: seen) rest else none
termination_by cs.length
decreasing_by all_goals simp only [List.length_cons, List.length_drop]; omega

/-- The rest of a string in single quotes. -/
def literalBody (seen : List Char) : List Char → Option (String × List Char)
  | [] => none
  | c :: rest =>
    if c == '\'' then some (String.ofList seen.reverse, rest)
    else if isTextChar c then literalBody (c :: seen) rest
    else none

/-- The number of quotes at the front. -/
def quoteRun (q : Char) (cs : List Char) : Nat :=
  (cs.takeWhile (· == q)).length

/-- Whether a string of many lines ends at the quotes at the front. -/
def closes (q : Char) (cs : List Char) : Bool :=
  3 ≤ quoteRun q cs

/-- A string of many lines that ends at the quotes at the front. Up to two of the quotes belong to the
string. -/
def closed (q : Char) (seen cs : List Char) : String × List Char :=
  let n := min (quoteRun q cs) 5
  (String.ofList (seen.reverse ++ List.replicate (n - 3) q), cs.drop n)

/-- What follows blanks and line breaks. -/
def skipSpace : List Char → List Char
  | '\r' :: '\n' :: cs => skipSpace cs
  | c :: cs => if c == ' ' || c == '\t' || c == '\n' then skipSpace cs else c :: cs
  | [] => []

/-- What follows a line break that a backslash takes out, together with the blanks and line breaks
behind it. -/
def afterContinuation? (cs : List Char) : Option (List Char) :=
  (afterBreak? (skipBlanks cs)).map skipSpace

/-- The rest of a string of many lines in double quotes. -/
def longBasicBody (seen : List Char) (cs : List Char) : Option (String × List Char) :=
  if closes '"' cs then some (closed '"' seen cs)
  else
    match cs with
    | [] => none
    | '\r' :: '\n' :: rest => longBasicBody ('\n' :: seen) rest
    | '\\' :: e :: rest =>
      match escapeWidth? e with
      | some n =>
        match codePoint? n (rest.take n) with
        | some c => longBasicBody (c :: seen) (rest.drop n)
        | none => none
      | none =>
        match plainEscape? e with
        | some c => longBasicBody (c :: seen) rest
        | none =>
          match afterContinuation? (e :: rest) with
          | some rest' =>
            if _h : rest'.length ≤ rest.length then longBasicBody seen rest' else none
          | none => none
    | c :: rest =>
      if c == '\n' || (isTextChar c && c != '\\') then longBasicBody (c :: seen) rest else none
termination_by cs.length
decreasing_by all_goals simp only [List.length_cons, List.length_drop]; omega

/-- The rest of a string of many lines in single quotes. -/
def longLiteralBody (seen : List Char) (cs : List Char) : Option (String × List Char) :=
  if closes '\'' cs then some (closed '\'' seen cs)
  else
    match cs with
    | [] => none
    | '\r' :: '\n' :: rest => longLiteralBody ('\n' :: seen) rest
    | c :: rest => if c == '\n' || isTextChar c then longLiteralBody (c :: seen) rest else none

/-- The text behind a line break at the start, if there is one. -/
def dropBreak (cs : List Char) : List Char :=
  (afterBreak? cs).getD cs

/-- A string that starts with a quote. -/
def string? (cs : List Char) : Option (String × List Char) :=
  if "\"\"\"".toList.isPrefixOf cs then longBasicBody [] (dropBreak (cs.drop 3))
  else if "'''".toList.isPrefixOf cs then longLiteralBody [] (dropBreak (cs.drop 3))
  else if cs.head? == some '"' then basicBody [] (cs.drop 1)
  else if cs.head? == some '\'' then literalBody [] (cs.drop 1)
  else none

def isBareChar (c : Char) : Bool :=
  c.isAlphanum || c == '-' || c == '_'

/-- A key without dots. -/
def simpleKey? (cs : List Char) : Option (String × List Char) :=
  match cs with
  | '"' :: rest => basicBody [] rest
  | '\'' :: rest => literalBody [] rest
  | cs =>
    let word := cs.takeWhile isBareChar
    if word.isEmpty then none else some (String.ofList word, cs.dropWhile isBareChar)

/-- Keys with dots between them, behind others that are given in reverse. -/
def keyPath? (seen : List String) (cs : List Char) : Option (List String × List Char) :=
  match simpleKey? (skipBlanks cs) with
  | none => none
  | some (key, rest) =>
    match skipBlanks rest with
    | '.' :: rest =>
      if _h : rest.length < cs.length then keyPath? (key :: seen) rest else none
    | rest => some ((key :: seen).reverse, rest)
termination_by cs.length

/-- How deep keys and values may be nested. -/
def nestingLimit : Nat := 80

/-- A key: the keys on the way and the last one. -/
def key? (cs : List Char) : Option ((List String × String) × List Char) := do
  let (keys, rest) ← keyPath? [] cs
  let last ← keys.getLast?
  if keys.length < nestingLimit then some ((keys.dropLast, last), rest) else none

end Bindery.Toml
