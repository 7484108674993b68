import Bindery.Text.Blank
import Bindery.Text.Offset

/-! Finding the parameters of a function from the text behind a declared name. Offsets count bytes
from the start of the whole text; a list of characters is the text from some offset up to the end
of the part in question. -/

namespace Bindery

/-- A parameter as written: its name, empty if it has none, where its type starts, where its name
stands or its type ends, and the parameters of a function that it points to. -/
structure ParamText where
  name : String
  start : Nat
  nameOffset : Nat
  nested : Option (List ParamText)

namespace ParamText

/-- What follows the end of a block comment, given what follows its opening. -/
def afterBlockComment : List Char → List Char
  | '*' :: '/' :: cs => cs
  | _ :: cs => afterBlockComment cs
  | [] => []

theorem afterBlockComment_length (cs : List Char) : (afterBlockComment cs).length ≤ cs.length := by
  fun_induction afterBlockComment cs <;> (simp_all only [List.length_cons, List.length_nil]; omega)

def afterLine : List Char → List Char
  | '\n' :: cs => cs
  | _ :: cs => afterLine cs
  | [] => []

theorem afterLine_length (cs : List Char) : (afterLine cs).length ≤ cs.length := by
  fun_induction afterLine cs <;> (simp_all only [List.length_cons, List.length_nil]; omega)

/-- Leaves blanks and comments out. The star that opens a comment may also close it. -/
def skipTrivia (cs : List Char) : List Char :=
  match _h : trimStart cs with
  | '/' :: '*' :: rest => skipTrivia (afterBlockComment ('*' :: rest))
  | '/' :: '/' :: rest => skipTrivia (afterLine rest)
  | r => r
termination_by cs.length
decreasing_by
  · have h₁ := length_dropWhile_le isBlank cs
    have h₂ := afterBlockComment_length ('*' :: rest)
    rw [trimStart] at _h
    simp only [_h, List.length_cons] at h₁ h₂
    omega
  · have h₁ := length_dropWhile_le isBlank cs
    have h₂ := afterLine_length rest
    rw [trimStart] at _h
    simp only [_h, List.length_cons] at h₁
    omega

theorem skipTrivia_length (cs : List Char) : (skipTrivia cs).length ≤ cs.length := by
  fun_induction skipTrivia cs with
  | case1 cs rest h ih =>
    have h₁ := length_dropWhile_le isBlank cs
    have h₂ := afterBlockComment_length ('*' :: rest)
    rw [trimStart] at h
    simp only [h, List.length_cons] at h₁ h₂
    omega
  | case2 cs rest h ih =>
    have h₁ := length_dropWhile_le isBlank cs
    have h₂ := afterLine_length rest
    rw [trimStart] at h
    simp only [h, List.length_cons] at h₁
    omega
  | case3 cs => exact length_dropWhile_le isBlank cs

/-- What follows the bracket that closes a group, given what follows its opening one when `depth`
inner groups are open. Block comments do not count. -/
def afterGroup (opening closing : Char) (depth : Nat) (cs : List Char) : Option (List Char) :=
  match cs with
  | [] => none
  | '/' :: '*' :: rest => afterGroup opening closing depth (afterBlockComment rest)
  | c :: rest =>
    if c == opening then afterGroup opening closing (depth + 1) rest
    else if c == closing then
      match depth with
      | 0 => some rest
      | d + 1 => afterGroup opening closing d rest
    else afterGroup opening closing depth rest
termination_by cs.length
decreasing_by
  · have := afterBlockComment_length rest
    simp only [List.length_cons]
    omega
  all_goals simp only [List.length_cons]; omega

theorem afterGroup_length {opening closing : Char} {depth : Nat} {cs rest : List Char}
    (h : afterGroup opening closing depth cs = some rest) : rest.length < cs.length := by
  fun_induction afterGroup opening closing depth cs with
  | case1 => simp at h
  | case2 depth r ih =>
    have := afterBlockComment_length r
    have := ih h
    simp only [List.length_cons]
    omega
  | case3 depth c r _ _ ih => have := ih h; simp only [List.length_cons]; omega
  | case4 c r => simp_all
  | case5 c r _ _ _ d ih => have := ih h; simp only [List.length_cons]; omega
  | case6 depth c r _ _ _ ih => have := ih h; simp only [List.length_cons]; omega

/-- What follows the parenthesis that opens the list of parameters behind a declared name. Closing
parentheses and array lengths may come before it. -/
def listBody (cs : List Char) : Option (List Char) :=
  match _h : skipTrivia cs with
  | ')' :: rest => listBody rest
  | '[' :: rest =>
    match _h' : afterGroup '[' ']' 0 rest with
    | some rest' => listBody rest'
    | none => none
  | '(' :: rest => some rest
  | _ => none
termination_by cs.length
decreasing_by
  · have := skipTrivia_length cs
    simp only [_h, List.length_cons] at this
    omega
  · have := skipTrivia_length cs
    have := afterGroup_length _h'
    simp only [_h, List.length_cons] at *
    omega

theorem listBody_length {cs rest : List Char} (h : listBody cs = some rest) :
    rest.length < cs.length := by
  fun_induction listBody cs with
  | case1 cs r hs ih =>
    have := skipTrivia_length cs
    have := ih h
    simp only [hs, List.length_cons] at *
    omega
  | case2 cs r hs r' hg ih =>
    have := skipTrivia_length cs
    have := afterGroup_length hg
    have := ih h
    simp only [hs, List.length_cons] at *
    omega
  | case3 => simp at h
  | case4 cs r hs =>
    have := skipTrivia_length cs
    simp only [hs, List.length_cons, Option.some.injEq] at *
    subst h
    omega
  | case5 => simp at h

/-- The text from the first comma outside brackets and block comments; empty if there is none. -/
def fromComma (depth : Nat) (cs : List Char) : List Char :=
  match cs with
  | [] => []
  | '/' :: '*' :: rest => fromComma depth (afterBlockComment rest)
  | c :: rest =>
    if c == '(' || c == '[' then fromComma (depth + 1) rest
    else if c == ')' || c == ']' then fromComma (depth - 1) rest
    else if c == ',' && depth == 0 then c :: rest
    else fromComma depth rest
termination_by cs.length
decreasing_by
  · have := afterBlockComment_length rest
    simp only [List.length_cons]
    omega
  all_goals simp only [List.length_cons]; omega

theorem fromComma_length (depth : Nat) (cs : List Char) :
    (fromComma depth cs).length ≤ cs.length := by
  fun_induction fromComma depth cs with
  | case2 depth r ih =>
    have := afterBlockComment_length r
    simp only [List.length_cons]
    omega
  | _ => (simp_all only [List.length_cons, List.length_nil]; omega)

/-- The part of `cs` before its tail `rest`. -/
def before (cs rest : List Char) : List Char :=
  cs.take (cs.length - rest.length)

/-- The text before the first `(*` and the text behind it. -/
def splitStar : List Char → Option (List Char × List Char)
  | '(' :: '*' :: cs => some ([], cs)
  | c :: cs => (splitStar cs).map fun p => (c :: p.1, p.2)
  | [] => none

theorem splitStar_pos {cs : List Char} {p : List Char × List Char}
    (h : splitStar cs = some p) : 0 < cs.length := by
  cases cs with
  | nil => simp [splitStar] at h
  | cons c cs => simp

def isNameChar (c : Char) : Bool :=
  c.isAlphanum || c == '_'

/-- The names outside block comments and array lengths, with their offsets. -/
def wordsAt (offset : Nat) (cs : List Char) : List (String × Nat) :=
  match cs with
  | [] => []
  | '/' :: '*' :: rest =>
    let after := afterBlockComment rest
    wordsAt (offset + byteLength (before cs after)) after
  | '[' :: rest =>
    match _h : afterGroup '[' ']' 0 rest with
    | some after => wordsAt (offset + byteLength (before cs after)) after
    | none => []
  | c :: rest =>
    if c.isAlpha || c == '_' then
      let name := c :: rest.takeWhile isNameChar
      (String.ofList name, offset) ::
        wordsAt (offset + byteLength name) (rest.dropWhile isNameChar)
    else wordsAt (offset + c.utf8Size) rest
termination_by cs.length
decreasing_by
  · have := afterBlockComment_length rest
    simp only [List.length_cons]
    omega
  · have := afterGroup_length _h
    simp only [List.length_cons]
    omega
  · have := length_dropWhile_le isNameChar rest
    simp only [List.length_cons]
    omega
  · simp only [List.length_cons]
    omega

/-- Words that are part of a type and never the name of a parameter. -/
def typeKeywords : List String :=
  ["void", "char", "short", "int", "long", "float", "double", "signed", "unsigned", "_Bool",
    "bool", "const", "volatile", "restrict", "struct", "union", "enum"]

/-- Whether a text ends in a star when closing brackets are left out. -/
def endsInStar (body : List Char) : Bool :=
  (body.reverse.dropWhile (· == ']')).head? == some '*'

/-- The last word of a parameter, when it is the name and not part of the type. -/
def declaredName (body : List Char) (words : List (String × Nat)) : Option (String × Nat) :=
  match words.reverse with
  | last :: previous :: _ =>
    if typeKeywords.contains last.1 || ["struct", "union", "enum"].contains previous.1 ||
        endsInStar body then none
    else some last
  | _ => none

/-- A parameter that is no pointer to a function. -/
def plain (start : Nat) (body : List Char) : ParamText :=
  match declaredName body (wordsAt start body) with
  | some (name, offset) => ⟨name, start, offset, none⟩
  | none => ⟨"", start, start + byteLength body, none⟩

/-- The text of the type of a parameter, in a list that starts at `offset`. -/
def typeText (offset : Nat) (cs : List Char) (p : ParamText) : List Char :=
  (slice? (p.start - offset) (p.nameOffset - offset) cs).getD []

/-- Whether a list consists of a type `void` without a name. -/
def isVoidList (offset : Nat) (cs : List Char) : List ParamText → Bool
  | [p] => p.name.isEmpty && trim (typeText offset cs p) == "void".toList
  | _ => false

mutual

/-- The parameters in the list behind a declared name; `cs` is the text behind the name, which
starts at `offset`. -/
def recoverFrom (offset : Nat) (cs : List Char) : Option (List ParamText) :=
  match _hb : listBody cs with
  | none => none
  | some body =>
    match _hg : afterGroup '(' ')' 0 body with
    | none => none
    | some rest =>
      let inside := body.take (body.length - rest.length - 1)
      let start := offset + byteLength (before cs body)
      let params := listed start inside
      some (if isVoidList start inside params then [] else params)
termination_by (cs.length, 0)
decreasing_by
  have := listBody_length _hb
  exact Prod.Lex.left _ _ (by rw [List.length_take]; omega)

def listed (offset : Nat) (cs : List Char) : List ParamText :=
  match _hc : fromComma 0 cs with
  | [] => (piece offset cs).toList
  | _ :: rest =>
    let first := cs.take (cs.length - rest.length - 1)
    (piece offset first).toList ++ listed (offset + byteLength first + 1) rest
termination_by (cs.length, 2)
decreasing_by
  · exact Prod.Lex.right _ (by omega)
  · have := fromComma_length 0 cs
    simp only [_hc, List.length_cons] at this
    exact Prod.Lex.left _ _ (by rw [List.length_take]; omega)
  · have := fromComma_length 0 cs
    simp only [_hc, List.length_cons] at this
    exact Prod.Lex.left _ _ (by omega)

/-- The parameter written in a part of the list; blanks and an ellipsis are none. -/
def piece (offset : Nat) (cs : List Char) : Option ParamText :=
  let text := trimStart cs
  let start := offset + byteLength (before cs text)
  let body := trimEnd text
  if body.isEmpty || body == ['.', '.', '.'] then none
  else
    match _hs : splitStar body with
    | none => some (plain start body)
    | some (head, _) =>
      let behind := text.drop (head.length + 2)
      let named := behind.dropWhile fun c => c == '*' || isAsciiBlank c
      let name := named.takeWhile isNameChar
      let nameStart := start + byteLength (before text named)
      let after := named.dropWhile isNameChar
      let nested := recoverFrom (nameStart + byteLength name) after
      if name.isEmpty then some ⟨"", start, start + byteLength head, nested⟩
      else some ⟨String.ofList name, start, nameStart, nested⟩
termination_by (cs.length, 1)
decreasing_by
  have h₁ := length_dropWhile_le isBlank cs
  have h₂ := length_dropWhile_le (fun c => c == '*' || isAsciiBlank c)
    ((trimStart cs).drop (head.length + 2))
  have h₃ := length_dropWhile_le isNameChar
    (((trimStart cs).drop (head.length + 2)).dropWhile fun c => c == '*' || isAsciiBlank c)
  have h₄ : 0 < (trimEnd (trimStart cs)).length := splitStar_pos _hs
  have h₅ := trimEnd_length (trimStart cs)
  rw [List.length_drop] at h₂
  rw [trimStart] at *
  exact Prod.Lex.left _ _ (by omega)

end

/-- An offset that is past the end of a text or inside a character. -/
structure BadOffset where
  offset : Nat
  deriving DecidableEq, Repr

/-- The parameters behind a declared name that ends at `after`, if a list of parameters is found
there. -/
def recover (text : String) (after : Nat) : Except BadOffset (Option (List ParamText)) :=
  match dropBytes? after text.toList with
  | none => .error ⟨after⟩
  | some cs => .ok (recoverFrom after cs)

end ParamText

end Bindery
