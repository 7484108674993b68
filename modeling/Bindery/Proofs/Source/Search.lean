import Bindery.Source.Parameters

/-! The search for parameters by offsets. Every look at the text is checked, and the steps are
counted. -/

namespace Bindery

/-- What goes wrong with a text: a part of it does not begin and end between characters, a byte is
outside it, or a count is below zero. -/
inductive Fault where
  | cut
  | byte
  | count
  deriving DecidableEq, Repr

/-- A search that is still going on when its steps are over, stops at a fault or gives a result. -/
abbrev Search (α : Type) : Type :=
  ExceptT Fault Option α

namespace Search

def goesOn {α : Type} : Search α :=
  ExceptT.mk none

def orFault {α : Type} (fault : Fault) : Option α → Search α
  | some a => pure a
  | none => throw fault

/-- The bytes of the UTF-8 form. -/
def bytes (text : List Char) : List UInt8 :=
  text.flatMap String.utf8EncodeChar

/-- A byte as the character with its code. -/
def char (b : UInt8) : Char :=
  Char.ofNat b.toNat

def slice (text : List Char) (start stop : Nat) : Search (List Char) :=
  orFault .cut (slice? start stop text)

def byte (text : List Char) (i : Nat) : Search UInt8 :=
  orFault .byte (bytes text)[i]?

def range (text : List Char) (start stop : Nat) : Search (List UInt8) :=
  if start ≤ stop ∧ stop ≤ (bytes text).length then
    pure (((bytes text).drop start).take (stop - start))
  else throw .byte

def minus (a b : Nat) : Search Nat :=
  if b ≤ a then pure (a - b) else throw .count

/-- Where a pattern is found first, counted in elements. -/
def position? {α : Type} [BEq α] (pattern : List α) : List α → Option Nat
  | [] => none
  | x :: xs =>
    if pattern.isPrefixOf (x :: xs) then some 0 else (position? pattern xs).map (· + 1)

/-- Where a pattern is found first, counted in bytes. -/
def find? (pattern cs : List Char) : Option Nat :=
  (position? pattern cs).map fun n => byteLength (cs.take n)

/-- The offset of what stands behind blanks and comments. -/
def skipTrivia : Nat → List Char → Nat → Search Nat
  | 0, _, _ => goesOn
  | steps + 1, text, i => do
    let rest ← slice text i (byteLength text)
    let trimmed := trimStart rest
    let i := i + (← minus (byteLength rest) (byteLength trimmed))
    if ['/', '*'].isPrefixOf trimmed then
      match find? ['*', '/'] trimmed with
      | some stop => skipTrivia steps text (i + (stop + 2))
      | none => return byteLength text
    else if ['/', '/'].isPrefixOf trimmed then
      match find? ['\n'] trimmed with
      | some stop => skipTrivia steps text (i + (stop + 1))
      | none => return byteLength text
    else return i

/-- The length of the block comment that stands at an offset, if one does. -/
def commentLength (text : List Char) (i stop : Nat) : Search (Option Nat) := do
  let rest ← range text i stop
  if !(bytes ['/', '*']).isPrefixOf rest then return none
  let content ← range text (i + 2) stop
  match position? (bytes ['*', '/']) content with
  | some n => return some (n + 4)
  | none => return some (← minus stop i)

/-- The offset of the bracket that closes a group; `depth` counts the groups that are open. -/
def matching (opening closing : Char) : Nat → List Char → Nat → Nat → Search (Option Nat)
  | 0, _, _, _ => goesOn
  | steps + 1, text, depth, i => do
    if i < (bytes text).length then
      match ← commentLength text i (bytes text).length with
      | some length => matching opening closing steps text depth (i + length)
      | none =>
        let c := char (← byte text i)
        if c == opening then matching opening closing steps text (depth + 1) (i + 1)
        else if c == closing then
          let depth ← minus depth 1
          if depth == 0 then return some i
          else matching opening closing steps text depth (i + 1)
        else matching opening closing steps text depth (i + 1)
    else return none

/-- The offset of the parenthesis that opens the list behind a declared name. -/
def listStart : Nat → List Char → Nat → Search (Option Nat)
  | 0, _, _ => goesOn
  | steps + 1, text, i => do
    let i ← skipTrivia (steps + 1) text i
    match (bytes text)[i]? with
    | none => return none
    | some b =>
      if char b == ')' then listStart steps text (i + 1)
      else if char b == '[' then
        match ← matching '[' ']' (steps + 1) text 0 i with
        | none => return none
        | some close => listStart steps text (close + 1)
      else if char b == '(' then return some i
      else return none

/-- The parts between the commas of a list; the one that is gone through begins at `start`. -/
def split : Nat → List Char → Nat → Nat → Nat → Nat → Search (List (Nat × Nat))
  | 0, _, _, _, _, _ => goesOn
  | steps + 1, text, stop, depth, start, i => do
    if i < stop then
      match ← commentLength text i stop with
      | some length => split steps text stop depth start (i + length)
      | none =>
        let c := char (← byte text i)
        if c == '(' || c == '[' then split steps text stop (depth + 1) start (i + 1)
        else if c == ')' || c == ']' then split steps text stop (depth - 1) start (i + 1)
        else if c == ',' && depth == 0 then
          return (start, i) :: (← split steps text stop depth (i + 1) (i + 1))
        else split steps text stop depth start (i + 1)
    else return [(start, stop)]

/-- How many bytes at the start of a text can belong to a name. -/
def nameLength (cs : List Char) : Nat :=
  ((bytes cs).takeWhile fun b => ParamText.isNameChar (char b)).length

def words : Nat → List Char → Nat → Nat → Search (List (String × Nat))
  | 0, _, _, _ => goesOn
  | steps + 1, text, stop, i => do
    if i < stop then
      match ← commentLength text i stop with
      | some length => words steps text stop (i + length)
      | none =>
        let c := char (← byte text i)
        if c == '[' then
          match ← matching '[' ']' (steps + 1) (← slice text 0 stop) 0 i with
          | some close => words steps text stop (close + 1)
          | none => words steps text stop stop
        else if c.isAlpha || c == '_' then
          let length := nameLength (← slice text i stop)
          let name ← slice text i (i + length)
          return (String.ofList name, i) :: (← words steps text stop (i + length))
        else words steps text stop (i + 1)
    else return []

/-- The offset of what stands behind stars and blanks. -/
def skipStars : Nat → List Char → Nat → Nat → Search Nat
  | 0, _, _, _ => goesOn
  | steps + 1, text, stop, i => do
    if i < stop then
      let c := char (← byte text i)
      if c == '*' || isAsciiBlank c then skipStars steps text stop (i + 1) else return i
    else return i

/-- The parameter in a part of a list; `nested` goes on with the list of a function that it points to. -/
def piece (nested : List Char → Nat → Search (Option (List ParamText))) (steps : Nat)
    (text : List Char) (start stop : Nat) : Search (Option ParamText) := do
  let rest ← slice text start stop
  let start ← minus (start + byteLength rest) (byteLength (trimStart rest))
  let body := trimEnd (← slice text start stop)
  if body.isEmpty || body == ['.', '.', '.'] then return none
  match find? ['(', '*'] body with
  | some star =>
    let nameStart ← skipStars steps text stop (start + star + 2)
    let length := nameLength (← slice text nameStart stop)
    let name ← slice text nameStart (nameStart + length)
    let params ← nested (← slice text 0 stop) (nameStart + length)
    let nameOffset := if name.isEmpty then start + star else nameStart
    return some ⟨String.ofList name, start, nameOffset, params⟩
  | none =>
    match ParamText.declaredName body (← words steps text (start + byteLength body) start) with
    | some (name, offset) => return some ⟨name, start, offset, none⟩
    | none => return some ⟨"", start, start + byteLength body, none⟩

def recover : Nat → List Char → Nat → Search (Option (List ParamText))
  | 0, _, _ => goesOn
  | steps + 1, text, after => do
    match ← listStart (steps + 1) text after with
    | none => return none
    | some opening =>
      match ← matching '(' ')' (steps + 1) text 0 opening with
      | none => return none
      | some close =>
        let parts ← split (steps + 1) text close 0 (opening + 1) (opening + 1)
        let params ← parts.filterMapM fun part =>
          piece (recover steps) (steps + 1) text part.1 part.2
        match params with
        | [only] =>
          if only.name.isEmpty then
            let type ← slice text only.start only.nameOffset
            return some (if trim type == "void".toList then [] else params)
          else return some params
        | _ => return some params

end Search

end Bindery
