import Bindery.Proofs.Source.Search
import Bindery.QualType.Parser

/-! The reading of a type by positions in a list of tokens. Every look is checked, and the steps are
counted. -/

namespace Bindery

namespace QualType

open Search (goesOn slice byte bytes char minus)

/-- A search that refuses some texts. -/
abbrev Reading (α : Type) : Type :=
  ExceptT QualTypeError Search α

/-- What is refused, or not, without a search. -/
def settled {α : Type} (x : Except QualTypeError α) : Reading α :=
  ExceptT.mk (pure x)

section Groups

variable {α : Type} (opens closes : α → Bool) (width : α → Nat)

/-- The position of what closes a group; `depth` counts the groups that are open, and elements may be wider
than one. -/
def groupEnd : Nat → Nat → List α → Search (Option Nat)
  | _, _, [] => pure none
  | depth, i, x :: xs =>
    if opens x then groupEnd (depth + 1) (i + width x) xs
    else if closes x then do
      let depth ← minus depth 1
      if depth == 0 then pure (some i) else groupEnd depth (i + width x) xs
    else groupEnd depth (i + width x) xs

end Groups

def matchingParen (text : List Char) (opening : Nat) : Search (Option Nat) := do
  groupEnd (· == '(') (· == ')') Char.utf8Size 0 opening (← slice text opening (byteLength text))

/-- The offset of the first byte that does not belong to what stands at an offset. -/
def runEnd (belongs : Char → Bool) : Nat → List Char → Nat → Search Nat
  | 0, _, _ => goesOn
  | steps + 1, text, i => do
    if i < (bytes text).length then
      if belongs (char (← byte text i)) then runEnd belongs steps text (i + 1) else pure i
    else pure i

/-- The description in parentheses behind a tag keyword, if there is one, and the offset behind it. -/
def descriptionAt (text : List Char) (i : Nat) : Reading (Option (String × Nat)) := do
  let rest := trimStart (← slice text i (byteLength text))
  if rest.head? == some '(' then
    let opening ← minus (byteLength text) (byteLength rest)
    match ← matchingParen text opening with
    | none => throw .unbalanced
    | some close =>
      let key ← slice text (opening + 1) close
      return some (String.ofList key, close + 1)
  else return none

/-- The tokens that begin at an offset, and where the text goes on behind them. -/
def nextAt (steps : Nat) (text : List Char) (i : Nat) : Reading (List Token × Nat) := do
  let c := char (← byte text i)
  if isAsciiBlank c then return ([], i + 1)
  else if isWordStart c then
    let stop ← runEnd isWordChar steps text i
    let word := String.ofList (← slice text i stop)
    if isTag word then
      match ← descriptionAt text stop with
      | some (key, behind) => return ([.word word, .anonymous key], behind)
      | none => return ([.word word], stop)
    else return ([.word word], stop)
  else if c.isDigit then
    let stop ← runEnd Char.isDigit steps text i
    let n := decimalValue (← slice text i stop)
    if n < limit64 then return ([.number n], stop) else throw (.unexpectedChar c)
  else if ['.', '.', '.'].isPrefixOf (← slice text i (byteLength text)) then
    return ([.ellipsis], i + 3)
  else
    match Token.ofPunctuation? c with
    | some t => return ([t], i + 1)
    | none => throw (.unexpectedChar c)

/-- The tokens of a text from an offset on. -/
def tokensAt : Nat → List Char → Nat → Reading (List Token)
  | 0, _, _ => goesOn
  | steps + 1, text, i => do
    if i < (bytes text).length then
      let (ts, i) ← nextAt (steps + 1) text i
      return ts ++ (← tokensAt steps text i)
    else return []

/-- The productions that take tokens. -/
inductive Production where
  | specifier | star | qualifier | array | parameters | group
  deriving DecidableEq, Repr

/-- The tokens that a production may take. -/
def Production.takes : Production → Token → Bool
  | .specifier, .word _ => true
  | .specifier, .anonymous _ => true
  | .star, t => t == .star
  | .qualifier, .word w => w == "const" || ignoredQualifiers.contains w
  | .array, .number _ => true
  | .array, t => t == .openBracket || t == .closeBracket
  | .parameters, t => t == .openParen || t == .comma || t == .ellipsis || t == .closeParen
  | .group, t => t == .openParen || t == .closeParen
  | _, _ => false

/-- Where a reader is in a list of tokens, and which positions were taken on the way, by which productions. -/
structure Progress where
  position : Nat := 0
  taken : List (Production × Nat) := []

namespace Progress

def take (production : Production) (p : Progress) : Progress :=
  ⟨p.position + 1, p.taken ++ [(production, p.position)]⟩

def moved (p : Progress) (i : Nat) : Progress :=
  { p with position := i }

end Progress

variable (anonymous : String → Option String) (tokens : List Token)

/-- The token at a position. Nothing stands right behind the last one; to look further is a fault, as it is
behind the end of a text. -/
def look (i : Nat) : Search (Option Token) :=
  if i ≤ tokens.length then pure tokens[i]? else throw .byte

/-- Refuses the token at a position, whatever it is. -/
def refuse {α : Type} (i : Nat) : Reading α := do
  let next ← look tokens i
  throw (unexpected next.toList).error

def specifiersAt : Nat → Specifiers → Progress → Reading (Specifiers × Progress)
  | 0, _, _ => goesOn
  | steps + 1, s, p => do
    match ← look tokens p.position with
    | some (.word w) =>
      if w == "const" then specifiersAt steps { s with isConst := true } (p.take .specifier)
      else if ignoredQualifiers.contains w then specifiersAt steps s (p.take .specifier)
      else if isTag w && s.base.isNone && s.words.isEmpty then
        let p := p.take .specifier
        match ← look tokens p.position with
        | none => throw .unexpectedEnd
        | some t =>
          let base ← settled ((taggedType anonymous w t).mapError (·.error))
          specifiersAt steps { s with base := some base } (p.take .specifier)
      else if builtinWords.contains w && s.base.isNone then
        specifiersAt steps { s with words := s.words ++ [w] } (p.take .specifier)
      else if s.base.isNone && s.words.isEmpty then
        let base := RawType.ofKind (.unexposed w) w
        specifiersAt steps { s with base := some base, asked := [w] } (p.take .specifier)
      else return (s, p)
    | _ => return (s, p)

def qualifiersAt : Nat → RawType → Progress → Reading (RawType × Progress)
  | 0, _, _ => goesOn
  | steps + 1, t, p => do
    match ← look tokens p.position with
    | some (.word w) =>
      if w == "const" then qualifiersAt steps t.constant (p.take .qualifier)
      else if ignoredQualifiers.contains w then qualifiersAt steps t (p.take .qualifier)
      else return (t, p)
    | _ => return (t, p)

def starsAt : Nat → RawType → Progress → Reading (RawType × Progress)
  | 0, _, _ => goesOn
  | steps + 1, t, p => do
    if (← look tokens p.position) == some .star then
      let (t, p) ← qualifiersAt tokens (steps + 1) (.pointer t) (p.take .star)
      starsAt steps t p
    else return (t, p)

/-- Takes the token that has to stand next. -/
def expectAt (production : Production) (expected : Token) (p : Progress) : Reading Progress := do
  if (← look tokens p.position) == some expected then return p.take production
  else refuse tokens p.position

/-- The rest of `[n]` or `[]` behind the opening bracket. -/
def arrayAt (p : Progress) : Reading (Option Nat × Progress) := do
  match ← look tokens p.position with
  | some (.number n) => return (some n, ← expectAt tokens .array .closeBracket (p.take .array))
  | _ => return (none, ← expectAt tokens .array .closeBracket p)

/-- Whether a parenthesis groups a declarator: then a star or another parenthesis stands behind it. -/
def groupsAt (i : Nat) : Search Bool := do
  if (← look tokens i) == some .openParen then
    let next ← look tokens (i + 1)
    return next == some .star || next == some .openParen
  else return false

/-- The position of the parenthesis that closes the group opened at a position. -/
def closing (opening : Nat) : Search (Option Nat) :=
  groupEnd (· == .openParen) (· == .closeParen) (fun _ => 1) 0 opening (tokens.drop opening)

mutual

def typeNameAt : Nat → Progress → Reading ((RawType × List String) × Progress)
  | 0, _ => goesOn
  | steps + 1, p => do
    let (s, p) ← specifiersAt anonymous tokens (steps + 1) {} p
    let next ← look tokens p.position
    let base ← settled ((s.type next.toList).mapError (·.error))
    let ((t, asked), p) ← declaratorAt steps base p
    return ((t, s.asked ++ asked), p)

/-- The suffixes behind a group are read first; then the reader goes back into the group. -/
def declaratorAt : Nat → RawType → Progress → Reading ((RawType × List String) × Progress)
  | 0, _, _ => goesOn
  | steps + 1, t, p => do
    let (t, p) ← starsAt tokens (steps + 1) t p
    if ← groupsAt tokens p.position then
      match ← closing tokens p.position with
      | none => throw .unbalanced
      | some close =>
        let (sfx, behind) ← suffixesAt steps (((p.take .group).moved close).take .group)
        let first := sfx.flatMap Suffix.asked
        let ((t, second), inside) ←
          declaratorAt steps (applySuffixes sfx t) (behind.moved (p.position + 1))
        if inside.position == close then
          return ((t, first ++ second), inside.moved behind.position)
        else refuse tokens inside.position
    else
      let (sfx, p) ← suffixesAt steps p
      return ((applySuffixes sfx t, sfx.flatMap Suffix.asked), p)

def suffixesAt : Nat → Progress → Reading (List Suffix × Progress)
  | 0, _ => goesOn
  | steps + 1, p => do
    match ← look tokens p.position with
    | some .openBracket =>
      let (count, p) ← arrayAt tokens (p.take .array)
      let (sfx, p) ← suffixesAt steps p
      return (.array count :: sfx, p)
    | some .openParen =>
      let (params, p) ← parametersAt steps (p.take .parameters)
      let (sfx, p) ← suffixesAt steps p
      return (.function params :: sfx, p)
    | _ => return ([], p)

def parametersAt : Nat → Progress → Reading (Parameters × Progress)
  | 0, _ => goesOn
  | steps + 1, p => do
    if (← look tokens p.position) == some .closeParen then return ({}, p.take .parameters)
    else
      let (params, p) ← parameterListAt steps p
      return ({ params with args := dropVoid params.args }, p)

def parameterListAt : Nat → Progress → Reading (Parameters × Progress)
  | 0, _ => goesOn
  | steps + 1, p => do
    let next ← look tokens p.position
    let first : Reading (Parameters × Progress) :=
      if next == some .ellipsis then pure ({ variadic := true }, p.take .parameters)
      else do
        let ((t, asked), p) ← typeNameAt steps p
        return ({ args := [t], asked }, p)
    let (params, p) ← first
    match ← look tokens p.position with
    | some .comma =>
      let (others, p) ← parameterListAt steps (p.take .parameters)
      return (params.append others, p)
    | some .closeParen => return (params, p.take .parameters)
    | _ => refuse tokens p.position

end

/-- Reads a text that is one type and nothing more: the type, and what took each token. -/
def tryParseAt (names : TypeNames) (steps : Nat) (text : String) :
    Reading (RawType × List (Production × Nat)) := do
  let tokens ← tokensAt steps text.toList 0
  let ((t, _), p) ← typeNameAt names.anonymous tokens steps {}
  match ← look tokens p.position with
  | some _ => refuse tokens p.position
  | none => return (({ t with spelling := trimmed text }).resolved names.typedefs, p.taken)

end QualType

end Bindery
