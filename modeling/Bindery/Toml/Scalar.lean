import Bindery.Number.Decimal
import Bindery.Text.Integer

/-! Numbers, dates and times of TOML. They are recognised, not read. -/

namespace Bindery.Toml

/-- Digits with single underscores between some of them. -/
def areGrouped (isDigit : Char → Bool) : List Char → Bool
  | [] => false
  | [c] => isDigit c
  | c :: '_' :: cs => isDigit c && areGrouped isDigit cs
  | c :: cs => isDigit c && areGrouped isDigit cs

def ungrouped (cs : List Char) : List Char :=
  cs.filter (· != '_')

def dropSign : List Char → List Char
  | '+' :: cs => cs
  | '-' :: cs => cs
  | cs => cs

/-- Decimal digits without a zero before others. -/
def isWhole (cs : List Char) : Bool :=
  areGrouped Char.isDigit cs && (cs.length == 1 || cs.head? != some '0')

/-- Whether digits of a base stand for a number of which `limit` is the largest one. -/
def fits (base limit : Nat) (cs : List Char) : Bool :=
  (digitsValue? base 0 (ungrouped cs)).any (· ≤ limit)

/-- Digits of a base that is not ten. -/
def isBased (base : Nat) (cs : List Char) : Bool :=
  areGrouped (fun c => (digitValue? base c).isSome) cs && fits base (limit63 - 1) cs

/-- A whole number of 64 bits with a sign. -/
def isInteger (cs : List Char) : Bool :=
  match cs with
  | '0' :: 'x' :: ds => isBased 16 ds
  | '0' :: 'o' :: ds => isBased 8 ds
  | '0' :: 'b' :: ds => isBased 2 ds
  | '-' :: ds => isWhole ds && fits 10 limit63 ds
  | cs => isWhole (dropSign cs) && fits 10 (limit63 - 1) (dropSign cs)

def isMark (c : Char) : Bool :=
  c == 'e' || c == 'E'

/-- A number with a point or an exponent, split at them: the part before the point, the part behind
it, and the exponent. -/
def floatParts (cs : List Char) : List Char × Option (List Char) × Option (List Char) :=
  let whole := cs.takeWhile fun c => c != '.' && !isMark c
  let rest := cs.drop whole.length
  let frac := if rest.head? == some '.' then some ((rest.drop 1).takeWhile (!isMark ·)) else none
  let rest := rest.dropWhile (!isMark ·)
  (whole, frac, if rest.isEmpty then none else some (rest.drop 1))

/-- The number that the parts write. -/
def floatValue (whole frac exponent : List Char) : Decimal :=
  let frac := ungrouped frac
  ⟨(digitsValue? 10 0 (ungrouped whole ++ frac)).getD 0,
    (signedValue? 10 (ungrouped exponent)).getD 0 - frac.length⟩

/-- A number with a point or an exponent. One with no minus may not be too large. -/
def isFloat (cs : List Char) : Bool :=
  let unsigned := dropSign cs
  if unsigned == "inf".toList || unsigned == "nan".toList then true
  else
    let (whole, frac, exponent) := floatParts unsigned
    isWhole whole && (frac.isSome || exponent.isSome) &&
      frac.all (areGrouped Char.isDigit) &&
      exponent.all (fun e => areGrouped Char.isDigit (dropSign e)) &&
      (cs.head? == some '-' ||
        (floatValue whole (frac.getD []) (exponent.getD [])).nearest.isSome)

def pair? (a b : Char) : Option Nat :=
  if a.isDigit && b.isDigit then digitsValue? 10 0 [a, b] else none

def inRange (lo hi : Nat) (n : Option Nat) : Bool :=
  n.any fun n => lo ≤ n && n ≤ hi

def daysOf (year month : Nat) : Nat :=
  if month == 2 then
    if year % 4 == 0 && (year % 100 != 0 || year % 400 == 0) then 29 else 28
  else if month == 4 || month == 6 || month == 9 || month == 11 then 30
  else 31

/-- What follows a date. -/
def afterDate? (cs : List Char) : Option (List Char) :=
  match cs with
  | y₁ :: y₂ :: y₃ :: y₄ :: '-' :: m₁ :: m₂ :: '-' :: d₁ :: d₂ :: rest =>
    match pair? y₁ y₂, pair? y₃ y₄, pair? m₁ m₂ with
    | some century, some year, some month =>
      if inRange 1 12 (some month) && inRange 1 (daysOf (100 * century + year) month) (pair? d₁ d₂)
      then some rest else none
    | _, _, _ => none
  | _ => none

/-- What follows a time of the day. -/
def afterTime? (cs : List Char) : Option (List Char) :=
  match cs with
  | h₁ :: h₂ :: ':' :: m₁ :: m₂ :: ':' :: s₁ :: s₂ :: rest =>
    if inRange 0 23 (pair? h₁ h₂) && inRange 0 59 (pair? m₁ m₂) && inRange 0 60 (pair? s₁ s₂) then
      match rest with
      | '.' :: frac =>
        if frac.head?.any Char.isDigit then some (frac.dropWhile Char.isDigit) else none
      | rest => some rest
    else none
  | _ => none

/-- The distance of a time from that of Greenwich. -/
def isZone (cs : List Char) : Bool :=
  match cs with
  | [] => true
  | ['Z'] => true
  | ['z'] => true
  | [sign, h₁, h₂, ':', m₁, m₂] =>
    (sign == '+' || sign == '-') && inRange 0 23 (pair? h₁ h₂) && inRange 0 59 (pair? m₁ m₂)
  | _ => false

/-- A time of the day behind a date, with a zone or none. -/
def isZonedTime (cs : List Char) : Bool :=
  (afterTime? cs).any isZone

def isDate (cs : List Char) : Bool :=
  afterDate? cs == some []

/-- A date, a time of the day, or both. -/
def isDateOrTime (cs : List Char) : Bool :=
  match afterDate? cs with
  | some [] => true
  | some (t :: time) => (t == 'T' || t == 't') && isZonedTime time
  | none => afterTime? cs == some []

def isNumber (cs : List Char) : Bool :=
  isFloat cs || isInteger cs

end Bindery.Toml
