import Bindery.Number.Width
import Bindery.Text.Blank

/-! Reading whole numbers of 64 bits with a sign, and writing hexadecimal digits. -/

namespace Bindery

def hexDigit (n : Nat) : Char :=
  if n < 10 then Char.ofNat ('0'.toNat + n) else Char.ofNat ('a'.toNat + (n - 10))

def digitValue? (base : Nat) (c : Char) : Option Nat :=
  let n :=
    if c.isDigit then c.toNat - '0'.toNat
    else if 'a' ≤ c ∧ c ≤ 'f' then c.toNat - 'a'.toNat + 10
    else if 'A' ≤ c ∧ c ≤ 'F' then c.toNat - 'A'.toNat + 10
    else base
  if n < base then some n else none

/-- The value of digits behind others of the value `n`. -/
def digitsValue? (base n : Nat) : List Char → Option Nat
  | [] => some n
  | c :: cs => (digitValue? base c).bind fun d => digitsValue? base (base * n + d) cs

/-- Digits with a sign or none before them. -/
def signedValue? (base : Nat) : List Char → Option Int
  | [] => none
  | ['+'] => none
  | ['-'] => none
  | '+' :: cs => (digitsValue? base 0 cs).map Int.ofNat
  | '-' :: cs => (digitsValue? base 0 cs).map fun n => -(n : Int)
  | cs => (digitsValue? base 0 cs).map Int.ofNat

/-- The number that a text with blanks around it writes in decimal digits, or in hexadecimal ones
behind `0x`. It has to fit 64 bits. -/
def integerLiteral? (text : String) : Option Int :=
  let n :=
    match trim text.toList with
    | '0' :: 'x' :: cs => signedValue? 16 cs
    | '0' :: 'X' :: cs => signedValue? 16 cs
    | cs => signedValue? 10 cs
  n.filter fun n => -(limit63 : Int) ≤ n && n < limit63

/-- The number after `n`, if it has 64 bits. -/
def nextInteger? (n : Int) : Option Int :=
  if n + 1 < limit63 then some (n + 1) else none

end Bindery
