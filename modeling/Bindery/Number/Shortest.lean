import Bindery.Number.Decimal

/-! The shortest decimal text of a number of 64 bits: the fewest digits from which the number is read
back, and of those the ones nearest to it. -/

namespace Bindery.Binary64

/-- The distances to the ends of the interval that is read as a number, in quarters of its unit.
Below a power of two the numbers lie closer. -/
def reach (b : Binary64) : Nat × Nat :=
  (if b.significand == power 2 52 && -1074 < b.exponent then 1 else 2, 2)

/-- Whether `d * 10 ^ e` and the number of `quarters` of a unit are in this order, or equal. -/
def compareTo (b : Binary64) (d : Nat) (e : Int) (quarters : Nat) : Ordering :=
  compare (d * power 10 e * power 2 (2 - b.exponent))
    (quarters * power 2 (b.exponent - 2) * power 10 (-e))

/-- Whether a decimal number is read as `b`. -/
def isReadFrom (b : Binary64) (d : Nat) (e : Int) : Bool :=
  let (below, above) := b.reach
  let low := b.compareTo d e (4 * b.significand - below)
  let high := b.compareTo d e (4 * b.significand + above)
  if b.significand % 2 == 0 then low != .lt && high != .gt else low == .gt && high == .lt

/-- How often `10 ^ e` goes into the number. -/
def quotient (b : Binary64) (e : Int) : Nat :=
  (b.significand * power 2 b.exponent * power 10 (-e)) / (power 10 e * power 2 (-b.exponent))

/-- The exponent of the first digit. -/
def leading (b : Binary64) : Int :=
  let whole := b.quotient 0
  if whole != 0 then ((Nat.toDigits 10 whole).length : Int) - 1
  else -((((List.range 330).find? fun j : Nat => b.quotient (-(j : Int)) != 0).getD 0 : Nat) : Int)

/-- Whether the number lies nearer to `d * 10 ^ e` than to the next point, or as near and `d` is
even. -/
def prefersLower (b : Binary64) (d : Nat) (e : Int) : Bool :=
  match b.compareTo (2 * d + 1) e (8 * b.significand) with
  | .gt => true
  | .lt => false
  | .eq => d % 2 == 0

/-- The digits at steps of `10 ^ e` from which the number is read back. -/
def onGrid (b : Binary64) (e : Int) : Option Decimal :=
  let d := b.quotient e
  let lower := if b.isReadFrom d e then some ⟨d, e⟩ else none
  let upper := if b.isReadFrom (d + 1) e then some ⟨d + 1, e⟩ else none
  if b.prefersLower d e then lower.or upper else upper.or lower

/-- The fewest digits from which the number is read back. -/
def shortest (b : Binary64) : Decimal :=
  if b.significand == 0 then ⟨0, 0⟩
  else ((List.range 17).findSome? fun n : Nat => b.onGrid (b.leading - n)).getD ⟨0, 0⟩

end Bindery.Binary64

namespace Bindery

/-- The digits of a number without zeros at the end. -/
def Decimal.trimmed (d : Decimal) : Decimal :=
  go (Nat.toDigits 10 d.digits).length d
where
  go : Nat → Decimal → Decimal
    | 0, d => d
    | n + 1, d => if d.digits != 0 && d.digits % 10 == 0 then go n ⟨d.digits / 10, d.exponent + 1⟩ else d

/-- A decimal number as text. There is a digit on each side of the point; outside of sixteen places
before it and five behind it an exponent with its sign is written. -/
def Decimal.text (d : Decimal) : String :=
  let d := d.trimmed
  let ds := Nat.toDigits 10 d.digits
  let point : Int := ds.length + d.exponent
  String.ofList <|
    if d.digits == 0 then ['0', '.', '0']
    else if 0 ≤ d.exponent && point ≤ 16 then
      ds ++ List.replicate d.exponent.toNat '0' ++ ['.', '0']
    else if 0 < point && point ≤ 16 then ds.take point.toNat ++ '.' :: ds.drop point.toNat
    else if -5 < point && point ≤ 0 then
      '0' :: '.' :: List.replicate (-point).toNat '0' ++ ds
    else
      let sign := if 0 < point then ['+'] else []
      let e := 'e' :: sign ++ (toString (point - 1)).toList
      match ds with
      | [c] => c :: e
      | c :: cs => c :: '.' :: cs ++ e
      | [] => e

end Bindery
