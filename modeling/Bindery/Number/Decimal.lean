/-! Decimal numbers and the numbers of 64 bits nearest to them. -/

namespace Bindery

/-- The number `digits * 10 ^ exponent`. -/
structure Decimal where
  digits : Nat
  exponent : Int
  deriving DecidableEq, Repr

/-- The number `significand * 2 ^ exponent`. -/
structure Binary64 where
  significand : Nat
  exponent : Int
  deriving DecidableEq, Repr

/-- The quotient rounded to the nearest whole number, a half to the even one. -/
def roundedQuotient (n d : Nat) : Nat :=
  let q := n / d
  let r := n % d
  if 2 * r < d then q else if 2 * r > d then q + 1 else if q % 2 == 0 then q else q + 1

/-- The power `b ^ e`; it is one if `e` is negative. -/
def power (b : Nat) (e : Int) : Nat :=
  Nat.pow b e.toNat

/-- Numerator and denominator of `n * b ^ e`. -/
def scaled (n b : Nat) (e : Int) : Nat × Nat :=
  (n * power b e, power b (-e))

namespace Binary64

/-- A quotient in units of `2 ^ e`, as numerator and denominator. -/
def inUnits (n d : Nat) (e : Int) : Nat × Nat :=
  (n * power 2 (-e), d * power 2 e)

/-- The number nearest to a quotient that is not zero; none if it is too large. -/
def nearestQuotient (n d : Nat) : Option Binary64 :=
  let guess : Int := max (-1074) ((n.log2 : Int) - d.log2 - 53)
  let (n', d') := inUnits n d guess
  let e := if n' / d' < power 2 53 then guess else guess + 1
  let (n', d') := inUnits n d e
  let m := roundedQuotient n' d'
  let b : Binary64 := if m < power 2 53 then ⟨m, e⟩ else ⟨power 2 52, e + 1⟩
  if b.exponent ≤ 971 then some b else none

end Binary64

/-- The exponent of a number written with its point behind the first digit. -/
def Decimal.magnitude (d : Decimal) : Int :=
  (Nat.toDigits 10 d.digits).length + d.exponent

/-- The number nearest to a decimal one; none if it is too large. -/
def Decimal.nearest (d : Decimal) : Option Binary64 :=
  if d.digits == 0 || d.magnitude < -330 then some ⟨0, -1074⟩
  else if 320 < d.magnitude then none
  else
    let (n, den) := scaled d.digits 10 d.exponent
    Binary64.nearestQuotient n den

end Bindery
