import Bindery.Number.Decimal

/-! Decimal numbers as numbers of 64 bits, computed in steps: the digits are rounded, then the power
of ten, then their product or quotient. The result may differ from the number that is nearest to the
decimal one. -/

namespace Bindery

namespace Binary64

/-- The product, rounded; none if it is too large. -/
def times? (a b : Binary64) : Option Binary64 :=
  let (n, d) := scaled (a.significand * b.significand) 2 (a.exponent + b.exponent)
  nearestQuotient n d

/-- The quotient by a number that is not zero, rounded; none if it is too large. -/
def over? (a b : Binary64) : Option Binary64 :=
  let (n, d) := scaled a.significand 2 (a.exponent - b.exponent)
  nearestQuotient n (d * b.significand)

/-- The number times a power of ten. A number is divided by a power that is too small for one
division as often as it takes. -/
def timesPowerOfTen? (b : Binary64) (e : Int) : Option Binary64 :=
  if e.natAbs ≤ 308 then do
    let p ← nearestQuotient (power 10 e.natAbs) 1
    if 0 ≤ e then b.times? p else b.over? p
  else if b.significand == 0 then some b
  else if 0 ≤ e then none
  else do
    let p ← nearestQuotient (power 10 308) 1
    let b ← b.over? p
    b.timesPowerOfTen? (e + 308)
termination_by e.natAbs

end Binary64

/-- The number computed from the digits and the power of ten; none if it is too large. -/
def Decimal.stepwise? (d : Decimal) : Option Binary64 := do
  let b ← Binary64.nearestQuotient d.digits 1
  b.timesPowerOfTen? d.exponent

end Bindery
