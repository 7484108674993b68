/-! The numbers below which a number fits a word, and sums that have to fit one. -/

namespace Bindery

/-- Words of 32 bits without a sign. -/
def limit32 : Nat := 0x100000000

/-- Words of 64 bits with a sign. -/
def limit63 : Nat := 0x8000000000000000

/-- Words of 64 bits without a sign. -/
def limit64 : Nat := 0x10000000000000000

/-- A sum, if it is below a limit. -/
def sumBelow? (limit a b : Nat) : Option Nat :=
  if a + b < limit then some (a + b) else none

end Bindery
