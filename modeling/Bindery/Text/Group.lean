/-! Finding the end of a bracketed group in a list whose elements may open or close one. -/

namespace Bindery

/-- Splits behind an opening bracket at the bracket that closes it, when `depth` inner groups are
open already: what is inside, and what follows the closing bracket. -/
def splitGroup {α : Type} (opens closes : α → Bool) : Nat → List α → Option (List α × List α)
  | _, [] => none
  | depth, x :: xs =>
    if closes x && depth == 0 then some ([], xs)
    else
      let depth' := if closes x then depth - 1 else if opens x then depth + 1 else depth
      (splitGroup opens closes depth' xs).map fun p => (x :: p.1, p.2)

theorem splitGroup_length {α : Type} {opens closes : α → Bool} {depth : Nat}
    {xs inside rest : List α} (h : splitGroup opens closes depth xs = some (inside, rest)) :
    inside.length + rest.length + 1 = xs.length := by
  induction xs generalizing depth inside rest with
  | nil => simp [splitGroup] at h
  | cons x xs ih =>
    rw [splitGroup] at h
    split at h
    · simp_all
    · simp only [Option.map_eq_some_iff, Prod.exists, Prod.mk.injEq] at h
      obtain ⟨a, b, hab, rfl, rfl⟩ := h
      have := ih hab
      simp only [List.length_cons]
      omega

/-- The group behind an opening parenthesis of a text. -/
def splitParens (cs : List Char) : Option (List Char × List Char) :=
  splitGroup (· == '(') (· == ')') 0 cs

end Bindery
