import Bindery.QualType.Token

/-! Identifiers of C: a letter or an underscore, then letters, digits and underscores. -/

namespace Bindery

def isIdentifier (s : String) : Bool :=
  match s.toList with
  | [] => false
  | c :: cs => QualType.isWordStart c && cs.all QualType.isWordChar

theorem isIdentifier_iff {s : String} : isIdentifier s ↔ ∃ c cs, s.toList = c :: cs ∧
    QualType.isWordStart c = true ∧ ∀ x ∈ cs, QualType.isWordChar x = true := by
  unfold isIdentifier
  cases s.toList with
  | nil => simp
  | cons c cs =>
    rw [Bool.and_eq_true, List.all_eq_true]
    constructor
    · rintro ⟨hc, hcs⟩
      exact ⟨c, cs, rfl, hc, hcs⟩
    · rintro ⟨_, _, he, hc, hcs⟩
      cases he
      exact ⟨hc, hcs⟩

theorem ne_empty_of_isIdentifier {s : String} (h : isIdentifier s) : s ≠ "" := by
  rintro rfl
  cases h

end Bindery
