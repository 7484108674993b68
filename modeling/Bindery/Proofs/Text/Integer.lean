import Bindery.Proofs.QualType.Lexing
import Bindery.Text.Integer

/-! Numbers that are written in decimal digits are read back. -/

namespace Bindery

variable {c : Char} {cs : List Char} {n : Nat}

theorem trim_solids (h : ∀ c ∈ cs, isBlank c = false) : trim cs = cs := by
  have hstop : ∀ ds : List Char, (∀ c ∈ ds, isBlank c = false) → ds.dropWhile isBlank = ds := by
    rintro (_ | ⟨d, ds⟩) hds
    · rfl
    · exact List.dropWhile_cons_of_neg (by simp [hds d List.mem_cons_self])
  rw [trim, trimStart, hstop cs h, trimEnd, hstop _ (by simpa using h), List.reverse_reverse]

theorem digitValue?_ten (h : c.isDigit) : digitValue? 10 c = some (c.toNat - '0'.toNat) := by
  have hcode := QualType.isDigit_code h
  have hzero : '0'.toNat = 48 := rfl
  have hless : c.toNat - '0'.toNat < 10 := by omega
  rw [digitValue?, if_pos h, if_pos hless]

theorem digitsValue?_ten (h : ∀ c ∈ cs, c.isDigit) :
    digitsValue? 10 n cs = some (Nat.ofDigitChars 10 cs n) := by
  induction cs generalizing n with
  | nil => rfl
  | cons c cs ih =>
    obtain ⟨hc, hcs⟩ := List.forall_mem_cons.mp h
    rw [digitsValue?, digitValue?_ten hc, Option.bind_some, ih hcs]
    rfl

/-- The digits of a number. -/
theorem digits_written (n : Nat) : ∃ c cs, n.repr.toList = c :: cs ∧ (∀ d ∈ c :: cs, d.isDigit) ∧
    digitsValue? 10 0 (c :: cs) = some n := by
  have hdigits : ∀ d ∈ Nat.toDigits 10 n, d.isDigit := fun d hd =>
    Nat.isDigit_of_mem_toDigits (by decide) (by decide) hd
  have hvalue : digitsValue? 10 0 (Nat.toDigits 10 n) = some n := by
    rw [digitsValue?_ten hdigits, Nat.ofDigitChars_ten_toDigits]
  rw [Nat.toList_repr]
  obtain ⟨c, cs, hcs⟩ := List.exists_cons_of_ne_nil (Nat.toDigits_ne_nil (n := n) (b := 10))
  rw [hcs] at hdigits hvalue ⊢
  exact ⟨c, cs, rfl, hdigits, hvalue⟩

theorem signedValue?_digits (h : ∀ d ∈ cs, d.isDigit) (hne : cs ≠ []) :
    signedValue? 10 cs = (digitsValue? 10 0 cs).map Int.ofNat := by
  have hsigns : ∀ s rest, s.isDigit = false → cs ≠ s :: rest := by
    rintro s rest hs rfl
    have hdigit := h s List.mem_cons_self
    rw [hs] at hdigit
    cases hdigit
  rw [signedValue?.eq_def]
  split
  next => exact absurd rfl hne
  next => exact absurd rfl (hsigns '+' [] rfl)
  next => exact absurd rfl (hsigns '-' [] rfl)
  next rest _ => exact absurd rfl (hsigns '+' rest rfl)
  next rest _ => exact absurd rfl (hsigns '-' rest rfl)
  next => rfl

/-- What is written for a number is read as that number. -/
theorem signedValue?_toString (v : Int) : signedValue? 10 (toString v).toList = some v := by
  cases v with
  | ofNat n =>
    obtain ⟨c, cs, htext, hdigits, hvalue⟩ := digits_written n
    have hlist : (toString (Int.ofNat n)).toList = c :: cs := htext
    rw [hlist, signedValue?_digits hdigits (List.cons_ne_nil c cs), hvalue]
    rfl
  | negSucc n =>
    obtain ⟨c, cs, htext, hdigits, hvalue⟩ := digits_written (n + 1)
    have hlist : (toString (Int.negSucc n)).toList = '-' :: c :: cs := by
      have happend : toString (Int.negSucc n) = "-" ++ (n + 1).repr := rfl
      rw [happend, String.toList_append, htext]
      rfl
    rw [hlist, signedValue?, hvalue]
    · rfl
    · simp

theorem toString_solid (v : Int) : ∀ c ∈ (toString v).toList, c = '-' ∨ c.isDigit := by
  have hdigits : ∀ n : Nat, ∀ c ∈ n.repr.toList, c.isDigit := by
    intro n
    obtain ⟨c, cs, htext, hdigits, -⟩ := digits_written n
    exact htext ▸ hdigits
  cases v with
  | ofNat n => exact fun c hc => .inr (hdigits n c hc)
  | negSucc n =>
    have hlist : (toString (Int.negSucc n)).toList = '-' :: (n + 1).repr.toList := by
      have happend : toString (Int.negSucc n) = "-" ++ (n + 1).repr := rfl
      rw [happend, String.toList_append]
      rfl
    rw [hlist]
    exact List.forall_mem_cons.mpr ⟨.inl rfl, fun c hc => .inr (hdigits (n + 1) c hc)⟩

theorem integerLiteral?_toString {v : Int} (hlow : -(limit63 : Int) ≤ v) (hhigh : v < limit63) :
    integerLiteral? (toString v) = some v := by
  have hsolid : ∀ c ∈ (toString v).toList, isBlank c = false := by
    intro c hc
    rcases toString_solid v c hc with rfl | hdigit
    · rfl
    · rw [← Bool.not_eq_true]
      intro hblank
      have hword := QualType.not_isWordChar_of_isBlank hblank
      rw [QualType.isWordChar_of_isDigit hdigit] at hword
      cases hword
  have hplain : ∀ x rest, x ≠ '-' → x.isDigit = false → (toString v).toList ≠ '0' :: x :: rest := by
    intro x rest hsign hdigit hlist
    rcases toString_solid v x (hlist ▸ .tail _ (.head _)) with h | h
    · exact hsign h
    · rw [hdigit] at h
      cases h
  rw [integerLiteral?, trim_solids hsolid]
  split
  next rest hlist => exact absurd hlist (hplain 'x' rest (by decide) rfl)
  next rest hlist => exact absurd hlist (hplain 'X' rest (by decide) rfl)
  next => rw [signedValue?_toString, Option.filter_some, if_pos (by simp [hlow, hhigh])]

theorem integerLiteral?_bounds {text : String} {v : Int} (h : integerLiteral? text = some v) :
    -(limit63 : Int) ≤ v ∧ v < limit63 := by
  simpa using (Option.filter_eq_some_iff.mp h).2

theorem nextInteger?_eq_some_iff {v w : Int} :
    nextInteger? v = some w ↔ v + 1 < limit63 ∧ w = v + 1 := by
  simp [nextInteger?, eq_comm]

end Bindery
