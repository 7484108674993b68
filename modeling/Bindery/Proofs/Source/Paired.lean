import Bindery.Proofs.Source.Scanning

/-! Text that the search for parameters passes as a whole. -/

namespace Bindery

variable {cs inside rest : List Char} {c opening closing : Char} {inner : Bool}

/-- A comment, by what is between its marks. -/
inductive Comment where
  | block (content : List Char) (unclosed : ¬['*', '/'] <:+: content)
  | line (content : List Char) (single : '\n' ∉ content)

namespace Comment

def chars : Comment → List Char
  | .block content _ => '/' :: '*' :: (content ++ ['*', '/'])
  | .line content _ => '/' :: '/' :: (content ++ ['\n'])

/-- The star that opens a comment closes it too where a slash is right behind it, so such a comment
is not skipped as one. -/
def Skipped : Comment → Prop
  | .block content _ => content.head? ≠ some '/'
  | .line _ _ => True

end Comment

/-- The brackets that a group can stand in. -/
def Enclosing (opening closing : Char) : Prop :=
  opening = '(' ∧ closing = ')' ∨ opening = '[' ∧ closing = ']'

/-- Text in which brackets pair up and comments end. Commas that are in no brackets are part of it
only where `inner` says that the text itself is in brackets. -/
inductive Paired : Bool → List Char → Prop
  | nil {inner : Bool} : Paired inner []
  | char {inner : Bool} {c : Char} {cs : List Char} (mark : c ∉ ['/', '(', ')', '[', ']'])
      (comma : c = ',' → inner) (rest : Paired inner cs) : Paired inner (c :: cs)
  | slash {inner : Bool} {c : Char} {cs : List Char} (star : c ≠ '*')
      (rest : Paired inner (c :: cs)) : Paired inner ('/' :: c :: cs)
  | comment {inner : Bool} {cs : List Char} (content : List Char)
      (unclosed : ¬['*', '/'] <:+: content) (rest : Paired inner cs) :
      Paired inner ('/' :: '*' :: (content ++ '*' :: '/' :: cs))
  | group {inner : Bool} {opening closing : Char} {inside cs : List Char}
      (brackets : Enclosing opening closing) (group : Paired true inside) (rest : Paired inner cs) :
      Paired inner (opening :: (inside ++ closing :: cs))

namespace ParamText

theorem afterLine_content {content : List Char} (h : '\n' ∉ content) (rest : List Char) :
    afterLine (content ++ '\n' :: rest) = rest := by
  induction content with
  | nil => rfl
  | cons c content ih =>
    obtain ⟨hc, hcontent⟩ := not_or.mp (mt List.mem_cons.mpr h)
    rw [List.cons_append, afterLine]
    · exact ih hcontent
    · exact fun he => hc he.symm

theorem fromComma_slash (h : c ≠ '*') (depth : Nat) (rest : List Char) :
    fromComma depth ('/' :: c :: rest) = fromComma depth (c :: rest) := by
  rw [fromComma]
  · simp
  · rintro _ _ ⟨⟩
    exact h rfl

theorem afterGroup_slash (hb : Enclosing opening closing) (hstar : c ≠ '*') (depth : Nat)
    (rest : List Char) : afterGroup opening closing depth ('/' :: c :: rest) =
      afterGroup opening closing depth (c :: rest) := by
  have hopen : ∀ r, '/' = '/' → c :: rest = '*' :: r → False :=
    fun _ _ hr => hstar (List.cons.inj hr).1
  rw [afterGroup_unopened hopen]
  rcases hb with ⟨rfl, rfl⟩ | ⟨rfl, rfl⟩ <;> rfl

theorem afterGroup_other (hb : Enclosing opening closing) (h : c ∉ ['/', '(', ')', '[', ']'])
    (depth : Nat) (rest : List Char) : afterGroup opening closing depth (c :: rest) =
      afterGroup opening closing depth rest := by
  simp only [List.mem_cons, List.not_mem_nil, or_false, not_or] at h
  rw [afterGroup_cons h.1]
  rcases hb with ⟨rfl, rfl⟩ | ⟨rfl, rfl⟩ <;> simp [h]

/-- Brackets of either kind are passed with what is between them. -/
theorem afterGroup_group {opening' closing' : Char} (hb : Enclosing opening closing)
    (hg : Enclosing opening' closing')
    (h : ∀ depth rest, afterGroup opening closing depth (inside ++ rest) =
      afterGroup opening closing depth rest) (depth : Nat) (rest : List Char) :
    afterGroup opening closing depth (opening' :: (inside ++ closing' :: rest)) =
      afterGroup opening closing depth rest := by
  rcases hb with ⟨rfl, rfl⟩ | ⟨rfl, rfl⟩ <;> rcases hg with ⟨rfl, rfl⟩ | ⟨rfl, rfl⟩ <;>
    simp [afterGroup_cons, h]

theorem fromComma_group (hb : Enclosing opening closing)
    (h : ∀ depth, 1 ≤ depth → ∀ rest, fromComma depth (inside ++ rest) = fromComma depth rest)
    (depth : Nat) (rest : List Char) :
    fromComma depth (opening :: (inside ++ closing :: rest)) = fromComma depth rest := by
  rcases hb with ⟨rfl, rfl⟩ | ⟨rfl, rfl⟩ <;> simp [fromComma_cons, h (depth + 1)]

/-- What a group holds has commas only in its brackets. -/
theorem Passes.group (hb : Enclosing opening closing) (h : Passes 1 inside) :
    Passes 0 (opening :: inside ++ [closing]) := by
  constructor
  · intro depth _ rest
    have hpassed := fromComma_group hb h.fromComma_eq depth rest
    simpa using hpassed
  · intro depth rest
    have hpassed := afterGroup_group (.inl ⟨rfl, rfl⟩) hb h.afterGroup_eq depth rest
    simpa using hpassed

end ParamText

open ParamText (afterGroup fromComma listBody skipTrivia Passes)

namespace Paired

theorem plain (h : ∀ c ∈ cs, ParamText.isPlain c) : Paired inner cs := by
  induction cs with
  | nil => exact .nil
  | cons c cs ih =>
    obtain ⟨hc, hcs⟩ := List.forall_mem_cons.mp h
    have hplain := ParamText.isPlain_iff.mp hc
    exact .char (by simp [hplain]) (fun hcomma => absurd hcomma hplain.2.2.2.2.2) (ih hcs)

theorem afterGroup_eq (h : Paired inner cs) (hb : Enclosing opening closing) (depth : Nat)
    (rest : List Char) : afterGroup opening closing depth (cs ++ rest) =
      afterGroup opening closing depth rest := by
  induction h generalizing depth rest with
  | nil => rfl
  | char mark comma _ ih => rw [List.cons_append, ParamText.afterGroup_other hb mark, ih]
  | slash star _ ih =>
    rw [List.cons_append, List.cons_append, ParamText.afterGroup_slash hb star]
    exact ih depth rest
  | comment content unclosed _ ih =>
    rw [List.cons_append, List.cons_append, List.append_assoc, afterGroup, List.cons_append,
      List.cons_append, ParamText.afterBlockComment_content unclosed, ih]
  | group brackets _ _ ihg ih =>
    rw [List.cons_append, List.append_assoc, List.cons_append,
      ParamText.afterGroup_group hb brackets ihg, ih]

/-- How many brackets have to be open for the commas of a text to be passed. -/
def leastDepth (inner : Bool) : Nat :=
  if inner then 1 else 0

theorem fromComma_eq (h : Paired inner cs) (depth : Nat) (hdepth : leastDepth inner ≤ depth)
    (rest : List Char) : fromComma depth (cs ++ rest) = fromComma depth rest := by
  induction h generalizing depth rest with
  | nil => rfl
  | @char inner c cs mark comma _ ih =>
    have hinside : ¬ (c == ',' && depth == 0) := by
      simp only [Bool.and_eq_true, beq_iff_eq, not_and]
      intro hc
      rw [comma hc] at hdepth
      exact Nat.ne_of_gt hdepth
    simp only [List.mem_cons, List.not_mem_nil, or_false, not_or] at mark
    rw [List.cons_append, ParamText.fromComma_cons mark.1, if_neg (by simp [mark]),
      if_neg (by simp [mark]), if_neg hinside, ih depth hdepth]
  | slash star _ ih =>
    rw [List.cons_append, List.cons_append, ParamText.fromComma_slash star]
    exact ih depth hdepth rest
  | comment content unclosed _ ih =>
    rw [List.cons_append, List.cons_append, List.append_assoc, fromComma, List.cons_append,
      List.cons_append, ParamText.afterBlockComment_content unclosed, ih depth hdepth]
  | group brackets _ _ ihg ih =>
    rw [List.cons_append, List.append_assoc, List.cons_append,
      ParamText.fromComma_group brackets ihg, ih depth hdepth]

theorem passes (h : Paired inner cs) : Passes (leastDepth inner) cs :=
  ⟨h.fromComma_eq, h.afterGroup_eq (.inl ⟨rfl, rfl⟩)⟩

end Paired

/-- What may stand between a declared name and the list of its parameters: blanks, comments, closing
parentheses and array lengths. -/
inductive Lead : List Char → Prop
  | nil : Lead []
  | blank {c : Char} {cs : List Char} (blank : isBlank c) (rest : Lead cs) : Lead (c :: cs)
  | comment {cs : List Char} (k : Comment) (skipped : k.Skipped) (rest : Lead cs) :
      Lead (k.chars ++ cs)
  | closing {cs : List Char} (rest : Lead cs) : Lead (')' :: cs)
  | bounds {inside cs : List Char} (length : Paired true inside) (rest : Lead cs) :
      Lead ('[' :: (inside ++ ']' :: cs))

namespace ParamText

theorem skipTrivia_blank (h : isBlank c) (rest : List Char) :
    skipTrivia (c :: rest) = skipTrivia rest := by
  have htrim : trimStart (c :: rest) = trimStart rest := List.dropWhile_cons_of_pos h
  rw [skipTrivia.eq_def, skipTrivia.eq_def rest, htrim]

theorem skipTrivia_comment (k : Comment) (h : k.Skipped) (rest : List Char) :
    skipTrivia (k.chars ++ rest) = skipTrivia rest := by
  cases k with
  | block content unclosed =>
    have hchars : (Comment.block content unclosed).chars ++ rest =
        '/' :: '*' :: (content ++ '*' :: '/' :: rest) := by simp [Comment.chars]
    have hclosed : afterBlockComment ('*' :: (content ++ '*' :: '/' :: rest)) = rest := by
      rw [afterBlockComment]
      · exact afterBlockComment_content unclosed rest
      · rintro _ - hnext
        cases content with
        | nil => cases hnext
        | cons d content =>
          cases hnext
          exact h rfl
    rw [hchars, skipTrivia.eq_def]
    split
    next heq =>
      cases heq
      rw [hclosed]
    next heq => cases heq
    next hblock _ => exact absurd rfl (hblock _)
  | line content single =>
    have hchars : (Comment.line content single).chars ++ rest =
        '/' :: '/' :: (content ++ '\n' :: rest) := by simp [Comment.chars]
    rw [hchars, skipTrivia.eq_def]
    split
    next heq => cases heq
    next heq =>
      cases heq
      rw [afterLine_content single]
    next _ hline => exact absurd rfl (hline _)

theorem listBody_congr {cs cs' : List Char} (h : skipTrivia cs = skipTrivia cs') :
    listBody cs = listBody cs' := by
  rw [listBody.eq_def, listBody.eq_def cs', h]

theorem listBody_bounds (h : Paired true inside) (rest : List Char) :
    listBody ('[' :: (inside ++ ']' :: rest)) = listBody rest := by
  have hgroup : afterGroup '[' ']' 0 (inside ++ ']' :: rest) = some rest := by
    rw [h.afterGroup_eq (.inr ⟨rfl, rfl⟩), afterGroup_cons (by decide)]
    rfl
  rw [listBody_bracket, hgroup, Option.bind_some]

end ParamText

theorem Lead.listBody_eq (h : Lead cs) (rest : List Char) :
    listBody (cs ++ rest) = listBody rest := by
  induction h with
  | nil => rfl
  | blank hc _ ih => rw [← ih]; exact ParamText.listBody_congr (ParamText.skipTrivia_blank hc _)
  | comment k hk _ ih =>
    rw [← ih, List.append_assoc]
    exact ParamText.listBody_congr (ParamText.skipTrivia_comment k hk _)
  | closing _ ih => rw [List.cons_append, ParamText.listBody_closing, ih]
  | bounds hlength _ ih =>
    rw [List.cons_append, List.append_assoc, List.cons_append, ParamText.listBody_bounds hlength, ih]

theorem Lead.blanks (h : ∀ c ∈ cs, isBlank c) : Lead cs := by
  induction cs with
  | nil => exact .nil
  | cons c cs ih =>
    obtain ⟨hc, hcs⟩ := List.forall_mem_cons.mp h
    exact .blank hc (ih hcs)

end Bindery
