import Bindery.Proofs.Source.Definitions
import Bindery.Proofs.Source.Tokens

/-! The values of constants. A value is cut where the scan sees a comment. -/

namespace Bindery

open Lexical

namespace Definition

variable {cs front back rest : List Char} {b c quote : Char}

theorem beforeComment_inString (escaped : Bool) (c : Char) (cs : List Char) :
    ∃ escaped' inString', beforeComment true escaped (c :: cs) =
      c :: beforeComment inString' escaped' cs := by
  rw [beforeComment]
  split
  · exact ⟨_, _, rfl⟩
  · split
    · exact ⟨_, _, rfl⟩
    · split
      · exact ⟨_, _, rfl⟩
      · rw [if_neg (by simp)]
        exact ⟨_, _, rfl⟩

theorem last_cons (hlast : back = [] ∨ front.getLast? ≠ some '/')
    (hc : front = [] → back = [] ∨ c ≠ '/') : back = [] ∨ (c :: front).getLast? ≠ some '/' := by
  cases front with
  | nil => simpa using hc rfl
  | cons d front => simpa using hlast

/-- The text is cut where a comment seems to be opened, or not at all. No slash is in front of the
cut. -/
theorem beforeComment_cut (inString escaped : Bool) (h : escaped → inString) (cs : List Char) :
    ∃ back, cs = beforeComment inString escaped cs ++ back ∧ CommentOrEnd back ∧
      (back = [] ∨ (beforeComment inString escaped cs).getLast? ≠ some '/') := by
  induction cs generalizing inString escaped with
  | nil => exact ⟨[], rfl, .inl rfl, .inl rfl⟩
  | cons c cs ih =>
    -- within a string nothing is cut, so the cut is not right behind a slash in it
    have hinner (escaped' : Bool) : ∃ back, c :: cs = c :: beforeComment true escaped' cs ++ back ∧
        CommentOrEnd back ∧ (back = [] ∨ (c :: beforeComment true escaped' cs).getLast? ≠ some '/') := by
      obtain ⟨back, hcs, hback, hlast⟩ := ih true escaped' fun _ => rfl
      refine ⟨back, congrArg (c :: ·) hcs, hback, last_cons hlast fun hempty => .inl ?_⟩
      cases cs with
      | nil => exact (List.append_eq_nil_iff.mp hcs.symm).2
      | cons d cs =>
        obtain ⟨_, _, hkept⟩ := beforeComment_inString escaped' d cs
        rw [hkept] at hempty
        cases hempty
    rw [beforeComment]
    split
    · next hescaped =>
      rw [h hescaped]
      exact hinner false
    · split
      · next hslash =>
        rw [((Bool.and_eq_true _ _).mp hslash).2]
        exact hinner true
      · split
        · next hquote =>
          obtain ⟨back, hcs, hback, hlast⟩ := ih (!inString) false nofun
          refine ⟨back, congrArg (c :: ·) hcs, hback, last_cons hlast fun _ => .inr ?_⟩
          rw [beq_iff_eq.mp hquote]
          decide
        · split
          · next hcut =>
            simp only [Bool.and_eq_true, Bool.or_eq_true, beq_iff_eq] at hcut
            obtain ⟨⟨rfl, -⟩, hmark⟩ := hcut
            refine ⟨'/' :: cs, rfl, .inr (opensComment_iff.mpr ?_), .inr nofun⟩
            rcases hmark with hmark | hmark
            · obtain ⟨more, rfl⟩ := List.head?_eq_some_iff.mp hmark
              exact ⟨_, more, rfl, .inl rfl⟩
            · obtain ⟨more, rfl⟩ := List.head?_eq_some_iff.mp hmark
              exact ⟨_, more, rfl, .inr rfl⟩
          · next hkept =>
            cases inString with
            | true => exact hinner false
            | false =>
              obtain ⟨back, hcs, hback, hlast⟩ := ih false false nofun
              refine ⟨back, congrArg (c :: ·) hcs, hback, last_cons hlast fun hempty => ?_⟩
              refine hback.imp_right fun hopen => ?_
              rintro rfl
              rw [hempty, List.nil_append] at hcs
              subst hcs
              obtain ⟨mark, more, rfl, -⟩ := opensComment_iff.mp hopen
              exact hkept rfl

theorem beforeComment_opened (h : CommentOrEnd cs) : beforeComment false false cs = [] := by
  rcases h with rfl | hopen
  · rfl
  · obtain ⟨mark, more, rfl, hmark⟩ := opensComment_iff.mp hopen
    rcases hmark with rfl | rfl <;> rfl

theorem beforeComment_kept (hc : c ≠ '"') (hopen : opensComment (c :: cs) = false) :
    beforeComment false false (c :: cs) = c :: beforeComment false false cs := by
  have hkept : ¬(c == '/' && !false && (cs.head? == some '/' || cs.head? == some '*')) = true := by
    intro hcut
    simp only [Bool.and_eq_true, Bool.or_eq_true, beq_iff_eq] at hcut
    obtain ⟨⟨rfl, -⟩, hmark | hmark⟩ := hcut <;>
    · obtain ⟨more, rfl⟩ := List.head?_eq_some_iff.mp hmark
      cases hopen
  rw [beforeComment, if_neg Bool.false_ne_true, if_neg (by simp), if_neg (by simpa using hc),
    if_neg hkept]

theorem beforeComment_blanks (h : ∀ c ∈ front, isBlank c) (cs : List Char) :
    beforeComment false false (front ++ cs) = front ++ beforeComment false false cs := by
  induction front with
  | nil => rfl
  | cons b front ih =>
    obtain ⟨hb, hmore⟩ := List.forall_mem_cons.mp h
    have hquote : b ≠ '"' := ne_of_isBlank hb rfl
    have hslash : b ≠ '/' := ne_of_isBlank hb rfl
    rw [List.cons_append, beforeComment_kept hquote (not_opensComment_of_ne hslash _), ih hmore]
    rfl

theorem beforeComment_string (h : isLiteralBody '"' cs) (rest : List Char) :
    beforeComment true false (cs ++ '"' :: rest) = cs ++ '"' :: beforeComment false false rest := by
  fun_induction isLiteralBody '"' cs with
  | case1 => rfl
  | case2 => cases h
  | case3 d cs ih =>
    have hescape : beforeComment true false ('\\' :: d :: (cs ++ '"' :: rest)) =
        '\\' :: d :: beforeComment true false (cs ++ '"' :: rest) := rfl
    rw [List.cons_append, List.cons_append, hescape, ih h]
    rfl
  | case4 c cs hend hescape ih =>
    obtain ⟨hc, hcs⟩ := (Bool.and_eq_true _ _).mp h
    have hplain : c ≠ '\\' := by
      rintro rfl
      cases cs with
      | nil => exact hend rfl rfl
      | cons d cs => exact hescape d cs rfl rfl
    rw [List.cons_append, beforeComment, if_neg Bool.false_ne_true, if_neg (by simpa using hplain),
      if_neg (by simpa using hc), if_neg (by simp), ih hcs]
    rfl

/-- A literal that the scan does not mistake for something else: a string, or a character literal
without a double quote and without what would open a comment. -/
def Harmless (quote : Char) (body : List Char) : Prop :=
  quote = '"' ∨ '"' ∉ body ∧ ¬['/', '/'] <:+: body ∧ ¬['/', '*'] <:+: body

theorem beforeComment_character (hquote : '"' ∉ cs) (hline : ¬['/', '/'] <:+: cs)
    (hblock : ¬['/', '*'] <:+: cs) (rest : List Char) :
    beforeComment false false (cs ++ '\'' :: rest) =
      cs ++ '\'' :: beforeComment false false rest := by
  induction cs with
  | nil => exact beforeComment_kept (by decide) (not_opensComment_of_ne (by decide) rest)
  | cons c cs ih =>
    obtain ⟨hc, hmore⟩ := not_or.mp (mt List.mem_cons.mpr hquote)
    have hopen : opensComment (c :: (cs ++ '\'' :: rest)) = false := by
      rw [← Bool.not_eq_true, opensComment_iff]
      rintro ⟨mark, more, he, hmark⟩
      obtain ⟨rfl, hnext⟩ := List.cons.inj he
      cases cs with
      | nil =>
        obtain ⟨rfl, -⟩ := List.cons.inj hnext
        rcases hmark with hmark | hmark <;> exact absurd hmark (by decide)
      | cons d cs =>
        obtain ⟨rfl, -⟩ := List.cons.inj hnext
        rcases hmark with rfl | rfl
        · exact hline (List.prefix_append ['/', '/'] cs).isInfix
        · exact hblock (List.prefix_append ['/', '*'] cs).isInfix
    rw [List.cons_append, beforeComment_kept (Ne.symm hc) hopen,
      ih hmore (fun hin => hline (hin.trans (List.suffix_cons c cs).isInfix))
        fun hin => hblock (hin.trans (List.suffix_cons c cs).isInfix)]
    rfl

/-- The cut is at the first comment when no character literal in front of it is mistaken. -/
theorem beforeComment_free (h : CommentFree Harmless rest cs) (hrest : CommentOrEnd rest) :
    beforeComment false false (cs ++ rest) = cs := by
  induction h with
  | nil => exact beforeComment_opened hrest
  | @literal quote body cs opening closed fine more ih =>
    have htext : quote :: (body ++ quote :: cs) ++ rest = quote :: (body ++ quote :: (cs ++ rest)) := by
      simp
    rw [htext]
    rcases isQuote_iff.mp opening with rfl | rfl
    · have hstring : beforeComment false false ('"' :: (body ++ '"' :: (cs ++ rest))) =
          '"' :: beforeComment true false (body ++ '"' :: (cs ++ rest)) := rfl
      rw [hstring, beforeComment_string closed, ih]
    · obtain ⟨hquote, hline, hblock⟩ := fine.resolve_left (by decide)
      rw [beforeComment_kept (by decide) (not_opensComment_of_ne (by decide) _),
        beforeComment_character hquote hline hblock, ih]
  | @other c cs unquoted unopened more ih =>
    have hc : c ≠ '"' := by
      rintro rfl
      cases unquoted
    rw [List.cons_append, beforeComment_kept hc unopened, ih]

/-- What is in front of the cut has the tokens of the whole text if, and only if, blanks alone are
missing when each comment is replaced by a blank. -/
theorem tokens_beforeComment_iff {plain : List Char} (h : Uncommented cs plain) :
    (Plain (trim (beforeComment false false cs)) ∧
        tokens (trim (beforeComment false false cs)) = tokens plain) ↔
      ∃ tail, plain = beforeComment false false cs ++ tail ∧ ∀ c ∈ tail, isBlank c := by
  constructor
  · rintro ⟨hplain, htokens⟩
    have hcut := plain_of_trim hplain
    obtain ⟨back, hcs, hback, hlast⟩ := beforeComment_cut false false id cs
    obtain ⟨free, rest, tail, hparts, rfl, hfree, hrest, htail⟩ := h.parts
    have hsame := hfree.eq_of_append hrest hcut hback hlast (hparts.symm.trans hcs)
    refine ⟨tail, by rw [hsame], ?_⟩
    cases tail with
    | nil => exact List.forall_mem_nil _
    | cons b tail =>
      have hb : isBlank b := htail b rfl
      rw [tokens_trim hcut, hsame, tokens_append_blank hfree hb, List.self_eq_append_right] at htokens
      exact List.forall_mem_cons.mpr ⟨hb, tokens_eq_nil_iff.mp htokens⟩
  · rintro ⟨tail, hplain, htail⟩
    have hcut : Plain (beforeComment false false cs) :=
      Plain.initial htail (hplain ▸ h.isPlain)
    refine ⟨hcut.trim, ?_⟩
    rw [tokens_trim hcut, hplain]
    cases tail with
    | nil => rw [List.append_nil]
    | cons b tail =>
      obtain ⟨hb, hmore⟩ := List.forall_mem_cons.mp htail
      rw [tokens_append_blank hcut hb, tokens_eq_nil_iff.mpr hmore, List.append_nil]

end Definition

end Bindery
