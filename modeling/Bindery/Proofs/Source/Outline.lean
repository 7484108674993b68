import Bindery.Proofs.Source.Comments
import Bindery.Proofs.Source.Unnamed
import Mathlib.Data.List.DropRight

/-! What is recovered of one part of a list, by the text of the part alone. -/

namespace Bindery

open ParamText (afterGroup fromComma listBody splitStar names wordsAt declaredName endsInStar typeKeywords
  plain piece listed recoverFrom isVoidList typeText isNameChar outlines allMoved before Vacant Wordless Unstarred)
open QualType (isWordStart)

variable {cs cs' rest front back : List Char} {c : Char} {offset : Nat} {k : Comment}

theorem trim_parts (cs : List Char) : ∃ g g', cs = g ++ (trim cs ++ g') ∧ (∀ c ∈ g, isBlank c) ∧
    ∀ c ∈ g', isBlank c := by
  let back := (trimStart cs).reverse.takeWhile isBlank
  have hfront := List.takeWhile_append_dropWhile (p := isBlank) (l := cs)
  have hback := List.takeWhile_append_dropWhile (p := isBlank) (l := (trimStart cs).reverse)
  have hparts : trim cs ++ back.reverse = trimStart cs := by
    have hreverse := congrArg List.reverse hback
    rwa [List.reverse_append, List.reverse_reverse] at hreverse
  refine ⟨cs.takeWhile isBlank, back.reverse, ?_, List.all_eq_true.mp List.all_takeWhile, fun c hc => ?_⟩
  · rw [hparts]
    exact hfront.symm
  · exact List.all_eq_true.mp List.all_takeWhile c (List.mem_reverse.mp hc)

namespace ParamText

theorem afterBlockComment_concat (hc : isBlank c) (cs : List Char) :
    afterBlockComment (cs ++ [c]) = afterBlockComment cs ++ [c] ∨
      afterBlockComment (cs ++ [c]) = [] ∧ afterBlockComment cs = [] := by
  fun_induction afterBlockComment cs with
  | case1 cs => exact .inl rfl
  | case2 d cs hopen ih =>
    have hkept : afterBlockComment (d :: (cs ++ [c])) = afterBlockComment (cs ++ [c]) := by
      rw [afterBlockComment]
      rintro rest rfl hrest
      cases cs with
      | nil =>
        obtain ⟨rfl, -⟩ := List.cons.inj hrest
        cases hc
      | cons e cs => exact hopen cs rfl (by rw [(List.cons.inj hrest).1])
    rw [List.cons_append, hkept]
    exact ih
  | case3 =>
    refine .inr ⟨?_, rfl⟩
    simp [afterBlockComment]

theorem unstarred_blank (hc : isBlank c) : ¬['*'] <+: [c] := by
  rintro ⟨rest, hrest⟩
  obtain ⟨rfl, -⟩ := List.cons.inj hrest
  cases hc

theorem afterGroup_concat {opening closing : Char} (hc : isBlank c) (hb : Enclosing opening closing)
    (depth : Nat) (cs : List Char) : afterGroup opening closing depth (cs ++ [c]) =
      (afterGroup opening closing depth cs).map (· ++ [c]) := by
  have hstar := unstarred_blank hc
  fun_induction afterGroup opening closing depth cs with
  | case1 depth =>
    have hmark : c ∉ ['/', '(', ')', '[', ']'] := by
      intro hmem
      have hplain := isPlain_iff.mp (isPlain_of_isBlank hc)
      simp_all
    rw [List.nil_append, afterGroup_other hb hmark, afterGroup]
    rfl
  | case2 depth rest ih =>
    rw [List.cons_append, List.cons_append, afterGroup]
    rcases afterBlockComment_concat hc rest with happend | ⟨hend, hend'⟩
    · rw [happend, ih]
    · rw [hend, hend', afterGroup]
      rfl
  | case3 depth d rest hopen hd ih =>
    rw [List.cons_append, afterGroup_unopened (unopened_append hopen hstar), if_pos hd, ih]
  | case4 d rest hopen hd hd' =>
    rw [List.cons_append, afterGroup_unopened (unopened_append hopen hstar), if_neg hd, if_pos hd',
      if_pos rfl]
    rfl
  | case5 d rest hopen hd hd' depth ih =>
    rw [List.cons_append, afterGroup_unopened (unopened_append hopen hstar), if_neg hd, if_pos hd',
      if_neg (Nat.succ_ne_zero depth), Nat.succ_sub_one, ih]
  | case6 depth d rest hopen hd hd' ih =>
    rw [List.cons_append, afterGroup_unopened (unopened_append hopen hstar), if_neg hd, if_neg hd', ih]

theorem not_isNameChar_of_isBlank (hc : isBlank c) : isNameChar c = false :=
  QualType.not_isWordChar_of_isBlank hc

theorem wordless_blank (h : ∀ c ∈ cs, isBlank c) : Wordless cs := by
  refine .plain fun c hc => ⟨isPlain_of_isBlank (h c hc), ?_⟩
  rw [← Bool.not_eq_true]
  intro hstart
  have hsolid := Written.not_isBlank_of_isWordStart hstart
  rw [h c hc] at hsolid
  cases hsolid

/-- A blank at the end of a text is no part of a word. -/
theorem names_concat (hc : isBlank c) (cs : List Char) : names (cs ++ [c]) = names cs := by
  induction hn : cs.length using Nat.strongRecOn generalizing cs with
  | ind n ih =>
    have hmore : ∀ rest : List Char, rest.length < n → names (rest ++ [c]) = names rest :=
      fun rest hlength => ih _ hlength rest rfl
    rcases cs with _ | ⟨d, cs⟩
    · exact names_wordless (wordless_blank (List.forall_mem_singleton.mpr hc)) []
    have hlength : cs.length < n := by rw [← hn]; exact Nat.lt_succ_self _
    by_cases hblock : d = '/' ∧ ['*'] <+: cs
    · obtain ⟨rfl, rest, rfl⟩ := hblock
      have hless : (afterBlockComment rest).length < n :=
        Nat.lt_of_le_of_lt (afterBlockComment_length rest) (Nat.lt_of_succ_lt hlength)
      have hblock : names ('/' :: (['*'] ++ rest) ++ [c]) = names (afterBlockComment (rest ++ [c])) :=
        names_block _
      have hblock' : names ('/' :: (['*'] ++ rest)) = names (afterBlockComment rest) := names_block _
      rw [hblock, hblock']
      rcases afterBlockComment_concat hc rest with happend | ⟨hend, hend'⟩
      · rw [happend, hmore _ hless]
      · rw [hend, hend']
    have hopen : ∀ r, d = '/' → cs = '*' :: r → False := fun r hd hr => hblock ⟨hd, r, hr.symm⟩
    by_cases hbracket : d = '['
    · subst hbracket
      rw [List.cons_append, names_bracket, names_bracket, afterGroup_concat hc (.inr ⟨rfl, rfl⟩)]
      cases hgroup : afterGroup '[' ']' 0 cs with
      | none => rfl
      | some rest => exact hmore rest ((afterGroup_length hgroup).trans hlength)
    by_cases hstart : isWordStart d
    · have hends : cs.dropWhile isNameChar = [] → ∀ e ∈ [c].head?, isNameChar e = false := by
        rintro - _ ⟨⟩
        exact not_isNameChar_of_isBlank hc
      obtain ⟨htake, hdrop⟩ := span_append hends
      rw [List.cons_append, names_word hstart, names_word hstart, htake, hdrop,
        hmore _ (Nat.lt_of_le_of_lt (length_dropWhile_le _ _) hlength)]
    · rw [Bool.not_eq_true] at hstart
      rw [List.cons_append, names_unopened (unopened_append hopen (unstarred_blank hc)) hbracket hstart,
        names_unopened hopen hbracket hstart, hmore cs hlength]

theorem names_trim (cs : List Char) : names (trim cs) = names cs := by
  obtain ⟨g, g', hcs, hg, hg'⟩ := trim_parts cs
  have hback : ∀ back : List Char, (∀ c ∈ back, isBlank c) → ∀ cs, names (cs ++ back) = names cs := by
    intro back
    induction back with
    | nil => simp
    | cons c back ih =>
      intro hback cs
      obtain ⟨hc, hback⟩ := List.forall_mem_cons.mp hback
      rw [← List.singleton_append, ← List.append_assoc, ih hback, names_concat hc]
  conv_rhs => rw [hcs]
  rw [names_wordless (wordless_blank hg), hback g' hg']

/-- What the search for the star at the end of a parameter may pass. -/
def IsTail (c : Char) : Prop :=
  c = ']' ∨ isBlank c

theorem endsInStar_trim (h : endsInStar (trim cs) = true) :
    ∃ front tail, cs = front ++ '*' :: tail ∧ ∀ c ∈ tail, IsTail c := by
  obtain ⟨front, n, hstar⟩ := Written.endsInStar_iff.mp h
  obtain ⟨g, g', hcs, -, hg'⟩ := trim_parts cs
  refine ⟨g ++ front, List.replicate n ']' ++ g', ?_, fun c hc => ?_⟩
  · rw [hcs, hstar]
    simp
  · rcases List.mem_append.mp hc with hclosing | hblank
    · exact .inl (List.eq_of_mem_replicate hclosing)
    · exact .inr (hg' c hblank)

theorem trimStart_append (hc : isBlank c = false) (front cs : List Char) :
    trimStart (front ++ c :: cs) = trimStart front ++ c :: cs := by
  refine (span_append fun _ => ?_).2
  rintro _ ⟨⟩
  exact hc

theorem mem_trimEnd (hc : isBlank c = false) (cs : List Char) : c ∈ trimEnd (c :: cs) := by
  have hmem := Written.mem_trim (List.mem_cons_self (a := c) (l := cs)) hc
  rwa [trim, trimStart, List.dropWhile_cons_of_neg (by simp [hc])] at hmem

theorem trimEnd_append (hc : isBlank c = false) (front cs : List Char) :
    trimEnd (front ++ c :: cs) = front ++ trimEnd (c :: cs) := by
  have hkept : (c :: cs).reverse.dropWhile isBlank = [] →
      ∀ d ∈ front.reverse.head?, isBlank d = false := by
    intro hnone
    have hall := List.dropWhile_eq_nil_iff.mp hnone c (by simp)
    rw [hc] at hall
    cases hall
  rw [trimEnd, List.reverse_append, (span_append hkept).2, List.reverse_append, List.reverse_reverse]
  rfl

theorem trimEnd_cons (hc : isBlank c = false) (cs : List Char) :
    ∃ more, trimEnd (c :: cs) = c :: more := by
  obtain ⟨d, more, hmore⟩ := List.exists_cons_of_ne_nil (List.ne_nil_of_mem (mem_trimEnd hc cs))
  obtain ⟨back, hback⟩ := trimEnd_initial (c :: cs)
  rw [hmore] at hback
  exact ⟨more, by rw [hmore, (List.cons.inj hback).1]⟩

/-- What stands before a character that is not passed makes no difference. -/
theorem endsInStar_behind (hc : ¬IsTail c) (front cs : List Char) :
    endsInStar (trim (front ++ c :: cs)) = endsInStar (trimEnd (c :: cs)) := by
  obtain ⟨hclosing, hsolid⟩ := not_or.mp hc
  rw [Bool.not_eq_true] at hsolid
  have hstop : (trimEnd (c :: cs)).reverse.dropWhile (· == ']') ≠ [] := by
    intro hnone
    have hall := List.dropWhile_eq_nil_iff.mp hnone c (List.mem_reverse.mpr (mem_trimEnd hsolid cs))
    exact hclosing (beq_iff_eq.mp hall)
  obtain ⟨d, more, hmore⟩ := List.exists_cons_of_ne_nil hstop
  rw [trim, trimStart_append hsolid, trimEnd_append hsolid, endsInStar, List.reverse_append,
    (span_append fun hnone => absurd hnone hstop).2, endsInStar, hmore]
  rfl

theorem trimStart_trim (cs : List Char) : trim (trimStart cs) = trim cs := by
  rw [trim, trimStart, trimStart, List.dropWhile_idempotent]
  rfl

theorem trim_trim (cs : List Char) : trim (trim cs) = trim cs := by
  have hstart : trimStart (trim cs) = trim cs := by
    refine (span_none fun c hc => ?_).2
    obtain ⟨more, hmore⟩ := List.head?_eq_some_iff.mp hc
    obtain ⟨back, hback⟩ := trimEnd_initial (trimStart cs)
    have hfirst := List.head?_dropWhile_not isBlank cs
    rw [trim] at hmore
    rw [hmore] at hback
    rw [show cs.dropWhile isBlank = c :: (more ++ back) from hback.symm] at hfirst
    exact hfirst
  rw [trim, hstart, trim, trimEnd, trimEnd, List.reverse_reverse, List.dropWhile_idempotent]

theorem splitStar_front {behind : List Char} (h : splitStar cs = some (front, behind))
    (more : List Char) : splitStar (front ++ '(' :: '*' :: more) = some (front, more) := by
  fun_induction splitStar cs generalizing front with
  | case1 cs =>
    cases h
    rfl
  | case2 c cs hopen ih =>
    obtain ⟨⟨inner, rest⟩, hinner, he⟩ := Option.map_eq_some_iff.mp h
    cases he
    have hcs := splitStar_eq_some hinner
    have hcons : c = '(' → ¬['*'] <+: inner ++ '(' :: '*' :: more := by
      rintro rfl ⟨next, hnext⟩
      rcases inner with _ | ⟨d, inner⟩
      · cases hnext
      · exact hopen _ rfl (by rw [hcs, (List.cons.inj hnext).1]; rfl)
    rw [List.cons_append, Settled.splitStar_cons hcons, ih hinner]
    rfl
  | case3 => cases h

theorem splitStar_trim_none (h : splitStar cs = none) : splitStar (trim cs) = none := by
  obtain ⟨g, g', hcs, -, -⟩ := trim_parts cs
  have hinfix : trim cs <:+: cs := ⟨g, g', by rw [List.append_assoc]; exact hcs.symm⟩
  exact splitStar_eq_none_iff.mpr fun hin => splitStar_eq_none_iff.mp h (hin.trans hinfix)

theorem splitStar_trim_some {behind : List Char} (h : splitStar cs = some (front, behind)) :
    trimStart cs = trimStart front ++ '(' :: '*' :: behind ∧
      ∃ more, splitStar (trim cs) = some (trimStart front, more) := by
  have hopen : isBlank '(' = false := rfl
  have hstart : trimStart cs = trimStart front ++ '(' :: '*' :: behind := by
    rw [splitStar_eq_some h, trimStart_append hopen]
  obtain ⟨more, hmore⟩ : ∃ more, trimEnd ('*' :: behind) = '*' :: more := trimEnd_cons rfl behind
  have hend : trim cs = trimStart front ++ '(' :: '*' :: more := by
    rw [trim, hstart, trimEnd_append hopen]
    have hparen : trimEnd (['('] ++ '*' :: behind) = ['('] ++ trimEnd ('*' :: behind) :=
      trimEnd_append rfl _ _
    rw [hmore] at hparen
    exact congrArg _ hparen
  refine ⟨hstart, more, ?_⟩
  have hblanks : Unstarred (front.takeWhile isBlank) := .closed fun hmem =>
    absurd (List.all_eq_true.mp List.all_takeWhile _ hmem) (by decide)
  have hparts := List.takeWhile_append_dropWhile (p := isBlank) (l := front)
  have hfront := splitStar_front h more
  rw [← hparts, List.append_assoc, hblanks] at hfront
  obtain ⟨p, hp, he⟩ := Option.map_eq_some_iff.mp hfront
  obtain ⟨hleft, hright⟩ := Prod.mk.inj he
  rw [hend]
  refine hp.trans (congrArg some (Prod.ext ?_ hright))
  exact List.append_cancel_left hleft

/-- How the name is told from the type, by the words alone. -/
def declaredIn (starred : Bool) (words : List String) : Option String :=
  match words.reverse with
  | last :: previous :: _ =>
    if typeKeywords.contains last || ["struct", "union", "enum"].contains previous || starred then none
    else some last
  | _ => none

theorem map_declaredName (body : List Char) (words : List (String × Nat)) :
    (declaredName body words).map (·.1) = declaredIn (endsInStar body) (words.map (·.1)) := by
  rw [declaredName, declaredIn, ← List.map_reverse]
  rcases words.reverse with _ | ⟨last, _ | ⟨previous, more⟩⟩
  · rfl
  · rfl
  · dsimp only [List.map_cons]
    rw [apply_ite (Option.map fun w : String × Nat => w.1)]
    rfl

theorem outline_plain (start : Nat) (body : List Char) : (plain start body).outline =
    ⟨(declaredIn (endsInStar body) (names body)).getD "", none⟩ := by
  rw [← map_wordsAt start body, ← map_declaredName, plain]
  cases declaredName body (wordsAt start body) with
  | none => rfl
  | some name => rfl

theorem vacant_iff : Vacant cs ↔ trim cs = [] ∨ trim cs = ['.', '.', '.'] := by
  rw [Vacant, Bool.or_eq_true, List.isEmpty_iff, beq_iff_eq]
  rfl

/-- The parameters of a list. -/
def listing (offset : Nat) (inside : List Char) : List ParamText :=
  if isVoidList offset inside (listed offset inside) then [] else listed offset inside

theorem outlines_listing (offset : Nat) (inside : List Char) :
    outlines (listing offset inside) = outlines (listing 0 inside) := by
  have hlisted := listed_moved offset 0 inside
  rw [Nat.zero_add] at hlisted
  have hvoid := isVoidList_moved offset 0 inside (listed 0 inside)
  rw [Nat.zero_add, ← hlisted] at hvoid
  rw [listing, listing, hvoid]
  split
  · rfl
  · rw [hlisted, outlines_moved]

/-- The list behind a text, without offsets. -/
def outlinesBehind (cs : List Char) : Option (List Outline) :=
  (recoverFrom 0 cs).map outlines

theorem outlines_recoverFrom (offset : Nat) (cs : List Char) :
    (recoverFrom offset cs).map outlines = outlinesBehind cs := by
  have hmoved := recoverFrom_moved offset 0 cs
  rw [Nat.zero_add] at hmoved
  rw [hmoved, Option.map_map, outlinesBehind]
  congr 1
  funext ps
  exact outlines_moved offset ps

theorem outlinesBehind_closed {inside : List Char} (hb : listBody cs = some (inside ++ ')' :: rest))
    (hg : afterGroup '(' ')' 0 (inside ++ ')' :: rest) = some rest) :
    outlinesBehind cs = some (outlines (listing 0 inside)) := by
  rw [outlinesBehind, recoverFrom_closed hb hg, Option.map_some]
  exact congrArg some (outlines_listing _ inside)

theorem outlinesBehind_unclosed {body : List Char} (hb : listBody cs = some body)
    (hg : afterGroup '(' ')' 0 body = none) : outlinesBehind cs = none := by
  rw [outlinesBehind, recoverFrom_unclosed hb hg]
  rfl

theorem outlinesBehind_congr (h : listBody cs = listBody cs') :
    outlinesBehind cs = outlinesBehind cs' := by
  cases hb : listBody cs with
  | none =>
    rw [outlinesBehind, outlinesBehind, recoverFrom_none hb, recoverFrom_none (h ▸ hb)]
  | some body =>
    cases hg : afterGroup '(' ')' 0 body with
    | none => rw [outlinesBehind_unclosed hb hg, outlinesBehind_unclosed (h ▸ hb) hg]
    | some rest =>
      obtain ⟨inside, rfl⟩ := afterGroup_closed hg
      rw [outlinesBehind_closed hb hg, outlinesBehind_closed (h ▸ hb) hg]

theorem word_ne_empty {word : String × Nat} (h : word ∈ wordsAt offset cs) : word.1 ≠ "" := by
  fun_induction wordsAt offset cs with
  | case1 => cases h
  | case2 offset rest after ih => exact ih h
  | case3 offset rest after hg ih => exact ih h
  | case4 => cases h
  | case5 offset c rest hopen hbracket hc name ih =>
    rcases List.mem_cons.mp h with rfl | hmore
    · intro hempty
      have hnil := congrArg String.toList hempty
      rw [String.toList_ofList, String.toList_empty] at hnil
      exact absurd hnil (List.cons_ne_nil c _)
    · exact ih hmore
  | case6 offset c rest hopen hbracket hc ih => exact ih h

/-- A text behind stars and blanks. -/
def pastStars (cs : List Char) : List Char :=
  cs.dropWhile fun c => c == '*' || isAsciiBlank c

/-- What is recovered of a parameter that is written in a part of a list. -/
def outlineOf (cs : List Char) : Outline :=
  match splitStar cs with
  | none => ⟨(declaredIn (endsInStar (trim cs)) (names cs)).getD "", none⟩
  | some (_, behind) => ⟨String.ofList ((pastStars behind).takeWhile isNameChar),
      outlinesBehind ((pastStars behind).dropWhile isNameChar)⟩

theorem outlineOf_plain (h : splitStar cs = none) :
    outlineOf cs = ⟨(declaredIn (endsInStar (trim cs)) (names cs)).getD "", none⟩ := by
  rw [outlineOf, h]

/-- The text of the type of a parameter without a name. -/
def unnamedType (cs : List Char) : List Char :=
  match splitStar cs with
  | none => trim cs
  | some (head, _) => trimStart head

/-- Whether a part makes its list empty if it is the only one. -/
def isVoidPart (cs : List Char) : Bool :=
  (outlineOf cs).name.isEmpty && trim (unnamedType cs) == "void".toList

/-- The entry for a part, by the text of the part alone. -/
structure EntryOf (cs : List Char) (offset : Nat) (e : ParamText) : Prop where
  outline_eq : e.outline = outlineOf cs
  type_eq : e.name = "" → ∀ base text, Span base text offset cs → typeText base text e = unnamedType cs

theorem EntryOf.isVoidList_eq {e : ParamText} (h : EntryOf cs offset e) {base : Nat} {text : List Char}
    (hspan : Span base text offset cs) : isVoidList base text [e] = isVoidPart cs := by
  have hname : (outlineOf cs).name = e.name := by rw [← h.outline_eq, ParamText.outline_eq]
  rw [isVoidList, isVoidPart, hname]
  cases hempty : e.name.isEmpty with
  | false => rfl
  | true => rw [h.type_eq (String.isEmpty_iff.mp hempty) base text hspan]

theorem piece_entry (hfull : ¬Vacant cs) (offset : Nat) :
    ∃ e, piece offset cs = some e ∧ EntryOf cs offset e := by
  cases hs : splitStar cs with
  | none =>
    refine ⟨_, piece_unstarred hfull (splitStar_trim_none hs), ?_, ?_⟩
    · rw [outline_plain, outlineOf, hs, ← names_trim cs]
      rfl
    · intro hempty base text hspan
      rw [unnamedType, hs]
      have hbody : Span base text (offset + byteLength (before cs (trimStart cs))) (trim cs) :=
        (span_trimmed hspan).initial (trimEnd_initial _)
      revert hempty
      rw [plain]
      split
      next hname => exact fun hempty => absurd hempty (word_ne_empty (declaredName_mem hname))
      next => exact fun _ => typeText_span hbody
  | some p =>
    obtain ⟨front, behind⟩ := p
    obtain ⟨hstart, more, hmore⟩ := splitStar_trim_some hs
    have hfrom : fromName (trimStart front) cs = pastStars behind := by
      rw [fromName, hstart, ← List.drop_drop, List.drop_left]
      rfl
    rw [piece_pointer hfull hmore, hfrom]
    dsimp only
    split
    next hempty =>
      refine ⟨_, rfl, ?_, fun _ base text hspan => ?_⟩
      · rw [ParamText.outline_eq, outlineOf, hs]
        dsimp only
        rw [outlines_recoverFrom, List.isEmpty_iff.mp hempty]
      · have hhead : Span base text (offset + byteLength (before cs (trimStart cs))) (trimStart front) :=
          (span_trimmed hspan).initial ⟨_, hstart.symm⟩
        rw [unnamedType, hs]
        exact typeText_span hhead
    next hname =>
      refine ⟨_, rfl, ?_, fun hempty => absurd ?_ hname⟩
      · rw [ParamText.outline_eq, outlineOf, hs]
        dsimp only
        rw [outlines_recoverFrom]
      · have hnil := congrArg String.toList hempty
        rw [String.toList_ofList, String.toList_empty] at hnil
        rw [hnil]
        rfl

end ParamText

end Bindery
