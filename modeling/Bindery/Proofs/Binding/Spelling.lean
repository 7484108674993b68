import Bindery.Binding.Function
import Bindery.Proofs.Text.Trimmed

/-! Which spellings of types a pattern of arguments takes for the same. Only the spaces before stars
are left out. -/

namespace Bindery

open ParamText (trimEnd_append)

variable {cs rest w x y : List Char} {c : Char}

/-- A space for each run of blanks. -/
def singleBlanks : List Char → List Char
  | [] => []
  | c :: cs =>
    if isBlank c then
      if cs.head?.any isBlank then singleBlanks cs else ' ' :: singleBlanks cs
    else c :: singleBlanks cs

/-- Leaves out each space with a star before or behind it; `before` is the character before the text. -/
def withoutBlanksAtStars (before : Option Char) : List Char → List Char
  | [] => []
  | c :: cs =>
    if c == ' ' && (before == some '*' || cs.head? == some '*') then withoutBlanksAtStars (some c) cs
    else c :: withoutBlanksAtStars (some c) cs

/-- For each star whether a space stands behind it that no star follows. -/
def spacedStars : List Char → List Bool
  | [] => []
  | c :: cs =>
    if c == '*' then (cs.head? == some ' ' && cs.tail.head? != some '*') :: spacedStars cs
    else spacedStars cs

/-- A spelling with its runs of blanks collapsed, and none at its ends. -/
def collapsed (spelling : String) : List Char :=
  trim (singleBlanks spelling.toList)

/-- A spelling without blanks around its stars. -/
def unspaced (spelling : String) : List Char :=
  withoutBlanksAtStars none (collapsed spelling)

section Collapsed

theorem singleBlanks_solids (h : ∀ c ∈ w, isBlank c = false) (cs : List Char) :
    singleBlanks (w ++ cs) = w ++ singleBlanks cs := by
  induction w with
  | nil => rfl
  | cons c w ih =>
    have hc := h c List.mem_cons_self
    rw [List.cons_append, singleBlanks, hc, ih fun d hd => h d (List.mem_cons_of_mem _ hd)]
    rfl

theorem singleBlanks_blank (hc : isBlank c) (cs : List Char) :
    singleBlanks (c :: cs) = ' ' :: singleBlanks (trimStart cs) := by
  induction cs generalizing c with
  | nil => simp [singleBlanks, hc, trimStart]
  | cons d cs ih =>
    rw [singleBlanks, if_pos hc, List.head?_cons, Option.any_some]
    cases hd : isBlank d with
    | true => rw [if_pos rfl, ih hd, trimStart, trimStart, List.dropWhile_cons_of_pos hd]
    | false => rw [if_neg Bool.false_ne_true, trimStart, List.dropWhile_cons_of_neg (by simp [hd])]

theorem trimStart_solid (hc : isBlank c = false) (cs : List Char) : trimStart (c :: cs) = c :: cs :=
  List.dropWhile_cons_of_neg (by simp [hc])

theorem trimStart_blank (hc : isBlank c) (cs : List Char) : trimStart (c :: cs) = trimStart cs :=
  List.dropWhile_cons_of_pos hc

/-- A text without blanks in front is kept so. -/
theorem trimStart_singleBlanks (cs : List Char) :
    trimStart (singleBlanks (trimStart cs)) = singleBlanks (trimStart cs) := by
  have hstart := trimStart_start cs
  cases h : trimStart cs with
  | nil => rfl
  | cons c rest =>
    have hc : isBlank c = false := hstart c (by simp [h])
    rw [singleBlanks, hc]
    exact trimStart_solid hc _

theorem trim_singleBlanks (cs : List Char) :
    trim (singleBlanks cs) = trimEnd (singleBlanks (trimStart cs)) := by
  cases cs with
  | nil => rfl
  | cons c cs =>
    cases hc : isBlank c with
    | true =>
      rw [trim, singleBlanks_blank hc, trimStart_blank (by decide), trimStart_singleBlanks, trimStart_blank hc]
    | false =>
      have hkept := trimStart_singleBlanks (c :: cs)
      rw [trimStart_solid hc] at hkept ⊢
      rw [trim, hkept]

theorem blankSeparated_blanks (h : trimStart cs = []) : blankSeparated cs = [] := by
  rw [blankSeparated]
  split
  next => rfl
  next hcons => cases h.symm.trans hcons

theorem blankSeparated_word (h : trimStart cs = c :: rest) :
    blankSeparated cs =
      (c :: rest.takeWhile (!isBlank ·)) :: blankSeparated (rest.dropWhile (!isBlank ·)) := by
  rw [blankSeparated]
  split
  next hnil => cases h.symm.trans hnil
  next hcons =>
    cases h.symm.trans hcons
    rfl

/-- A word is kept, with a space behind it if something follows. -/
theorem trimEnd_word (hw : ∀ c ∈ w, isBlank c = false) (hrest : ∀ c ∈ rest.head?, isBlank c) :
    trimEnd (singleBlanks (w ++ rest)) =
      if trimStart rest = [] then w else w ++ ' ' :: trimEnd (singleBlanks (trimStart rest)) := by
  have hword : trimEnd w = w := by
    refine Trimmed.trimEnd_eq ⟨fun c hc => hw c (List.mem_of_mem_head? hc), fun c hc => ?_⟩
    exact hw c (List.mem_of_getLast? hc)
  rw [singleBlanks_solids hw]
  cases rest with
  | nil => simp [singleBlanks, trimStart, hword]
  | cons b rest =>
    have hb : isBlank b := hrest b rfl
    have hstart := trimStart_start (b :: rest)
    rw [singleBlanks_blank hb]
    rw [trimStart_blank hb] at hstart ⊢
    cases htail : trimStart rest with
    | nil =>
      rw [if_pos rfl, singleBlanks, trimEnd, List.reverse_append, List.reverse_singleton,
        List.singleton_append, List.dropWhile_cons_of_pos (by decide)]
      exact hword
    | cons d rest =>
      have hd : isBlank d = false := hstart d (by simp [htail])
      have hsplit : w ++ ' ' :: singleBlanks (d :: rest) = (w ++ [' ']) ++ d :: singleBlanks rest := by
        rw [singleBlanks, hd, List.append_assoc]
        rfl
      have hkept : singleBlanks (d :: rest) = d :: singleBlanks rest := by
        rw [singleBlanks, hd]
        rfl
      rw [if_neg (List.cons_ne_nil d rest), hsplit, trimEnd_append hd, hkept, List.append_assoc]
      rfl

/-- Going through the text gives the words with single spaces between them. -/
theorem intercalate_blankSeparated (cs : List Char) :
    [' '].intercalate (blankSeparated cs) = trim (singleBlanks cs) := by
  rw [trim_singleBlanks]
  fun_induction blankSeparated cs with
  | case1 cs h => rw [h]; rfl
  | case2 cs c rest h ih =>
    have hc : isBlank c = false := trimStart_start cs c (by simp [h])
    have hword : ∀ d ∈ c :: rest.takeWhile (!isBlank ·), isBlank d = false := by
      refine List.forall_mem_cons.mpr ⟨hc, fun d hd => ?_⟩
      simpa using List.all_eq_true.mp List.all_takeWhile d hd
    have hbehind : ∀ d ∈ (rest.dropWhile (!isBlank ·)).head?, isBlank d := by
      intro d hd
      have hstop := List.head?_dropWhile_not (!isBlank ·) rest
      rw [Option.mem_def.mp hd] at hstop
      simpa using hstop
    have hsplit : c :: rest = c :: rest.takeWhile (!isBlank ·) ++ rest.dropWhile (!isBlank ·) := by
      rw [List.cons_append, List.takeWhile_append_dropWhile]
    -- The word ends at a blank or with the text, and a space is left behind it only if another word follows.
    rw [h, hsplit, trimEnd_word hword hbehind, ← ih]
    split
    next hnone => rw [blankSeparated_blanks hnone, List.intercalate_singleton]
    next hmore =>
      obtain ⟨d, more, hmore⟩ := List.exists_cons_of_ne_nil hmore
      rw [List.intercalate_cons_of_ne_nil (by rw [blankSeparated_word hmore]; exact List.cons_ne_nil _ _),
        List.append_assoc, List.singleton_append]

theorem collapseBlanks_toList (s : String) : (collapseBlanks s).toList = collapsed s := by
  rw [collapseBlanks, String.toList_intercalate, List.map_map, collapsed, ← intercalate_blankSeparated]
  congr 1
  simp

end Collapsed

section Stars

/-- Leaves out a space behind each star. -/
def dropBlankBehindStar (behind : Bool) : List Char → List Char
  | [] => []
  | c :: cs =>
    if behind && c == ' ' then dropBlankBehindStar false cs
    else c :: dropBlankBehindStar (c == '*') cs

/-- For each star whether a space stands behind it. -/
def starBlanks : List Char → List Bool
  | [] => []
  | c :: cs => if c == '*' then (cs.head? == some ' ') :: starBlanks cs else starBlanks cs

theorem head?_ne_star (h : ∀ rest, cs = '*' :: rest → False) : (cs.head? == some '*') = false := by
  cases cs with
  | nil => rfl
  | cons c cs =>
    rw [beq_eq_false_iff_ne]
    rintro ⟨⟩
    exact h cs rfl

/-- The spaces before stars may be left out first, and those behind them then. -/
theorem withoutBlanksAtStars_eq (before : Option Char) (cs : List Char) :
    withoutBlanksAtStars before cs =
      dropBlankBehindStar (before == some '*') (dropBlankBeforeStar cs) := by
  fun_induction dropBlankBeforeStar cs generalizing before with
  | case1 cs ih =>
    rw [withoutBlanksAtStars, if_pos (by simp), withoutBlanksAtStars, if_neg (by simp), ih,
      dropBlankBehindStar, if_neg (by simp)]
    rfl
  | case2 c cs hother ih =>
    -- A space before a star is gone already, so what is left out here stands behind one.
    have hahead : (c == ' ' && (before == some '*' || cs.head? == some '*')) =
        (before == some '*' && c == ' ') := by
      by_cases hc : c = ' '
      · rw [head?_ne_star (hother · hc), Bool.or_false, Bool.and_comm]
      · rw [beq_eq_false_iff_ne.mpr hc, Bool.false_and, Bool.and_false]
    rw [withoutBlanksAtStars, hahead, dropBlankBehindStar]
    split
    next hleft =>
      have hc : c = ' ' := by simpa using (Bool.and_eq_true_iff.mp hleft).2
      rw [ih, hc]
      rfl
    next => rw [ih, Option.some_beq_some]
  | case3 => rfl

theorem head?_dropBlankBeforeStar (cs : List Char) :
    ((dropBlankBeforeStar cs).head? == some ' ') =
      (cs.head? == some ' ' && cs.tail.head? != some '*') := by
  fun_cases dropBlankBeforeStar cs with
  | case1 cs => rfl
  | case2 c cs hother =>
    by_cases hc : c = ' '
    · rw [bne, List.tail_cons, head?_ne_star (hother · hc)]
      simp
    · simp [hc]
  | case3 => rfl

theorem spacedStars_eq (cs : List Char) : spacedStars cs = starBlanks (dropBlankBeforeStar cs) := by
  fun_induction dropBlankBeforeStar cs with
  | case1 cs ih =>
    rw [spacedStars, if_neg (by simp), spacedStars, if_pos (by simp), starBlanks, if_pos (by simp), ih,
      head?_dropBlankBeforeStar]
  | case2 c cs hother ih => rw [spacedStars, starBlanks, ih, head?_dropBlankBeforeStar]
  | case3 => rfl

theorem dropBlankBehindStar_nil {behind : Bool} (h : dropBlankBehindStar behind x = [])
    (hfirst : behind → (x.head? == some ' ') = false) : x = [] := by
  cases x with
  | nil => rfl
  | cons c x =>
    rw [dropBlankBehindStar] at h
    split at h
    next hdrop =>
      obtain ⟨hbehind, hc⟩ := Bool.and_eq_true_iff.mp hdrop
      have hother := hfirst hbehind
      rw [List.head?_cons, Option.some_beq_some, hc] at hother
      cases hother
    next => cases h

/-- A text is known without the spaces behind its stars if it is known where those stood. -/
theorem dropBlankBehindStar_inj {behind : Bool}
    (h : dropBlankBehindStar behind x = dropBlankBehindStar behind y) (hstars : starBlanks x = starBlanks y)
    (hfirst : behind → (x.head? == some ' ') = (y.head? == some ' ')) : x = y := by
  induction x generalizing behind y with
  | nil => exact (dropBlankBehindStar_nil h.symm fun hb => (hfirst hb).symm).symm
  | cons c x ih =>
    cases y with
    | nil => exact dropBlankBehindStar_nil h hfirst
    | cons d y =>
      have hsame : (behind && c == ' ') = (behind && d == ' ') := by
        cases behind with
        | false => rfl
        | true => exact hfirst rfl
      rw [dropBlankBehindStar, dropBlankBehindStar, ← hsame] at h
      split at h
      next hdrop =>
        obtain rfl : c = ' ' := beq_iff_eq.mp (Bool.and_eq_true_iff.mp hdrop).2
        obtain rfl : d = ' ' := beq_iff_eq.mp (Bool.and_eq_true_iff.mp (hsame ▸ hdrop)).2
        rw [ih h hstars (by simp)]
      next =>
        obtain ⟨rfl, h⟩ := List.cons.inj h
        rw [starBlanks, starBlanks] at hstars
        split at hstars
        next =>
          obtain ⟨hblank, hstars⟩ := List.cons.inj hstars
          rw [ih h hstars fun _ => hblank]
        next hother => rw [ih h hstars fun hstar => absurd hstar hother]

end Stars

theorem squashed_eq (s : String) : squashed s = dropBlankBeforeStar (collapsed s) := by
  rw [squashed, collapseBlanks_toList]

/-- Two spellings are the same exactly if they are without the blanks around their stars, and the same
stars are followed by a blank that no star follows. -/
theorem sameType_iff (a b : String) : sameType a b ↔
    unspaced a = unspaced b ∧ spacedStars (collapsed a) = spacedStars (collapsed b) := by
  rw [sameType, beq_iff_eq, squashed_eq, squashed_eq, unspaced, unspaced, withoutBlanksAtStars_eq,
    withoutBlanksAtStars_eq, spacedStars_eq, spacedStars_eq]
  constructor
  · intro h
    rw [h]
    exact ⟨rfl, rfl⟩
  · rintro ⟨hsame, hstars⟩
    exact dropBlankBehindStar_inj hsame hstars (by simp)

/-- A pattern with a blank behind the first star does not stand for the argument that has none there. -/
theorem constPointer_differs :
    unspaced "char *const *" = unspaced "char * const *" ∧
      sameType "char *const *" "char * const *" = false := by
  refine ⟨by decide, ?_⟩
  rw [sameType, squashed_eq, squashed_eq]
  decide

end Bindery
