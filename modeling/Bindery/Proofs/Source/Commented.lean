import Bindery.Proofs.Source.Parts

/-! A comment between two tokens of a declarator. -/

namespace Bindery

open ParamText (afterGroup fromComma listBody splitStar names endsInStar isNameChar outlines IsTail outlineOf declaredIn
  unnamedType isVoidPart outlinesBehind pastStars listing parts recover wordsAt Vacant)

variable {cs rest front back a a' b b' : List Char} {c : Char} {offset : Nat} {k : Comment}

def voidChars : List Char :=
  "void".toList

/-- Two texts that a comment must not be put between. -/
inductive Joined : List Char → List Char → Prop
  | word {c d : Char} (left : isNameChar c) (right : isNameChar d) : Joined [c] [d]
  | mark : Joined ['('] ['*']
  | name {stars blanks : List Char} {d : Char} (left : ∀ c ∈ stars, c == '*' || isAsciiBlank c)
      (right : ∀ c ∈ blanks, isAsciiBlank c) (named : d = '*' ∨ isNameChar d) :
      Joined ('(' :: '*' :: stars) (blanks ++ [d])
  | star {tail tail' : List Char} {ending : Char} (left : ∀ c ∈ tail, IsTail c)
      (right : ∀ c ∈ tail', IsTail c) (ends : ending ∈ [',', ')']) :
      Joined ('*' :: tail) (tail' ++ [ending])
  | part {opening ending : Char} {front back : List Char} (opens : opening ∈ ['(', ','])
      (ends : ending ∈ [',', ')']) (bare : trim (front ++ back) ∈ [[], ['.', '.', '.'], voidChars]) :
      Joined (opening :: front) (back ++ [ending])
  | result {opening d : Char} {front back stars : List Char} (opens : opening ∈ ['(', ','])
      (bare : trim (front ++ back) = voidChars) (left : ∀ c ∈ stars, c == '*' || isAsciiBlank c)
      (unnamed : (d == '*' || isAsciiBlank d || isNameChar d) = false) :
      Joined (opening :: front) (back ++ '(' :: '*' :: (stars ++ [d]))

/-- Texts that a comment may be put between. -/
def Apart (a b : List Char) : Prop :=
  ∀ left right, left <:+ a → right <+: b → ¬Joined left right

theorem Apart.mono (h : Apart a b) (ha : a' <:+ a) (hb : b' <+: b) : Apart a' b' :=
  fun _ _ hleft hright => h _ _ (hleft.trans ha) (hright.trans hb)

/-- A comment may stand behind a word of a type other than `void`. -/
theorem apart_behind {front inner b : List Char} (s : Char) (hinner : ∀ c ∈ inner, c ∉ ['(', ',', '*'])
    (hs : s ∈ inner) (hsolid : ¬IsTail s) (hother : s ∉ '.' :: voidChars)
    (hword : ∀ c ∈ inner.getLast?, isNameChar c → ∀ d ∈ b.head?, isNameChar d = false) :
    Apart (front ++ inner) b := by
  have hbehind : ∀ mark tail, mark ∈ ['(', ',', '*'] → mark :: tail <:+ front ++ inner → s ∈ tail := by
    intro mark tail hmark hsuffix
    rcases List.suffix_or_suffix_of_suffix hsuffix (List.suffix_append front inner) with hin | hin
    · exact absurd hmark (hinner mark (hin.subset List.mem_cons_self))
    · rcases List.mem_cons.mp (hin.subset hs) with rfl | htail
      · exact absurd hmark (hinner s hs)
      · exact htail
  have hbare : ∀ text, s ∈ text → trim text ∉ [[], ['.', '.', '.'], voidChars] := by
    intro text htext hbare
    have hmem := Written.mem_trim htext (Bool.eq_false_iff.mpr fun hblank => hsolid (.inr hblank))
    obtain ⟨hdot, hvoid⟩ := not_or.mp (mt List.mem_cons.mpr hother)
    rcases List.mem_cons.mp hbare with hempty | hbare
    · exact absurd (hempty ▸ hmem) List.not_mem_nil
    rcases List.mem_pair.mp hbare with hdots | hword
    · rw [hdots] at hmem
      exact hdot (by simpa using hmem)
    · exact hvoid (hword ▸ hmem)
  have hopening : ∀ opening ∈ ['(', ','], opening ∈ ['(', ',', '*'] := by simp
  intro left right hleft hright hjoined
  cases hjoined with
  | @word c d hc hd =>
    obtain ⟨front', hlast⟩ := List.suffix_of_suffix_length_le hleft (List.suffix_append front inner)
      (List.length_pos_of_mem hs)
    obtain ⟨back, hnext⟩ := hright
    have hends := hword c (List.getLast?_eq_some_iff.mpr ⟨front', hlast.symm⟩) hc d
      (List.head?_eq_some_iff.mpr ⟨back, hnext.symm⟩)
    rw [hd] at hends
    cases hends
  | mark => exact absurd (hbehind '(' [] (by decide) hleft) List.not_mem_nil
  | name hstars =>
    rcases List.mem_cons.mp (hbehind '(' _ (by decide) hleft) with rfl | hmem
    · exact hinner '*' hs (by decide)
    · rcases Bool.or_eq_true_iff.mp (hstars s hmem) with hstar | hblank
      · exact hinner s hs (by simp [beq_iff_eq.mp hstar])
      · exact hsolid (.inr (isBlank_of_isAsciiBlank hblank))
  | star htail => exact hsolid (htail s (hbehind '*' _ (by decide) hleft))
  | part hopens _ hpart =>
    exact hbare _ (List.mem_append_left _ (hbehind _ _ (hopening _ hopens) hleft)) hpart
  | @result _ _ front' back' _ hopens hresult =>
    have hmem : s ∈ front' ++ back' :=
      List.mem_append_left _ (hbehind _ _ (hopening _ hopens) hleft)
    refine hbare _ hmem ?_
    rw [hresult]
    simp

theorem not_isTail_star : ¬IsTail '*' := by
  rintro (⟨⟨⟩⟩ | ⟨⟨⟩⟩)

theorem not_isTail_slash : ¬IsTail '/' := by
  rintro (⟨⟨⟩⟩ | ⟨⟨⟩⟩)

/-- No star at the end of a text is one at the end of a longer text either, if only brackets and blanks
follow. -/
theorem not_endsInStar (hfront : ∀ tail, '*' :: tail <:+ front → ¬∀ c ∈ tail, IsTail c)
    (hback : ∀ c ∈ back, IsTail c) : endsInStar (trim (front ++ back)) = false := by
  rw [← Bool.not_eq_true]
  intro hstar
  obtain ⟨before, tail, hparts, htail⟩ := ParamText.endsInStar_trim hstar
  rcases List.append_eq_append_iff.mp hparts with ⟨gap, -, hgap⟩ | ⟨_ | ⟨c, gap⟩, hgap, htext⟩
  · exact not_isTail_star (hback '*' (by simp [hgap]))
  · rw [List.nil_append] at htext
    exact not_isTail_star (hback '*' (htext ▸ List.mem_cons_self))
  · obtain ⟨rfl, rfl⟩ := List.cons.inj htext
    exact hfront gap ⟨before, hgap.symm⟩ fun c hc => htail c (List.mem_append_left _ hc)

theorem endsInStar_insert (hk : k.Inert)
    (hstar : ∀ tail, '*' :: tail <:+ a → (∀ c ∈ tail, IsTail c) → ¬∀ c ∈ b, IsTail c) :
    endsInStar (trim (a ++ (k.chars ++ b))) = endsInStar (trim (a ++ b)) := by
  by_cases hall : ∀ c ∈ b, IsTail c
  · have hcomment : ∀ tail, '*' :: tail <:+ a ++ k.chars → ¬∀ c ∈ tail, IsTail c := by
      intro tail hsuffix htail
      obtain ⟨chars, hchars⟩ := hk.ends_slash
      have hlast : ['/'] <:+ a ++ k.chars := ⟨a ++ chars, by rw [hchars, List.append_assoc]⟩
      have hslash := (List.suffix_of_suffix_length_le hlast hsuffix (by simp)).subset
        (List.mem_singleton_self '/')
      rcases List.mem_cons.mp hslash with ⟨⟨⟩⟩ | hmem
      exact not_isTail_slash (htail '/' hmem)
    rw [not_endsInStar (fun tail hsuffix htail => hstar tail hsuffix htail hall) hall,
      ← List.append_assoc, not_endsInStar hcomment hall]
  · simp only [not_forall] at hall
    obtain ⟨c, hmem, hc⟩ := hall
    obtain ⟨between, tail, rfl⟩ := List.append_of_mem hmem
    have hcommented : a ++ (k.chars ++ (between ++ c :: tail)) =
        a ++ (k.chars ++ between) ++ c :: tail := by simp
    rw [hcommented, ParamText.endsInStar_behind hc, ← List.append_assoc, ParamText.endsInStar_behind hc]

theorem slash_mem_trim (a b : List Char) (k : Comment) : '/' ∈ trim (a ++ (k.chars ++ b)) := by
  obtain ⟨chars, hchars⟩ := k.exists_slash
  exact Written.mem_trim (by simp [hchars]) rfl

theorem slash_ne_void (h : '/' ∈ cs) : cs ≠ voidChars := by
  rintro rfl
  exact absurd h (by decide)

theorem slash_starless (k : Comment) (b : List Char) : ¬['*'] <+: k.chars ++ b := by
  obtain ⟨chars, hchars⟩ := k.exists_slash
  simp [hchars]

/-- What follows the stars of a pointer to a function without a name. -/
theorem unnamed_next {ending : Char} (ends : ending ∈ [',', ')'])
    (hname : (pastStars cs).takeWhile isNameChar = []) :
    ∃ stars d, (∀ c ∈ stars, c == '*' || isAsciiBlank c) ∧ stars ++ [d] <+: cs ++ [ending] ∧
      (d == '*' || isAsciiBlank d || isNameChar d) = false := by
  have hcs := List.takeWhile_append_dropWhile (p := fun c => c == '*' || isAsciiBlank c) (l := cs)
  have hstop := List.head?_dropWhile_not (fun c => c == '*' || isAsciiBlank c) cs
  rw [pastStars] at hname
  cases hrest : cs.dropWhile (fun c => c == '*' || isAsciiBlank c) with
  | nil =>
    refine ⟨cs, ending, List.dropWhile_eq_nil_iff.mp hrest, List.prefix_refl _, ?_⟩
    rcases List.mem_pair.mp ends with rfl | rfl <;> decide
  | cons d more =>
    rw [hrest] at hname hstop
    refine ⟨cs.takeWhile fun c => c == '*' || isAsciiBlank c, d,
      List.all_eq_true.mp List.all_takeWhile, ⟨more ++ [ending], ?_⟩, ?_⟩
    · conv_rhs => rw [← hcs, hrest]
      simp
    · have hd : (d == '*' || isAsciiBlank d) = false := hstop
      have hnamed : isNameChar d = false := by
        rw [← Bool.not_eq_true]
        intro hd
        rw [List.takeWhile_cons_of_pos hd] at hname
        exact absurd hname (List.cons_ne_nil _ _)
      rw [hd, hnamed]
      rfl

theorem pastStars_slash (k : Comment) (b : List Char) : pastStars (k.chars ++ b) = k.chars ++ b := by
  obtain ⟨chars, hchars⟩ := k.exists_slash
  rw [hchars]
  rfl

/-- Behind the stars stand the same name and the same list behind it. -/
def SameCallback (cs cs' : List Char) : Prop :=
  (pastStars cs).takeWhile isNameChar = (pastStars cs').takeWhile isNameChar ∧
    outlinesBehind ((pastStars cs).dropWhile isNameChar) =
      outlinesBehind ((pastStars cs').dropWhile isNameChar)

/-- The name is looked for behind a text of stars and blanks, where neither it nor a star stands. -/
theorem sameCallback_behind (hk : k.Inert) (hapart : Apart ('(' :: '*' :: a) b)
    (hall : ∀ c ∈ a, c == '*' || isAsciiBlank c) : SameCallback (a ++ (k.chars ++ b)) (a ++ b) := by
  have hpast : ∀ x, pastStars (a ++ x) = pastStars x := fun x => List.dropWhile_append_of_pos hall
  have hblanks : ∀ c ∈ b.takeWhile isAsciiBlank, isAsciiBlank c := List.all_eq_true.mp List.all_takeWhile
  have hb := List.takeWhile_append_dropWhile (p := isAsciiBlank) (l := b)
  have hhead : ∀ d ∈ (b.dropWhile isAsciiBlank).head?,
      (d == '*' || isAsciiBlank d) = false ∧ isNameChar d = false := by
    intro d hd
    have hstop := List.head?_dropWhile_not isAsciiBlank b
    obtain ⟨more, hmore⟩ := List.head?_eq_some_iff.mp hd
    have hnext : b.takeWhile isAsciiBlank ++ [d] <+: b := by
      refine ⟨more, ?_⟩
      rw [List.append_assoc, List.singleton_append, ← hmore, hb]
    have hjoined : ¬(d = '*' ∨ isNameChar d) := fun hd =>
      hapart _ _ (List.suffix_refl _) hnext (.name hall hblanks hd)
    rw [hd] at hstop
    obtain ⟨hstar, hname⟩ := not_or.mp hjoined
    exact ⟨by simpa [hstar] using hstop, (Bool.not_eq_true _).mp hname⟩
  have hpast' : pastStars b = b.dropWhile isAsciiBlank := by
    have hskipped : ∀ c ∈ b.takeWhile isAsciiBlank, c == '*' || isAsciiBlank c := fun c hc =>
      Bool.or_eq_true_iff.mpr (.inr (hblanks c hc))
    have hspan := (QualType.span_eq hskipped fun d hd => (hhead d hd).1).2
    rwa [hb] at hspan
  have hnone := ParamText.span_none fun d hd => (hhead d hd).2
  have hnone' := ParamText.span_none (Settled.slash_ends k b)
  rw [SameCallback, hpast, hpast, hpast', pastStars_slash, hnone.1, hnone.2, hnone'.1, hnone'.2]
  refine ⟨rfl, ParamText.outlinesBehind_congr ?_⟩
  have hlead : Lead (b.takeWhile isAsciiBlank) :=
    .blanks fun c hc => isBlank_of_isAsciiBlank (hblanks c hc)
  rw [ParamText.listBody_congr (ParamText.skipTrivia_comment k hk.skipped b)]
  conv_lhs => rw [← hb]
  exact hlead.listBody_eq _

/-- The name begins in the text, or something that ends the search for one. -/
theorem sameCallback_within (hne : pastStars a ≠ []) (ha : Settled (pastStars a))
    (hapart : Apart ('(' :: '*' :: a) b)
    (ih : ∀ a', a'.length ≤ a.length → Settled a' → Apart a' b →
      outlinesBehind (a' ++ (k.chars ++ b)) = outlinesBehind (a' ++ b)) :
    SameCallback (a ++ (k.chars ++ b)) (a ++ b) := by
  have hpast : ∀ x, pastStars (a ++ x) = pastStars a ++ x := fun x =>
    (ParamText.span_append fun hnone => absurd hnone hne).2
  have hsuffix : pastStars a <:+ a := List.dropWhile_suffix _
  have hword : (pastStars a).dropWhile isNameChar = [] → ∀ d ∈ b.head?, isNameChar d = false := by
    intro hnone
    refine Settled.word_ends (fun c d hc hd hleft hright => ?_) hne (List.dropWhile_eq_nil_iff.mp hnone)
    refine hapart _ _ (hleft.trans ?_) hright (.word hc hd)
    exact hsuffix.trans ((List.suffix_cons _ _).trans (List.suffix_cons _ _))
  have hother : (pastStars a).dropWhile isNameChar = [] →
      ∀ d ∈ (k.chars ++ b).head?, isNameChar d = false := fun _ => Settled.slash_ends k b
  obtain ⟨htake, hdrop⟩ := ParamText.span_append hword
  obtain ⟨htake', hdrop'⟩ := ParamText.span_append hother
  rw [SameCallback, hpast, hpast, htake, htake', hdrop, hdrop']
  refine ⟨rfl, ih _ ?_ ?_ ?_⟩
  · exact (length_dropWhile_le _ _).trans hsuffix.length_le
  · have hname := List.takeWhile_append_dropWhile (p := isNameChar) (l := pastStars a)
    have hplain : '/' ∉ (pastStars a).takeWhile isNameChar := fun hmem =>
      absurd (List.all_eq_true.mp List.all_takeWhile _ hmem) (by decide)
    exact (hname.symm ▸ ha).behind _ hplain
  · refine hapart.mono ((List.dropWhile_suffix _).trans (hsuffix.trans ?_)) (List.prefix_refl _)
    exact (List.suffix_cons _ _).trans (List.suffix_cons _ _)

/-- The name behind the mark of a pointer to a function, and the list behind the name. -/
theorem sameCallback_insert (ha : Settled a) (hk : k.Inert) (hapart : Apart ('(' :: '*' :: a) b)
    (ih : ∀ a', a'.length ≤ a.length → Settled a' → Apart a' b →
      outlinesBehind (a' ++ (k.chars ++ b)) = outlinesBehind (a' ++ b)) :
    SameCallback (a ++ (k.chars ++ b)) (a ++ b) := by
  by_cases hnone : pastStars a = []
  · exact sameCallback_behind hk hapart (List.dropWhile_eq_nil_iff.mp hnone)
  · have hparts := List.takeWhile_append_dropWhile (p := fun c => c == '*' || isAsciiBlank c) (l := a)
    have hslash : '/' ∉ a.takeWhile fun c => c == '*' || isAsciiBlank c := fun hmem =>
      absurd (List.all_eq_true.mp List.all_takeWhile '/' hmem) (by decide)
    exact sameCallback_within hnone ((hparts.symm ▸ ha).behind _ hslash) hapart ih

section

variable {opening ending : Char} (ha : Settled a) (hk : k.Inert) (opens : opening ∈ ['(', ','])
  (ends : ending ∈ [',', ')']) (hapart : Apart (opening :: a) (b ++ [ending]))
include opens ends hapart

theorem not_bare : trim (a ++ b) ∉ [[], ['.', '.', '.'], voidChars] := fun hbare =>
  hapart _ _ (List.suffix_refl _) (List.prefix_refl _) (.part opens ends hbare)

theorem not_vacant : ¬Vacant (a ++ b) := by
  have hbare := not_bare opens ends hapart
  rw [ParamText.vacant_iff]
  rintro (hempty | hdots)
  · exact hbare (by simp [hempty])
  · exact hbare (by simp [hdots])

include ha hk

omit opens in
theorem outlineOf_insert (ih : ∀ a', a'.length < a.length → Settled a' → Apart a' b →
    outlinesBehind (a' ++ (k.chars ++ b)) = outlinesBehind (a' ++ b)) :
    outlineOf (a ++ (k.chars ++ b)) = outlineOf (a ++ b) := by
  have hword : ∀ c d, isNameChar c → isNameChar d → [c] <:+ a → ¬[d] <+: b := fun c d hc hd hleft hright =>
    hapart _ _ (hleft.trans (List.suffix_cons _ _)) (hright.trans (List.prefix_append _ _)) (.word hc hd)
  rcases ha.splitStar_decides with ⟨head, rest, hcs, hrest, hfound⟩ | hall
  · have hsuffix : '(' :: '*' :: rest <:+ opening :: a := ⟨opening :: head, by rw [hcs]; rfl⟩
    obtain ⟨hname, hbehind⟩ := sameCallback_insert hrest hk
      (hapart.mono hsuffix (List.prefix_append _ _)) fun a' hlength => ih a' (by simp [hcs]; omega)
    rw [outlineOf, outlineOf, hfound, hfound]
    dsimp only
    rw [hname, hbehind]
  · have hmark : ['('] <:+ a → ¬['*'] <+: b := fun hleft hright =>
      hapart _ _ (hleft.trans (List.suffix_cons _ _)) (hright.trans (List.prefix_append _ _)) .mark
    have hsplit := hall b hmark
    have hsplit' := hall (k.chars ++ b) fun _ => slash_starless k b
    rw [hk.unstarred] at hsplit'
    cases hs : splitStar b with
    | none =>
      rw [hs] at hsplit hsplit'
      have hstar : ∀ tail, '*' :: tail <:+ a → (∀ c ∈ tail, IsTail c) → ¬∀ c ∈ b, IsTail c := by
        intro tail hleft htail hback
        exact hapart _ _ (hleft.trans (List.suffix_cons _ _)) (List.prefix_refl _) (.star htail hback ends)
      rw [outlineOf, outlineOf, hsplit, hsplit']
      dsimp only [Option.map_none]
      rw [endsInStar_insert hk hstar, ha.names_insert hk hword]
    | some p =>
      rw [hs] at hsplit hsplit'
      rw [outlineOf, outlineOf, hsplit, hsplit']
      rfl

omit ha in
/-- The type of a parameter without a name is not `void` alone, with the comment or without it. -/
theorem unnamedType_ne_void (hall : ∀ x, (['('] <:+ a → ¬['*'] <+: x) →
      splitStar (a ++ x) = (splitStar x).map fun p => (a ++ p.1, p.2))
    (hname : (outlineOf (a ++ b)).name = "") :
    trim (unnamedType (a ++ (k.chars ++ b))) ≠ voidChars ∧ trim (unnamedType (a ++ b)) ≠ voidChars := by
  have hsplit := hall b fun hleft hright =>
    hapart _ _ (hleft.trans (List.suffix_cons _ _)) (hright.trans (List.prefix_append _ _)) .mark
  have hsplit' := hall (k.chars ++ b) fun _ => slash_starless k b
  rw [hk.unstarred] at hsplit'
  cases hs : splitStar b with
  | none =>
    rw [hs] at hsplit hsplit'
    rw [unnamedType, unnamedType, hsplit, hsplit']
    dsimp only [Option.map_none]
    rw [ParamText.trim_trim, ParamText.trim_trim]
    refine ⟨slash_ne_void (slash_mem_trim a b k), fun hvoid => ?_⟩
    exact not_bare opens ends hapart (by simp [hvoid])
  | some p =>
    obtain ⟨head, behind⟩ := p
    rw [hs] at hsplit hsplit'
    rw [outlineOf, hsplit] at hname
    rw [unnamedType, unnamedType, hsplit, hsplit']
    dsimp only [Option.map_some] at hname ⊢
    rw [ParamText.trimStart_trim, ParamText.trimStart_trim]
    refine ⟨slash_ne_void (slash_mem_trim a head k), fun hvoid => ?_⟩
    obtain ⟨stars, d, hstars, hnext, hd⟩ := unnamed_next ends (String.ofList_eq_empty_iff.mp hname)
    refine hapart _ _ (List.suffix_refl _) ?_ (.result opens hvoid hstars hd)
    rw [ParamText.splitStar_eq_some hs, List.append_assoc]
    exact (List.prefix_append_right_inj _).mpr ((List.prefix_append_right_inj ['(', '*']).mpr hnext)

theorem isVoidPart_insert (houtline : outlineOf (a ++ (k.chars ++ b)) = outlineOf (a ++ b)) :
    isVoidPart (a ++ (k.chars ++ b)) = isVoidPart (a ++ b) := by
  rw [isVoidPart, isVoidPart, houtline]
  cases hname : (outlineOf (a ++ b)).name.isEmpty with
  | false => rfl
  | true =>
    rw [Bool.true_and, Bool.true_and]
    rcases ha.splitStar_decides with ⟨head, rest, -, -, hfound⟩ | hall
    · rw [unnamedType, unnamedType, hfound, hfound]
    · obtain ⟨hvoid, hvoid'⟩ :=
        unnamedType_ne_void hk opens ends hapart hall (String.isEmpty_iff.mp hname)
      exact (beq_eq_false_iff_ne.mpr hvoid).trans (beq_eq_false_iff_ne.mpr hvoid').symm

end

theorem commented_not_vacant (a b : List Char) (k : Comment) : ¬Vacant (a ++ (k.chars ++ b)) := by
  have hslash := slash_mem_trim a b k
  rw [ParamText.vacant_iff]
  rintro (hempty | hdots)
  · exact absurd (hempty ▸ hslash) List.not_mem_nil
  · exact absurd (hdots ▸ hslash) (by decide)

/-- A comment between two texts of a list stands in one part, and the other parts are the same with it. -/
inductive Around (k : Comment) (a b : List Char) : Prop
  | part {opening ending : Char} {front back : List Char} (ps ps' : List (List Char))
      (opens : opening ∈ ['(', ',']) (ends : ending ∈ [',', ')']) (settled : Settled front)
      (length_le : front.length ≤ a.length) (apart : Apart (opening :: front) (back ++ [ending]))
      (plain_eq : parts (a ++ b) = ps ++ (front ++ back) :: ps')
      (commented_eq : parts (a ++ (k.chars ++ b)) = ps ++ (front ++ (k.chars ++ back)) :: ps')

theorem around (ha : Settled a) (hk : k.Inert) {opening : Char} (opens : opening ∈ ['(', ','])
    (hapart : Apart (opening :: a) (b ++ [')'])) : Around k a b := by
  induction hn : a.length using Nat.strongRecOn generalizing a opening with
  | ind n ih =>
    rcases ha.fromComma_decides 0 with ⟨first, rest, rfl, hrest, hfound⟩ | ⟨d, hall⟩
    · -- the comment stands in a part behind the first one
      have hlength : rest.length < n := by
        rw [← hn, List.length_append, List.length_cons]
        omega
      have hsuffix : ',' :: rest <:+ opening :: (first ++ ',' :: rest) := ⟨opening :: first, rfl⟩
      have hparts : ∀ x, parts (first ++ ',' :: rest ++ x) = first :: parts (rest ++ x) := by
        intro x
        have hcomma := hfound x
        rw [List.append_assoc, List.cons_append] at hcomma ⊢
        exact ParamText.parts_comma hcomma
      obtain ⟨ps, ps', hopens, hends, hsettled, hle, hbetween, hplain, hcommented⟩ :=
        ih rest.length hlength hrest (by simp) (hapart.mono hsuffix (List.prefix_refl _)) rfl
      refine .part (first :: ps) ps' hopens hends hsettled (by omega) hbetween ?_ ?_
      · rw [hparts, hplain, List.cons_append]
      · rw [hparts, hcommented, List.cons_append]
    · have hpass := hk.paired.fromComma_eq d (Nat.zero_le d) b
      cases hcomma : fromComma d b with
      | nil =>
        refine .part [] [] opens (by simp) ha le_rfl hapart ?_ ?_
        · exact ParamText.parts_single ((hall b).trans hcomma)
        · exact ParamText.parts_single ((hall _).trans (hpass.trans hcomma))
      | cons c rest =>
        obtain rfl := ParamText.fromComma_head hcomma
        obtain ⟨back, rfl⟩ : ',' :: rest <:+ b := hcomma ▸ ParamText.fromComma_suffix d b
        have hprefix : back ++ [','] <+: back ++ ',' :: rest ++ [')'] := ⟨rest ++ [')'], by simp⟩
        have hbetween := hapart.mono (List.suffix_refl _) hprefix
        refine .part [] (parts rest) opens (by simp) ha le_rfl hbetween ?_ ?_
        · have hfirst := (hall _).trans hcomma
          rw [← List.append_assoc] at hfirst ⊢
          exact ParamText.parts_comma hfirst
        · have hfirst := (hall _).trans (hpass.trans hcomma)
          rw [← List.append_assoc, ← List.append_assoc] at hfirst ⊢
          rw [ParamText.parts_comma hfirst, List.append_assoc]
          rfl

theorem outlines_listing_insert (ha : Settled a) (hk : k.Inert)
    (hapart : Apart ('(' :: a) (b ++ [')']))
    (ih : ∀ a' b', a'.length < a.length → Settled a' → Apart a' b' →
      outlinesBehind (a' ++ (k.chars ++ b')) = outlinesBehind (a' ++ b')) :
    outlines (listing 0 (a ++ (k.chars ++ b))) = outlines (listing 0 (a ++ b)) := by
  obtain ⟨ps, ps', opens, ends, hfront, hle, hbetween, hplain, hcommented⟩ :=
    around ha hk (by simp) hapart
  have houtline := outlineOf_insert hfront hk ends hbetween fun a' hlength =>
    ih a' _ (Nat.lt_of_lt_of_le hlength hle)
  have hvoid := isVoidPart_insert hfront hk opens ends hbetween houtline
  exact ParamText.outlines_listing_congr (commented_not_vacant _ _ k)
    (not_vacant opens ends hbetween) hcommented hplain houtline hvoid

/-- What is recovered behind a text does not depend on a comment in it, offsets apart. -/
theorem outlinesBehind_insert (ha : Settled a) (hk : k.Inert) (hapart : Apart a b) :
    outlinesBehind (a ++ (k.chars ++ b)) = outlinesBehind (a ++ b) := by
  induction hn : a.length using Nat.strongRecOn generalizing a b with
  | ind n ih =>
    rcases ha.listBody_cases hk with ⟨front, rest, rfl, hrest, hopened⟩ | hall
    · rcases hrest.afterGroup_decides (.inl ⟨rfl, rfl⟩) 0 with
        ⟨inside, more, rfl, -, hclosed⟩ | ⟨d, hgroup⟩
      · have hbehind : ∀ x, outlinesBehind (front ++ '(' :: (inside ++ ')' :: more) ++ x) =
            some (outlines (listing 0 inside)) := by
          intro x
          have hbody := hopened x
          have hclosed := hclosed x
          rw [List.append_assoc inside, List.cons_append] at hbody hclosed
          exact ParamText.outlinesBehind_closed hbody hclosed
        rw [hbehind, hbehind]
      · have hpass := hk.paired.afterGroup_eq (.inl ⟨rfl, rfl⟩) d b
        cases hclose : afterGroup '(' ')' d b with
        | none =>
          rw [ParamText.outlinesBehind_unclosed (hopened b) ((hgroup b).trans hclose),
            ParamText.outlinesBehind_unclosed (hopened _) ((hgroup _).trans (hpass.trans hclose))]
        | some more =>
          obtain ⟨back, rfl⟩ := ParamText.afterGroup_closed hclose
          have hsuffix : '(' :: rest <:+ front ++ '(' :: rest := ⟨front, rfl⟩
          have hprefix : back ++ [')'] <+: back ++ ')' :: more := ⟨more, by simp⟩
          have hlisting := outlines_listing_insert hrest hk (hapart.mono hsuffix hprefix)
            fun a' b' hlength hsettled hbetween =>
              ih a'.length (by simp [← hn]; omega) hsettled hbetween rfl
          have hbody : listBody (front ++ '(' :: rest ++ (back ++ ')' :: more)) =
              some (rest ++ back ++ ')' :: more) := by
            rw [hopened, List.append_assoc]
          have hclosed : afterGroup '(' ')' 0 (rest ++ back ++ ')' :: more) = some more := by
            rw [List.append_assoc, hgroup, hclose]
          have hbody' : listBody (front ++ '(' :: rest ++ (k.chars ++ (back ++ ')' :: more))) =
              some (rest ++ (k.chars ++ back) ++ ')' :: more) := by
            rw [hopened, List.append_assoc, List.append_assoc]
          have hclosed' : afterGroup '(' ')' 0 (rest ++ (k.chars ++ back) ++ ')' :: more) = some more := by
            rw [List.append_assoc, List.append_assoc, hgroup, hpass, hclose]
          rw [ParamText.outlinesBehind_closed hbody hclosed,
            ParamText.outlinesBehind_closed hbody' hclosed', hlisting]
    · exact ParamText.outlinesBehind_congr (hall b)

theorem recover_outlines (front : List Char) {lead : List Char} (hlead : Lead lead) (cs : List Char) :
    (recover (String.ofList (front ++ (lead ++ cs))) (byteLength front)).map (Option.map outlines) =
      .ok (outlinesBehind cs) := by
  rw [recover, String.toList_ofList, dropBytes?_append]
  dsimp only [Except.map]
  rw [ParamText.outlines_recoverFrom, ParamText.outlinesBehind_congr (hlead.listBody_eq cs)]

/-- What is recovered is the same with a comment in the text, but for the offsets: a comment of any kind
between the name and the list, or in the list a block comment that no part of the search takes for text. -/
theorem recover_commented (front : List Char) {lead a b : List Char} {k : Comment} (hlead : Lead lead)
    (ha : Settled a) (hskipped : k.Skipped) (hinert : a ≠ [] → k.Inert) (hapart : Apart a b) :
    (recover (String.ofList (front ++ (lead ++ (a ++ (k.chars ++ b))))) (byteLength front)).map
        (Option.map outlines) =
      (recover (String.ofList (front ++ (lead ++ (a ++ b)))) (byteLength front)).map
        (Option.map outlines) := by
  rw [recover_outlines front hlead, recover_outlines front hlead]
  by_cases hnil : a = []
  · subst hnil
    rw [List.nil_append, List.nil_append]
    have hbehind := ParamText.listBody_congr (ParamText.skipTrivia_comment k hskipped b)
    rw [ParamText.outlinesBehind_congr hbehind]
  · rw [outlinesBehind_insert ha (hinert hnil) hapart]

/-- A comment that holds a comma, a bracket and names. -/
def remark : Comment :=
  .block [' ', 'x', ',', ' ', '(', 'y', ' '] (by decide)

theorem remark_passed :
    (recover ("void (*f)(int " ++ String.ofList remark.chars ++ "*a, char b);") 8).map
        (Option.map outlines) =
      (recover "void (*f)(int *a, char b);" 8).map (Option.map outlines) := by
  have hlead : Lead [')'] := .closing .nil
  have ha : Settled "(int ".toList :=
    .char (by decide) (.char (by decide) (.char (by decide) (.char (by decide) (.char (by decide) .nil))))
  have hskipped : remark.Skipped := by
    unfold remark Comment.Skipped
    decide
  have hinert : remark.Inert := ⟨trivial, hskipped, by decide⟩
  have hapart : Apart (['('] ++ "int ".toList) "*a, char b);".toList := by
    refine apart_behind 'n' (by simp) (by decide) ?_ (by decide) ?_
    · rintro (⟨⟨⟩⟩ | ⟨⟨⟩⟩)
    · rintro _ ⟨⟩ ⟨⟩
  have htext : "void (*f)(int " ++ String.ofList remark.chars ++ "*a, char b);" =
      String.ofList ("void (*f".toList ++ ([')'] ++ ("(int ".toList ++
        (remark.chars ++ "*a, char b);".toList)))) := by
    decide
  have htext' : "void (*f)(int *a, char b);" =
      String.ofList ("void (*f".toList ++ ([')'] ++ ("(int ".toList ++ "*a, char b);".toList))) := by
    decide
  have hoffset : byteLength "void (*f".toList = 8 := by decide
  rw [htext, htext', ← hoffset]
  exact recover_commented "void (*f".toList hlead ha hskipped (fun _ => hinert) hapart

/-- A list of one parameter that is no pointer to a function. -/
theorem recover_declared (front : List Char) {name : String} (hcs : Paired false cs) (hfull : ¬Vacant cs)
    (hplain : splitStar cs = none) (hname : declaredIn (endsInStar (trim cs)) (names cs) = some name)
    (hne : name ≠ "") (rest : List Char) :
    (recover (String.ofList (front ++ '(' :: (cs ++ ')' :: rest))) (byteLength front)).map
      (Option.map outlines) = .ok (some [⟨name, none⟩]) := by
  have houtline : outlineOf cs = ⟨name, none⟩ := by
    rw [ParamText.outlineOf_plain hplain, hname, Option.getD_some]
  have hvoid : isVoidPart cs = false := by
    rw [isVoidPart, houtline, Bool.and_eq_false_iff]
    exact .inl (Bool.eq_false_iff.mpr fun hempty => hne (String.isEmpty_iff.mp hempty))
  have houtlines := recover_outlines front .nil ('(' :: (cs ++ ')' :: rest))
  rw [List.nil_append] at houtlines
  rw [houtlines, ParamText.outlinesBehind_single hcs hfull hvoid, houtline]

/-- The words of a line comment are words of the list in which it stands. -/
theorem names_line {content : List Char} (single : '\n' ∉ content) (h : ¬['*'] <+: content)
    (rest : List Char) : names ((Comment.line content single).chars ++ rest) = names (content ++ '\n' :: rest) := by
  have htext : (Comment.line content single).chars ++ rest = '/' :: '/' :: (content ++ '\n' :: rest) := by
    simp [Comment.chars]
  have hnext : ¬['*'] <+: content ++ '\n' :: rest := by
    rintro ⟨more, hmore⟩
    rcases content with _ | ⟨c, content⟩
    · exact absurd (List.cons.inj hmore).1 (by decide)
    · exact h ⟨content, by rw [(List.cons.inj hmore).1]; rfl⟩
  rw [htext, ParamText.names_slash (by simp), ParamText.names_slash hnext]

def lineRemark : Comment :=
  .line [' ', 'b'] (by decide)

/-- A name on a line comment is read as that of the parameter before it. -/
theorem lineRemark_read :
    (recover "int f(int a);" 5).map (Option.map outlines) = .ok (some [⟨"a", none⟩]) ∧
      (recover ("int f(int a" ++ String.ofList lineRemark.chars ++ ");") 5).map (Option.map outlines) =
        .ok (some [⟨"b", none⟩]) := by
  have hblank : ∀ cs, names (' ' :: cs) = names cs :=
    ParamText.names_wordless (ParamText.wordless_blank (List.all_eq_true.mp (rfl : [' '].all isBlank)))
  have hint : ∀ cs, names ("int ".toList ++ cs) = "int" :: names cs := fun cs => by
    have hword : names ("int ".toList ++ cs) = "int" :: names (' ' :: cs) := ParamText.names_word rfl _
    rw [hword, hblank]
  have hoffset : byteLength "int f".toList = 5 := by decide
  constructor
  · have hnames : names ("int ".toList ++ "a".toList) = ["int", "a"] := by
      have hname : names "a".toList = "a" :: names [] := ParamText.names_word rfl _
      rw [hint, hname, ParamText.names_nil]
    have htext : "int f(int a);" =
        String.ofList ("int f".toList ++ '(' :: ("int ".toList ++ "a".toList ++ ')' :: [';'])) := by
      decide
    rw [htext, ← hoffset]
    exact recover_declared _ (.plain (List.all_eq_true.mp rfl)) (by decide) rfl
      (by rw [hnames]; decide) (by decide) _
  · have hend : names "\n".toList = [] := by
      have hblanks := ParamText.names_wordless
        (ParamText.wordless_blank (List.all_eq_true.mp (rfl : ['\n'].all isBlank))) []
      rwa [List.append_nil, ParamText.names_nil] at hblanks
    have hnames : names ("int ".toList ++ "a// b\n".toList) = ["int", "a", "b"] := by
      have hname : names "a// b\n".toList = "a" :: names (lineRemark.chars ++ []) :=
        ParamText.names_word rfl _
      have hline : names (lineRemark.chars ++ []) = names (' ' :: "b\n".toList) :=
        names_line (by decide) (by decide) []
      have hlast : names "b\n".toList = "b" :: names "\n".toList := ParamText.names_word rfl _
      rw [hint, hname, hline, hblank, hlast, hend]
    have hpaired : Paired false ("int ".toList ++ "a// b\n".toList) := by
      have hremark : Paired false "// b\n".toList :=
        .slash (by decide) (.slash (by decide) (.plain (List.all_eq_true.mp rfl)))
      refine .char (by decide) (by decide) (.char (by decide) (by decide) ?_)
      refine .char (by decide) (by decide) (.char (by decide) (by decide) ?_)
      exact .char (by decide) (by decide) hremark
    have htext : "int f(int a" ++ String.ofList lineRemark.chars ++ ");" =
        String.ofList ("int f".toList ++ '(' :: ("int ".toList ++ "a// b\n".toList ++ ')' :: [';'])) := by
      decide
    rw [htext, ← hoffset]
    exact recover_declared _ hpaired (by decide) rfl (by rw [hnames]; decide) (by decide) _

end Bindery
