import Bindery.Proofs.Source.Moved
import Bindery.Proofs.Source.Paired

/-! Texts up to a place between two tokens, at which no comment is open. -/

namespace Bindery

open ParamText (afterGroup fromComma listBody skipTrivia splitStar wordsAt isNameChar Unstarred)
open QualType (isWordStart)

variable {cs rest front : List Char} {c opening closing mark : Char} {k : Comment}

namespace Comment

def IsBlock : Comment → Prop
  | .block _ _ => True
  | .line _ _ => False

/-- A comment that is one to every part of the search. -/
structure Inert (k : Comment) : Prop where
  block : k.IsBlock
  skipped : k.Skipped
  starless : ¬['(', '*'] <:+: k.chars

theorem exists_slash (k : Comment) : ∃ cs, k.chars = '/' :: cs := by
  cases k with
  | block content _ => exact ⟨_, rfl⟩
  | line content _ => exact ⟨_, rfl⟩

namespace Inert

variable (h : k.Inert)
include h

theorem ends_slash : ∃ cs, k.chars = cs ++ ['/'] := by
  obtain ⟨content, unclosed⟩ | _ := k
  · exact ⟨'/' :: '*' :: (content ++ ['*']), by simp [chars]⟩
  · exact h.block.elim

theorem paired : Paired false k.chars := by
  obtain ⟨content, unclosed⟩ | _ := k
  · exact .comment content unclosed .nil
  · exact h.block.elim

theorem wordless : ParamText.Wordless k.chars := by
  obtain ⟨content, unclosed⟩ | _ := k
  · intro offset rest
    have htext : (Comment.block content unclosed).chars ++ rest =
        '/' :: '*' :: (content ++ '*' :: '/' :: rest) := by simp [chars]
    rw [htext, wordsAt, ParamText.afterBlockComment_content unclosed, ← htext, ParamText.before_left]
  · exact h.block.elim

theorem unstarred : Unstarred k.chars := by
  obtain ⟨cs, hcs⟩ := h.ends_slash
  have hstarless := h.starless
  rw [hcs] at hstarless ⊢
  exact .concat (fun hin => hstarless (hin.trans (List.prefix_append cs ['/']).isInfix)) (by decide)

end Inert

end Comment

/-- Text at the end of which no comment is open, and none begins with what follows. What is on a line
comment is passed as text by some parts of the search and left out by others. -/
inductive Settled : List Char → Prop
  | nil : Settled []
  | char {c : Char} {cs : List Char} (mark : c ≠ '/') (rest : Settled cs) : Settled (c :: cs)
  | slash {c : Char} {cs : List Char} (mark : c ∉ ['/', '*']) (rest : Settled (c :: cs)) :
      Settled ('/' :: c :: cs)
  | line {content cs : List Char} (single : '\n' ∉ content)
      (text : Settled ('/' :: (content ++ '\n' :: cs))) (rest : Settled cs) :
      Settled ('/' :: '/' :: (content ++ '\n' :: cs))
  | comment {cs : List Char} (k : Comment) (inert : k.Inert) (rest : Settled cs) :
      Settled (k.chars ++ cs)

theorem Settled.behind (front : List Char) (hfront : '/' ∉ front) (h : Settled (front ++ cs)) :
    Settled cs := by
  induction front with
  | nil => exact h
  | cons c front ih =>
    obtain ⟨hc, hfront⟩ := not_or.mp (mt List.mem_cons.mpr hfront)
    refine ih hfront ?_
    generalize htext : c :: front ++ cs = text at h
    cases h with
    | nil => cases htext
    | char mark rest =>
      cases htext
      exact rest
    | slash mark rest => exact absurd (List.cons.inj htext).1.symm hc
    | line single text rest => exact absurd (List.cons.inj htext).1.symm hc
    | comment k inert rest =>
      obtain ⟨chars, hchars⟩ := k.exists_slash
      rw [hchars] at htext
      exact absurd (List.cons.inj htext).1.symm hc

/-- A loop that counts brackets comes to its mark within a text, or goes on behind it with some other
count. -/
def Decides {α : Type} (loop : Nat → List Char → α) (found : List Char → α) (mark : Char)
    (depth : Nat) (cs : List Char) : Prop :=
  (∃ front rest, cs = front ++ mark :: rest ∧ Settled rest ∧
    ∀ x, loop depth (cs ++ x) = found (rest ++ x)) ∨
  ∃ d, ∀ x, loop depth (cs ++ x) = loop d x

section

variable {α : Type} {loop : Nat → List Char → α} {found : List Char → α} {depth d : Nat}

theorem Decides.behind (front : List Char) (h : Decides loop found mark d cs)
    (hpass : ∀ x, loop depth (front ++ (cs ++ x)) = loop d (cs ++ x)) :
    Decides loop found mark depth (front ++ cs) := by
  rcases h with ⟨inner, rest, hcs, hrest, hfound⟩ | ⟨d', hall⟩
  · refine .inl ⟨front ++ inner, rest, by rw [hcs, List.append_assoc], hrest, fun x => ?_⟩
    rw [List.append_assoc, hpass, hfound]
  · refine .inr ⟨d', fun x => ?_⟩
    rw [List.append_assoc, hpass, hall]

theorem Settled.decides (h : Settled cs)
    (hchar : ∀ c ≠ '/', ∀ depth, c = mark ∧ (∀ x, loop depth (c :: x) = found x) ∨
      ∃ d, ∀ x, loop depth (c :: x) = loop d x)
    (hslash : ∀ c ≠ '*', ∀ depth x, loop depth ('/' :: c :: x) = loop depth (c :: x))
    (hcomment : ∀ k : Comment, k.Inert → ∀ depth x, loop depth (k.chars ++ x) = loop depth x)
    (depth : Nat) : Decides loop found mark depth cs := by
  induction h generalizing depth with
  | nil => exact .inr ⟨depth, fun _ => rfl⟩
  | @char c cs hc hrest ih =>
    rcases hchar c hc depth with ⟨rfl, hfound⟩ | ⟨d, hpass⟩
    · exact .inl ⟨[], cs, rfl, hrest, fun x => hfound _⟩
    · exact (ih d).behind [c] fun _ => hpass _
  | @slash c cs hc hrest ih =>
    exact (ih depth).behind ['/'] fun _ => hslash c (fun hstar => hc (by simp [hstar])) depth _
  | line single _ _ ih _ => exact (ih depth).behind ['/'] fun _ => hslash '/' (by decide) depth _
  | comment k inert _ ih => exact (ih depth).behind k.chars fun _ => hcomment k inert depth _

end

theorem Settled.afterGroup_decides (h : Settled cs) (hb : Enclosing opening closing) (depth : Nat) :
    Decides (afterGroup opening closing) some closing depth cs := by
  refine h.decides (fun c hc depth => ?_) (fun c hc => ParamText.afterGroup_slash hb hc)
    (fun k hk => hk.paired.afterGroup_eq hb) depth
  simp only [ParamText.afterGroup_cons hc]
  by_cases hopen : c = opening
  · exact .inr ⟨depth + 1, by simp [hopen]⟩
  by_cases hclose : c = closing
  · have hne : closing ≠ opening := hclose ▸ hopen
    cases depth with
    | zero => exact .inl ⟨hclose, by simp [hclose, hne]⟩
    | succ d => exact .inr ⟨d, by simp [hclose, hne]⟩
  · exact .inr ⟨depth, by simp [hopen, hclose]⟩

theorem Settled.fromComma_decides (h : Settled cs) (depth : Nat) :
    Decides fromComma (',' :: ·) ',' depth cs := by
  refine h.decides (fun c hc depth => ?_) (fun c hc => ParamText.fromComma_slash hc)
    (fun k hk depth => hk.paired.fromComma_eq depth (Nat.zero_le depth)) depth
  simp only [ParamText.fromComma_cons hc]
  by_cases hopen : c == '(' || c == '['
  · exact .inr ⟨depth + 1, by simp [hopen]⟩
  by_cases hclose : c == ')' || c == ']'
  · exact .inr ⟨depth - 1, by simp [hopen, hclose]⟩
  by_cases hcomma : c == ',' && depth == 0
  · obtain ⟨hc, hdepth⟩ := (Bool.and_eq_true ..).mp hcomma
    obtain rfl := beq_iff_eq.mp hc
    exact .inl ⟨rfl, by simp [hdepth]⟩
  · exact .inr ⟨depth, by simp only [hopen, hclose, hcomma]; simp⟩

namespace ParamText

/-- The words of a text without their offsets. -/
def names (cs : List Char) : List String :=
  (wordsAt 0 cs).map (·.1)

theorem map_wordsAt (offset : Nat) (cs : List Char) : (wordsAt offset cs).map (·.1) = names cs := by
  have hmoved := wordsAt_moved offset 0 cs
  rw [Nat.zero_add] at hmoved
  rw [hmoved, List.map_map]
  rfl

theorem names_word (hc : isWordStart c) (rest : List Char) : names (c :: rest) =
    String.ofList (c :: rest.takeWhile isNameChar) :: names (rest.dropWhile isNameChar) := by
  have hplain := isPlain_iff.mp (isPlain_of_isWordChar (QualType.isWordChar_of_isWordStart hc))
  have hletter : (c.isAlpha || c == '_') = true := hc
  rw [names, wordsAt, if_pos hletter, List.map_cons, map_wordsAt]
  · exact fun _ hslash => absurd hslash hplain.1
  · exact hplain.2.2.2.1

theorem names_bracket (rest : List Char) :
    names ('[' :: rest) = ((afterGroup '[' ']' 0 rest).map names).getD [] := by
  rw [names, wordsAt]
  split
  next hafter => rw [hafter, map_wordsAt]; rfl
  next hnone => rw [hnone]; rfl

theorem names_unopened (hopen : ∀ r, c = '/' → cs = '*' :: r → False) (hbracket : c ≠ '[')
    (hc : isWordStart c = false) : names (c :: cs) = names cs := by
  have hletter : (c.isAlpha || c == '_') = false := hc
  rw [names, wordsAt, if_neg (by simp [hletter]), map_wordsAt]
  · exact hopen
  · exact hbracket

theorem names_nil : names [] = [] := by
  rw [names, wordsAt]
  rfl

theorem names_slash (h : ¬['*'] <+: cs) : names ('/' :: cs) = names cs :=
  names_unopened (fun r _ hr => h ⟨r, hr.symm⟩) (by decide) rfl

theorem names_block (rest : List Char) : names ('/' :: '*' :: rest) = names (afterBlockComment rest) := by
  rw [names, wordsAt, map_wordsAt]

theorem names_wordless (h : Wordless cs) (rest : List Char) : names (cs ++ rest) = names rest := by
  rw [names, h, map_wordsAt]

theorem span_none {p : Char → Bool} (h : ∀ d ∈ cs.head?, p d = false) :
    cs.takeWhile p = [] ∧ cs.dropWhile p = cs :=
  QualType.span_eq (List.forall_mem_nil _) h

/-- A loop over a text stops where it does or not at all before what follows. -/
theorem span_append {p : Char → Bool} (h : cs.dropWhile p = [] → ∀ d ∈ rest.head?, p d = false) :
    (cs ++ rest).takeWhile p = cs.takeWhile p ∧ (cs ++ rest).dropWhile p = cs.dropWhile p ++ rest := by
  have hcs := List.takeWhile_append_dropWhile (p := p) (l := cs)
  have hall : ∀ c ∈ cs.takeWhile p, p c := List.all_eq_true.mp List.all_takeWhile
  have hhead : ∀ d ∈ (cs.dropWhile p ++ rest).head?, p d = false := by
    have hstop := List.head?_dropWhile_not p cs
    cases hdrop : cs.dropWhile p with
    | nil => exact h hdrop
    | cons d more =>
      rw [hdrop] at hstop
      rintro _ ⟨⟩
      exact hstop
  have hspan := QualType.span_eq hall hhead
  rwa [← List.append_assoc, hcs] at hspan

end ParamText

namespace Settled

open ParamText (names)

variable {back : List Char}

/-- The star of a pointer to a function is found within a text, or looked for behind it. -/
def DecidesStar (cs : List Char) : Prop :=
  (∃ head rest, cs = head ++ '(' :: '*' :: rest ∧ Settled rest ∧
    ∀ x, splitStar (cs ++ x) = some (head, rest ++ x)) ∨
  ∀ x, (['('] <:+ cs → ¬['*'] <+: x) →
    splitStar (cs ++ x) = (splitStar x).map fun p => (cs ++ p.1, p.2)

theorem DecidesStar.behind (front : List Char) (h : DecidesStar cs)
    (hpass : ∀ x, (cs = [] → ['('] <:+ front → ¬['*'] <+: x) →
      splitStar (front ++ (cs ++ x)) = (splitStar (cs ++ x)).map fun p => (front ++ p.1, p.2)) :
    DecidesStar (front ++ cs) := by
  rcases h with ⟨head, rest, hcs, hrest, hfound⟩ | hall
  · refine .inl ⟨front ++ head, rest, by rw [hcs, List.append_assoc], hrest, fun x => ?_⟩
    have hne : cs ≠ [] := by simp [hcs]
    rw [List.append_assoc, hpass x fun hnil => absurd hnil hne, hfound, Option.map_some]
  · refine .inr fun x hx => ?_
    have hfront : cs = [] → ['('] <:+ front → ¬['*'] <+: x := by
      rintro rfl hopen
      exact hx (by rwa [List.append_nil])
    have hcs : ['('] <:+ cs → ¬['*'] <+: x := fun hopen => hx (hopen.trans (List.suffix_append _ _))
    rw [List.append_assoc, hpass x hfront, hall x hcs, Option.map_map]
    simp [Function.comp_def]

theorem splitStar_cons (h : c = '(' → ¬['*'] <+: cs) :
    splitStar (c :: cs) = (splitStar cs).map fun p => (c :: p.1, p.2) := by
  rw [splitStar]
  rintro rest rfl rfl
  exact h rfl ⟨rest, rfl⟩

theorem splitStar_decides (h : Settled cs) : DecidesStar cs := by
  induction h with
  | nil => exact .inr fun x _ => by simp
  | @char c cs hc hrest ih =>
    by_cases hstar : c = '(' ∧ ['*'] <+: cs
    · obtain ⟨rfl, rest, rfl⟩ := hstar
      exact .inl ⟨[], rest, rfl, hrest.behind ['*'] (by decide), fun _ => rfl⟩
    · refine ih.behind [c] fun x hx => splitStar_cons ?_
      rintro rfl hnext
      rcases cs with _ | ⟨d, cs⟩
      · exact hx rfl (List.suffix_refl _) hnext
      · obtain ⟨rest, hrest⟩ := hnext
        exact hstar ⟨rfl, cs, by rw [(List.cons.inj hrest).1]; rfl⟩
  | @slash c cs hc hrest ih =>
    exact ih.behind ['/'] fun x _ => splitStar_cons (by rintro ⟨⟩)
  | line single _ _ ih _ => exact ih.behind ['/'] fun x _ => splitStar_cons (by rintro ⟨⟩)
  | comment k inert _ ih => exact ih.behind k.chars fun x _ => inert.unstarred _

/-- A word at the end of a text is not continued behind it. -/
theorem word_ends (hword : ∀ c d, isNameChar c → isNameChar d → [c] <:+ cs → ¬[d] <+: back)
    (hcs : cs ≠ []) (hall : ∀ c ∈ cs, isNameChar c) : ∀ d ∈ back.head?, isNameChar d = false := by
  intro d hd
  obtain ⟨front, c, rfl⟩ := cs.eq_nil_or_concat.resolve_left hcs
  rw [List.concat_eq_append] at hword hall
  rw [← Bool.not_eq_true]
  intro hname
  refine hword c d (hall c (by simp)) hname (List.suffix_append _ _) ?_
  obtain ⟨more, hmore⟩ := List.head?_eq_some_iff.mp hd
  exact ⟨more, hmore.symm⟩

theorem slash_ends (k : Comment) (back : List Char) :
    ∀ d ∈ (k.chars ++ back).head?, isNameChar d = false := by
  obtain ⟨chars, hchars⟩ := k.exists_slash
  rw [hchars]
  rintro _ ⟨⟩
  rfl

/-- The words are the same with a comment that is not in one of them. -/
theorem names_insert (h : Settled cs) (hk : k.Inert)
    (hword : ∀ c d, isNameChar c → isNameChar d → [c] <:+ cs → ¬[d] <+: back) :
    names (cs ++ (k.chars ++ back)) = names (cs ++ back) := by
  induction hn : cs.length using Nat.strongRecOn generalizing cs with
  | ind n ih =>
    have hmore : ∀ rest, Settled rest → rest <:+ cs → rest.length < cs.length →
        names (rest ++ (k.chars ++ back)) = names (rest ++ back) := by
      intro rest hrest hsuffix hlength
      refine ih rest.length (hn ▸ hlength) hrest (fun c d hc hd hlast => ?_) rfl
      exact hword c d hc hd (hlast.trans hsuffix)
    cases h with
    | nil => exact ParamText.names_wordless hk.wordless back
    | @char c cs hslash hrest =>
      by_cases hbracket : c = '['
      · subst hbracket
        simp only [List.cons_append, ParamText.names_bracket]
        have hgroup := hrest.afterGroup_decides (.inr ⟨rfl, rfl⟩) 0
        rcases hgroup with ⟨inside, rest, hcs, hsettled, hfound⟩ | ⟨d, hall⟩
        · have hsuffix : rest <:+ '[' :: cs := ⟨'[' :: inside ++ [']'], by simp [hcs]⟩
          rw [hfound, hfound, Option.map_some, Option.map_some, Option.getD_some, Option.getD_some]
          exact hmore rest hsettled hsuffix (by simp [hcs]; omega)
        · rw [hall, hall, hk.paired.afterGroup_eq (.inr ⟨rfl, rfl⟩)]
      by_cases hstart : isWordStart c
      · have hends : cs.dropWhile isNameChar = [] → ∀ d ∈ back.head?, isNameChar d = false := by
          intro hdrop
          refine word_ends hword (List.cons_ne_nil c cs) (List.forall_mem_cons.mpr ?_)
          exact ⟨QualType.isWordChar_of_isWordStart hstart, List.dropWhile_eq_nil_iff.mp hdrop⟩
        obtain ⟨htake, hdrop⟩ := ParamText.span_append hends
        have hslash : cs.dropWhile isNameChar = [] →
            ∀ d ∈ (k.chars ++ back).head?, isNameChar d = false := fun _ => slash_ends k back
        obtain ⟨htake', hdrop'⟩ := ParamText.span_append hslash
        rw [List.cons_append, List.cons_append, ParamText.names_word hstart, ParamText.names_word hstart,
          htake, htake', hdrop, hdrop']
        have hname : '/' ∉ cs.takeWhile isNameChar := fun hmem =>
          absurd (List.all_eq_true.mp List.all_takeWhile _ hmem) (by decide)
        have hsplit := List.takeWhile_append_dropWhile (p := isNameChar) (l := cs)
        have hsettled : Settled (cs.dropWhile isNameChar) := (hsplit.symm ▸ hrest).behind _ hname
        rw [hmore _ hsettled ((List.dropWhile_suffix _).trans (List.suffix_cons _ _))
          (Nat.lt_succ_of_le (length_dropWhile_le _ _))]
      · rw [Bool.not_eq_true] at hstart
        have hpass : ∀ x, names (c :: x) = names x := fun x =>
          ParamText.names_unopened (fun _ hc => absurd hc hslash) hbracket hstart
        rw [List.cons_append, List.cons_append, hpass, hpass]
        exact hmore cs hrest (List.suffix_cons _ _) (Nat.lt_succ_self _)
    | @slash c cs hmark hrest =>
      have hpass : ∀ x, names ('/' :: c :: x) = names (c :: x) := fun x =>
        ParamText.names_slash fun ⟨_, hr⟩ => hmark (by simp [← (List.cons.inj hr).1])
      rw [List.cons_append, List.cons_append, List.cons_append, List.cons_append, hpass, hpass]
      exact hmore (c :: cs) hrest (List.suffix_cons _ _) (Nat.lt_succ_self _)
    | @line content cs single hline _ =>
      have hpass : ∀ x, names ('/' :: '/' :: x) = names ('/' :: x) := fun x =>
        ParamText.names_slash fun ⟨_, hr⟩ => absurd (List.cons.inj hr).1 (by decide)
      rw [List.cons_append, List.cons_append, List.cons_append, List.cons_append, hpass, hpass]
      exact hmore _ hline (List.suffix_cons _ _) (Nat.lt_succ_self _)
    | @comment cs k' inert hrest =>
      obtain ⟨chars, hchars⟩ := k'.exists_slash
      rw [List.append_assoc, List.append_assoc, ParamText.names_wordless inert.wordless,
        ParamText.names_wordless inert.wordless]
      have hlength : cs.length < (k'.chars ++ cs).length := by
        rw [hchars, List.length_append, List.length_cons]
        omega
      exact hmore cs hrest (List.suffix_append _ _) hlength

/-- The list of parameters begins within a text, or where it begins does not depend on a comment
behind the text. -/
def OpensList (k : Comment) (cs : List Char) : Prop :=
  (∃ front rest, cs = front ++ '(' :: rest ∧ Settled rest ∧
    ∀ x, listBody (cs ++ x) = some (rest ++ x)) ∨
  ∀ x, listBody (cs ++ (k.chars ++ x)) = listBody (cs ++ x)

theorem OpensList.behind (front : List Char) (h : OpensList k cs)
    (hpass : ∀ x, listBody (front ++ (cs ++ x)) = listBody (cs ++ x)) : OpensList k (front ++ cs) := by
  rcases h with ⟨inner, rest, hcs, hrest, hfound⟩ | hall
  · refine .inl ⟨front ++ inner, rest, by rw [hcs, List.append_assoc], hrest, fun x => ?_⟩
    rw [List.append_assoc, hpass, hfound]
  · refine .inr fun x => ?_
    rw [List.append_assoc, List.append_assoc, hpass, hpass, hall]

theorem listBody_cases (h : Settled cs) (hk : k.Inert) : OpensList k cs := by
  induction hn : cs.length using Nat.strongRecOn generalizing cs with
  | ind n ih =>
    cases h with
    | nil => exact .inr fun x => ParamText.listBody_congr (ParamText.skipTrivia_comment k hk.skipped x)
    | @char c cs hslash hrest =>
      have hmore := ih cs.length (hn ▸ Nat.lt_succ_self _) hrest rfl
      by_cases hblank : isBlank c
      · exact hmore.behind [c] fun x =>
          ParamText.listBody_congr (ParamText.skipTrivia_blank hblank _)
      rw [Bool.not_eq_true] at hblank
      by_cases hopen : c = '('
      · subst hopen
        exact .inl ⟨[], cs, rfl, hrest, fun x => ParamText.listBody_opening _⟩
      by_cases hclose : c = ')'
      · subst hclose
        exact hmore.behind [')'] fun x => ParamText.listBody_closing _
      by_cases hbracket : c = '['
      · subst hbracket
        have hgroup := hrest.afterGroup_decides (.inr ⟨rfl, rfl⟩) 0
        rcases hgroup with ⟨inside, rest, hcs, hsettled, hfound⟩ | ⟨d, hall⟩
        · have hrest := ih rest.length (by simp [← hn, hcs]; omega) hsettled rfl
          have htext : '[' :: cs = '[' :: (inside ++ [']']) ++ rest := by simp [hcs]
          rw [htext]
          refine hrest.behind _ fun x => ?_
          have hclosed : afterGroup '[' ']' 0 (inside ++ ']' :: (rest ++ x)) = some (rest ++ x) := by
            simpa [hcs] using hfound x
          have hparts : '[' :: (inside ++ [']']) ++ (rest ++ x) =
              '[' :: (inside ++ ']' :: (rest ++ x)) := by simp
          rw [hparts, ParamText.listBody_bracket, hclosed, Option.bind_some]
        · refine .inr fun x => ?_
          simp only [List.cons_append, ParamText.listBody_bracket]
          rw [hall, hall, hk.paired.afterGroup_eq (.inr ⟨rfl, rfl⟩)]
      · refine .inr fun x => ?_
        have hstray : ∀ y, listBody (c :: y) = none := fun y =>
          ParamText.listBody_stray (ParamText.skipTrivia_cons hblank hslash y)
            (by simp [hopen, hclose, hbracket])
        exact (hstray _).trans (hstray _).symm
    | @slash c cs hmark hrest =>
      refine .inr fun x => ?_
      have hstray : ∀ y, listBody ('/' :: c :: y) = none := fun y =>
        ParamText.listBody_stray (ParamText.skipTrivia_slash hmark y) (by decide)
      exact (hstray _).trans (hstray _).symm
    | @line content cs single _ hrest =>
      have hmore := ih cs.length (by simp [← hn]; omega) hrest rfl
      have htext : '/' :: '/' :: (content ++ '\n' :: cs) = (Comment.line content single).chars ++ cs := by
        simp [Comment.chars]
      rw [htext]
      exact hmore.behind _ fun x =>
        ParamText.listBody_congr (ParamText.skipTrivia_comment (.line content single) trivial _)
    | @comment cs k' inert hrest =>
      obtain ⟨chars, hchars⟩ := k'.exists_slash
      have hlength : cs.length < n := by
        rw [← hn, hchars, List.length_append, List.length_cons]
        omega
      have hmore := ih cs.length hlength hrest rfl
      exact hmore.behind k'.chars fun x =>
        ParamText.listBody_congr (ParamText.skipTrivia_comment k' inert.skipped _)

end Settled

end Bindery
