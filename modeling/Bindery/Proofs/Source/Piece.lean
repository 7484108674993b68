import Bindery.Proofs.Source.Written

/-! Reading one parameter as it is written. The last of its words is the name. -/

namespace Bindery

namespace Written

open ParamText (wordsAt wordsAt_word declaredName endsInStar plain piece recoverFrom before before_left
  splitStar isNameChar fromName Wordless)
open QualType (isWordStart EndsWord span_eq)

section

variable {cs rest : List Char} {offset : Nat}

theorem Word.wordsAt_chars (w : Word) (hrest : EndsWord rest) (offset : Nat) :
    wordsAt offset (w.chars ++ rest) =
      (w.text, offset) :: wordsAt (offset + byteLength w.chars) rest :=
  wordsAt_word w.identifier hrest offset

theorem wordsAt_words (first : Word) (more : List SpacedWord) (hrest : EndsWord rest)
    (offset : Nat) :
    let chars := first.chars ++ more.flatMap fun w => w.gap.chars ++ w.word.chars
    ∃ ws place, wordsAt offset (chars ++ rest) =
      ws ++ ((more.foldl (fun _ w => w.word) first).text, place) ::
        wordsAt (offset + byteLength chars) rest := by
  induction more generalizing first offset with
  | nil =>
    refine ⟨[], offset, ?_⟩
    rw [List.flatMap_nil, List.append_nil]
    exact first.wordsAt_chars hrest offset
  | cons w more ih =>
    obtain ⟨ws, place, hws⟩ := ih w.word (offset + byteLength first.chars + byteLength w.gap.chars)
    have hends : EndsWord (w.gap.chars ++ (w.word.chars ++
        (more.flatMap fun w => w.gap.chars ++ w.word.chars) ++ rest)) :=
      endsWord_append w.gap.endsWord fun hgap => absurd hgap w.apart
    have hfirst := first.wordsAt_chars hends offset
    rw [w.gap.wordless, hws] at hfirst
    refine ⟨(first.text, offset) :: ws, place, ?_⟩
    simpa [byteLength_append, Nat.add_assoc] using hfirst

/-- The words in the text of a type, the last of them at the end. -/
theorem TypeText.wordsAt_chars (t : TypeText) (hapart : t.marks = [] → EndsWord rest)
    (offset : Nat) :
    ∃ ws place, wordsAt offset (t.chars ++ rest) =
      ws ++ (t.lastWord.text, place) :: wordsAt (offset + byteLength t.chars) rest := by
  have hrest : EndsWord (t.marks ++ rest) := endsWord_append t.endsWord_marks hapart
  obtain ⟨ws, place, hws⟩ := wordsAt_words t.first t.more hrest offset
  refine ⟨ws, place, ?_⟩
  rw [t.wordless_marks, Nat.add_assoc, ← byteLength_append, ← List.append_assoc] at hws
  exact hws

theorem not_endsInStar {front : List Char} (hstar : '*' ∉ cs) (hother : ∃ c ∈ cs, c ≠ ']') :
    endsInStar (front ++ cs) = false := by
  obtain ⟨c, hc, hne⟩ := hother
  have hkept : cs.reverse.dropWhile (· == ']') ≠ [] := by
    intro hnone
    have hall := List.dropWhile_eq_nil_iff.mp hnone c (List.mem_reverse.mpr hc)
    exact hne (by simpa using hall)
  obtain ⟨d, kept, hd⟩ := List.exists_cons_of_ne_nil hkept
  have hmem : d ∈ cs := by
    have hdropped : d ∈ cs.reverse.dropWhile (· == ']') := hd ▸ List.mem_cons_self
    exact List.mem_reverse.mp ((List.dropWhile_suffix _).subset hdropped)
  have hnotStar : d ≠ '*' := fun he => hstar (he ▸ hmem)
  rw [endsInStar, List.reverse_append, List.dropWhile_append, hd]
  simpa using hnotStar

theorem endsInStar_concat (front : List Char) : endsInStar (front ++ ['*']) = true := by
  simp [endsInStar]

namespace NamedParam

variable (p : NamedParam)

theorem endsWord_boundsChars : EndsWord p.boundsChars :=
  endsWord_flatMap fun b _ => b.endsWord

theorem wordsAt_chars (offset : Nat) : ∃ ws place, wordsAt offset p.chars =
    ws ++ [(p.type.lastWord.text, place), (p.name.text, offset + byteLength p.typeChars)] := by
  have hapart : p.type.marks = [] → EndsWord (p.gap.chars ++ (p.name.chars ++ p.boundsChars)) := by
    intro hmarks
    have hgap : p.gap.chars ≠ [] := fun hgap => p.apart (by rw [hmarks, hgap]; rfl)
    exact endsWord_append p.gap.endsWord fun h => absurd h hgap
  obtain ⟨ws, place, hws⟩ := p.type.wordsAt_chars hapart offset
  have hbounds : Wordless p.boundsChars := .flatMap fun b _ => b.wordless
  have hname := p.name.wordsAt_chars p.endsWord_boundsChars (offset + byteLength p.typeChars)
  have hend : ∀ offset, wordsAt offset p.boundsChars = [] := by
    intro offset
    have hrest := hbounds offset []
    rw [List.append_nil] at hrest
    rw [hrest, wordsAt]
  rw [p.gap.wordless, Nat.add_assoc, ← byteLength_append] at hws
  refine ⟨ws, place, ?_⟩
  calc wordsAt offset p.chars
    _ = wordsAt offset (p.type.chars ++ (p.gap.chars ++ (p.name.chars ++ p.boundsChars))) := by
      rw [chars, typeChars, List.append_assoc]
    _ = ws ++ (p.type.lastWord.text, place) ::
        wordsAt (offset + byteLength p.typeChars) (p.name.chars ++ p.boundsChars) := hws
    _ = _ := by rw [hname, hend]

theorem not_endsInStar : endsInStar p.chars = false := by
  refine Written.not_endsInStar ?_ ?_
  · intro hstar
    rcases List.mem_append.mp hstar with hname | hbounds
    · exact absurd (p.name.isWordChar_chars _ hname) (by decide)
    · obtain ⟨b, -, hb⟩ := List.mem_flatMap.mp hbounds
      exact b.no_star hb
  · obtain ⟨c, cs, hchars, hc⟩ := p.name.exists_start
    refine ⟨c, List.mem_append_left _ (hchars ▸ List.mem_cons_self), ?_⟩
    rintro rfl
    cases hc

theorem plain_chars (start : Nat) :
    plain start p.chars = ⟨p.name.text, start, start + byteLength p.typeChars, none⟩ := by
  obtain ⟨ws, place, hws⟩ := p.wordsAt_chars start
  have hname : declaredName p.chars (wordsAt start p.chars) =
      some (p.name.text, start + byteLength p.typeChars) := by
    rw [hws, declaredName, List.reverse_append]
    simpa [p.not_endsInStar] using And.intro p.free p.complete
  rw [plain, hname]

end NamedParam

/-- The last word of a pointer without a name is a part of its type. -/
theorem TypeText.plain_chars (t : TypeText) (h : t.stars ≠ []) (start : Nat) :
    plain start t.chars = ⟨"", start, start + byteLength t.chars, none⟩ := by
  obtain ⟨front, hfront⟩ := t.ends_starred h
  have hstar : endsInStar t.chars = true := by rw [hfront, endsInStar_concat]
  have hunnamed : declaredName t.chars (wordsAt start t.chars) = none := by
    rw [declaredName]
    split
    next => rw [hstar, Bool.or_true, if_pos rfl]
    next => rfl
  rw [plain, hunnamed]

theorem trimStart_gap (g : Gap) (h : ∀ c ∈ cs.head?, isBlank c = false) :
    trimStart (g.chars ++ cs) = cs :=
  (span_eq g.blank h).2

theorem trimEnd_gap (g : Gap) (h : EndsSolid cs) : trimEnd (cs ++ g.chars) = cs := by
  have hblank : ∀ c ∈ g.chars.reverse, isBlank c := fun c hc => g.blank c (List.mem_reverse.mp hc)
  have hend : ∀ c ∈ cs.reverse.head?, isBlank c = false := by
    rw [List.head?_reverse]
    exact h
  rw [trimEnd, List.reverse_append, (span_eq hblank hend).2, List.reverse_reverse]

theorem trim_gaps (g g' : Gap) {c : Char} (hc : isBlank c = false) (hend : EndsSolid (c :: cs)) :
    trimStart (g.chars ++ c :: cs ++ g'.chars) = c :: cs ++ g'.chars ∧
      trimEnd (trimStart (g.chars ++ c :: cs ++ g'.chars)) = c :: cs := by
  have hstart : trimStart (g.chars ++ (c :: cs ++ g'.chars)) = c :: cs ++ g'.chars := by
    refine trimStart_gap g fun d hd => ?_
    cases hd
    exact hc
  rw [List.append_assoc, hstart, trimEnd_gap g' hend]
  exact ⟨rfl, rfl⟩

theorem not_isBlank_of_isWordStart {c : Char} (h : isWordStart c) : isBlank c = false := by
  apply (Bool.not_eq_true _).mp
  intro hblank
  have hword := QualType.not_isWordChar_of_isBlank hblank
  rw [QualType.isWordChar_of_isWordStart h] at hword
  cases hword

theorem piece_blank (g : Gap) (offset : Nat) : piece offset g.chars = none := by
  have hnone : trimStart g.chars = [] := by
    have hgap : trimStart (g.chars ++ []) = [] := trimStart_gap g nofun
    rwa [List.append_nil] at hgap
  rw [piece, hnone]
  rfl

theorem piece_ellipsis (g g' : Gap) (offset : Nat) :
    piece offset (g.chars ++ ['.', '.', '.'] ++ g'.chars) = none := by
  have hdots : EndsSolid ['.', '.', '.'] := endsSolid_of_last ['.', '.'] (c := '.') rfl
  rw [piece, if_pos]
  rw [(trim_gaps g g' rfl hdots).2]
  rfl

theorem piece_plain (g g' : Gap) {c : Char} (hc : isWordStart c) (hend : EndsSolid (c :: cs))
    (hstar : splitStar (c :: cs) = none) (offset : Nat) :
    piece offset (g.chars ++ c :: cs ++ g'.chars) =
      some (plain (offset + byteLength g.chars) (c :: cs)) := by
  obtain ⟨hstart, hbody⟩ := trim_gaps g g' (not_isBlank_of_isWordStart hc) hend
  have hbefore : before (g.chars ++ c :: cs ++ g'.chars) (c :: cs ++ g'.chars) = g.chars := by
    rw [List.append_assoc, before_left]
  have hdot : c ≠ '.' := by
    rintro rfl
    cases hc
  rw [piece, hbody, hstart, hbefore, if_neg (by simp [hdot])]
  split
  next => rfl
  next hsome => cases hstar.symm.trans hsome

end

mutual

/-- The entry for a parameter that is written at an offset. -/
def Param.entry (start : Nat) : Param → ParamText
  | .named p => ⟨p.name.text, start, start + byteLength p.typeChars, none⟩
  | .pointer type _ => ⟨"", start, start + byteLength type.chars, none⟩
  | .callback result gap name list =>
    let nameOffset := start + byteLength (resultChars result gap)
    ⟨name.text, start, nameOffset,
      Option.some (list.entries (nameOffset + byteLength name.chars + 2))⟩

def Params.entries (offset : Nat) : Params → List ParamText
  | .last before p _ => [p.entry (offset + byteLength before.chars)]
  | .variadic before p _ _ _ => [p.entry (offset + byteLength before.chars)]
  | .cons before p after rest => p.entry (offset + byteLength before.chars) ::
    rest.entries (offset + byteLength (before.chars ++ p.chars ++ after.chars) + 1)

def ParamList.entries (offset : Nat) : ParamList → List ParamText
  | .empty _ => []
  | .void _ _ => []
  | .ellipsis _ _ => []
  | .some params => params.entries offset

end

theorem Word.span_name (w : Word) {cs : List Char} (h : EndsWord cs) :
    (w.chars ++ cs).takeWhile isNameChar = w.chars ∧ (w.chars ++ cs).dropWhile isNameChar = cs :=
  span_eq w.isWordChar_chars h

/-- A piece with a star behind a parenthesis is read from the name on. -/
theorem piece_starred {cs head behind : List Char} {offset : Nat} {name : Word} {after : List Char}
    (hbody : trimEnd (trimStart cs) ≠ [] ∧ trimEnd (trimStart cs) ≠ ['.', '.', '.'])
    (hstar : splitStar (trimEnd (trimStart cs)) = some (head, behind))
    (hnamed : fromName head cs = name.chars ++ after) (hafter : EndsWord after) :
    let start := offset + byteLength (before cs (trimStart cs))
    let place := start + byteLength (before (trimStart cs) (name.chars ++ after))
    piece offset cs =
      some ⟨name.text, start, place, recoverFrom (place + byteLength name.chars) after⟩ := by
  intro start place
  obtain ⟨htake, hdrop⟩ := name.span_name hafter
  have hname : name.chars.isEmpty = false := by
    obtain ⟨c, cs, hchars, -⟩ := name.exists_start
    rw [hchars]
    rfl
  have hfull : (trimEnd (trimStart cs)).isEmpty = false := by simpa using hbody.1
  rw [piece, if_neg (by simp [hfull, hbody.2])]
  split
  next hnone => cases hstar.symm.trans hnone
  next hsome =>
    cases Option.some.inj (hstar.symm.trans hsome)
    have hfrom : (((trimStart cs).drop (head.length + 2)).dropWhile fun c =>
        c == '*' || isAsciiBlank c) = name.chars ++ after := hnamed
    dsimp only
    rw [hfrom, htake, hdrop, hname, if_neg Bool.false_ne_true, Word.chars, String.ofList_toList]
    rfl

section

variable (result : TypeText) (gap : Gap) (name : Word) (list : ParamList)

theorem chars_callback (back : List Char) :
    (Param.callback result gap name list).chars ++ back = (result.chars ++ gap.chars) ++
      '(' :: '*' :: (name.chars ++ (')' :: '(' :: list.chars ++ ')' :: back)) := by
  simp [Param.chars, resultChars]

theorem exists_start_callback :
    ∃ c cs, (Param.callback result gap name list).chars = c :: cs ∧ isWordStart c := by
  obtain ⟨c, cs, hchars, hc⟩ := result.exists_start
  exact ⟨c, _, by rw [Param.chars, resultChars, hchars]; rfl, hc⟩

theorem endsSolid_callback : EndsSolid (Param.callback result gap name list).chars := by
  have hlast : (Param.callback result gap name list).chars =
      (resultChars result gap ++ name.chars ++ ')' :: '(' :: list.chars) ++ [')'] := by
    simp [Param.chars]
  rw [hlast]
  exact endsSolid_of_last _ rfl

theorem splitStar_callback : splitStar (Param.callback result gap name list).chars =
    some (result.chars ++ gap.chars, name.chars ++ (')' :: '(' :: list.chars ++ [')'])) := by
  have hchars := chars_callback result gap name list []
  rw [List.append_nil] at hchars
  rw [hchars, result.unstarred.append gap.unstarred, splitStar, Option.map_some, List.append_nil]

theorem fromName_callback {cs back : List Char}
    (h : trimStart cs = (Param.callback result gap name list).chars ++ back) :
    fromName (result.chars ++ gap.chars) cs =
      name.chars ++ (')' :: '(' :: list.chars ++ ')' :: back) := by
  obtain ⟨c, cs', hname, hc⟩ := name.exists_start
  have hletter : (c == '*' || isAsciiBlank c) = false := by
    have hblank := not_isBlank_of_isWordStart hc
    have hstar : c ≠ '*' := by
      rintro rfl
      cases hc
    rw [Bool.or_eq_false_iff]
    refine ⟨by simpa using hstar, (Bool.not_eq_true _).mp fun hascii => ?_⟩
    rw [isBlank_of_isAsciiBlank hascii] at hblank
    cases hblank
  rw [fromName, h, chars_callback, ← List.drop_drop, List.drop_left, hname]
  exact List.dropWhile_cons_of_neg (by simp [hletter])

/-- The list of a pointer to a function is looked for behind the name. -/
theorem piece_callback (hlist : ∀ offset back, recoverFrom offset
      (')' :: '(' :: list.chars ++ ')' :: back) = some (list.entries (offset + 2)))
    (g g' : Gap) (offset : Nat) :
    piece offset (g.chars ++ (Param.callback result gap name list).chars ++ g'.chars) =
      some ((Param.callback result gap name list).entry (offset + byteLength g.chars)) := by
  obtain ⟨c, cs, hchars, hc⟩ := exists_start_callback result gap name list
  have hsolid := endsSolid_callback result gap name list
  have hstar := splitStar_callback result gap name list
  obtain ⟨hstart, hbody⟩ := trim_gaps g g' (not_isBlank_of_isWordStart hc) (hchars ▸ hsolid)
  rw [← hchars] at hstart hbody
  have hfull : (Param.callback result gap name list).chars ≠ [] ∧
      (Param.callback result gap name list).chars ≠ ['.', '.', '.'] := by
    rw [hchars]
    refine ⟨List.cons_ne_nil _ _, fun hdots => ?_⟩
    cases hdots
    cases hc
  have hends : EndsWord (')' :: '(' :: list.chars ++ ')' :: g'.chars) := by
    rintro _ ⟨⟩
    rfl
  have hgap : before (g.chars ++ (Param.callback result gap name list).chars ++ g'.chars)
      ((Param.callback result gap name list).chars ++ g'.chars) = g.chars := by
    rw [List.append_assoc, before_left]
  have htype : before ((Param.callback result gap name list).chars ++ g'.chars)
      (name.chars ++ (')' :: '(' :: list.chars ++ ')' :: g'.chars)) = resultChars result gap := by
    have hparts : (Param.callback result gap name list).chars ++ g'.chars =
        resultChars result gap ++ (name.chars ++ (')' :: '(' :: list.chars ++ ')' :: g'.chars)) := by
      rw [chars_callback]
      simp [resultChars]
    rw [hparts, before_left]
  rw [← hbody] at hfull hstar
  rw [piece_starred hfull hstar (fromName_callback _ _ _ _ hstart) hends, hstart, hlist, hgap, htype]
  rfl

end

end Written

end Bindery
