import Bindery.Proofs.QualType.Lexing
import Bindery.Proofs.Source.Parameters

/-! What the search for parameters passes over: plain characters, comments and closed brackets. -/

namespace Bindery

namespace ParamText

open QualType (isWordStart isWordChar EndsWord)

variable {cs cs' rest : List Char} {c : Char}

/-- A comment that begins with `<` and ends with `>`. -/
def noted (content : List Char) : List Char :=
  ['/', '*', '<'] ++ content ++ ['>', '*', '/']

theorem noted_append (content rest : List Char) : noted content ++ rest =
    '/' :: '*' :: '<' :: (content ++ '>' :: '*' :: '/' :: rest) := by
  simp [noted]

/-- Text that does not close a comment is passed, unless it ends in a star and a slash follows. -/
theorem afterBlockComment_passed {content : List Char} (h : ¬['*', '/'] <:+: content)
    (hrest : ¬['/'] <+: rest) : afterBlockComment (content ++ rest) = afterBlockComment rest := by
  induction content with
  | nil => rfl
  | cons c content ih =>
    have htail : ¬['*', '/'] <:+: content :=
      fun hin => h (hin.trans (List.suffix_cons c content).isInfix)
    rw [List.cons_append, afterBlockComment]
    · exact ih htail
    · rintro rest' rfl hnext
      cases content with
      | nil => exact hrest ⟨rest', hnext.symm⟩
      | cons d content =>
        cases hnext
        exact h ⟨[], content, rfl⟩

theorem afterBlockComment_content {content : List Char} (h : ¬['*', '/'] <:+: content)
    (rest : List Char) : afterBlockComment (content ++ '*' :: '/' :: rest) = rest := by
  rw [afterBlockComment_passed h (by simp), afterBlockComment]

theorem afterBlockComment_noted {content : List Char} (h : ¬['*', '/'] <:+: content)
    (rest : List Char) :
    afterBlockComment ('<' :: (content ++ '>' :: '*' :: '/' :: rest)) = rest := by
  have hcontent : afterBlockComment (content ++ '>' :: '*' :: '/' :: rest) = rest :=
    afterBlockComment_passed h (by simp)
  rw [afterBlockComment, hcontent]
  rintro _ ⟨⟩

/-- A slash that begins no comment begins none with what follows, unless a star does. -/
theorem unopened_append (hopen : ∀ r, c = '/' → cs = '*' :: r → False) (hrest : ¬['*'] <+: rest) :
    ∀ r, c = '/' → cs ++ rest = '*' :: r → False := by
  intro r hc hr
  cases cs with
  | nil => exact hrest ⟨r, hr.symm⟩
  | cons d cs => exact hopen cs hc (by rw [(List.cons.inj hr).1])

/-- A character that has no part in comments, brackets or lists. -/
def isPlain (c : Char) : Bool :=
  !(['/', '(', ')', '[', ']', ','].contains c)

theorem isPlain_iff : isPlain c ↔
    c ≠ '/' ∧ c ≠ '(' ∧ c ≠ ')' ∧ c ≠ '[' ∧ c ≠ ']' ∧ c ≠ ',' := by
  simp [isPlain]

theorem isPlain_of_isBlank (h : isBlank c) : isPlain c := by
  rw [isPlain_iff]
  refine ⟨?_, ?_, ?_, ?_, ?_, ?_⟩ <;> rintro rfl <;> cases h

theorem isPlain_of_isWordChar (h : isWordChar c) : isPlain c := by
  rw [isPlain_iff]
  refine ⟨?_, ?_, ?_, ?_, ?_, ?_⟩ <;> rintro rfl <;> cases h

theorem fromComma_cons (hslash : c ≠ '/') (depth : Nat) (rest : List Char) :
    fromComma depth (c :: rest) =
      if c == '(' || c == '[' then fromComma (depth + 1) rest
      else if c == ')' || c == ']' then fromComma (depth - 1) rest
      else if c == ',' && depth == 0 then c :: rest
      else fromComma depth rest := by
  rw [fromComma]
  exact fun _ h => absurd h hslash

theorem afterGroup_unopened {opening closing : Char}
    (hopen : ∀ r, c = '/' → cs = '*' :: r → False) (depth : Nat) :
    afterGroup opening closing depth (c :: cs) =
      if c == opening then afterGroup opening closing (depth + 1) cs
      else if c == closing then
        if depth = 0 then some cs else afterGroup opening closing (depth - 1) cs
      else afterGroup opening closing depth cs := by
  rw [afterGroup.eq_def]
  split
  next heq => cases heq
  next heq =>
    obtain ⟨hc, hcs⟩ := List.cons.inj heq
    exact (hopen _ hc hcs).elim
  next heq =>
    cases heq
    cases depth <;> rfl

theorem afterGroup_cons {opening closing : Char} (hslash : c ≠ '/') (depth : Nat)
    (rest : List Char) :
    afterGroup opening closing depth (c :: rest) =
      if c == opening then afterGroup opening closing (depth + 1) rest
      else if c == closing then
        if depth = 0 then some rest else afterGroup opening closing (depth - 1) rest
      else afterGroup opening closing depth rest :=
  afterGroup_unopened (fun _ hc => absurd hc hslash) depth

theorem skipTrivia_cons (hblank : isBlank c = false) (hslash : c ≠ '/') (rest : List Char) :
    skipTrivia (c :: rest) = c :: rest := by
  have hkept : trimStart (c :: rest) = c :: rest := List.dropWhile_cons_of_neg (by simp [hblank])
  rw [skipTrivia]
  split
  next heq => exact absurd (List.cons.inj (hkept.symm.trans heq)).1 hslash
  next heq => exact absurd (List.cons.inj (hkept.symm.trans heq)).1 hslash
  next => exact hkept

theorem listBody_closing (rest : List Char) : listBody (')' :: rest) = listBody rest := by
  have hkept := skipTrivia_cons (c := ')') rfl (by decide) rest
  rw [listBody]
  split
  next heq => rw [(List.cons.inj (hkept.symm.trans heq)).2]
  next heq => cases hkept.symm.trans heq
  next heq => cases hkept.symm.trans heq
  next hclosing _ _ => exact absurd hkept (hclosing rest)

theorem listBody_opening (rest : List Char) : listBody ('(' :: rest) = some rest := by
  have hkept := skipTrivia_cons (c := '(') rfl (by decide) rest
  rw [listBody]
  split
  next heq => cases hkept.symm.trans heq
  next heq => cases hkept.symm.trans heq
  next heq => rw [(List.cons.inj (hkept.symm.trans heq)).2]
  next hopening => exact absurd hkept (hopening rest)

theorem listBody_bracket (rest : List Char) :
    listBody ('[' :: rest) = (afterGroup '[' ']' 0 rest).bind listBody := by
  have hkept := skipTrivia_cons (c := '[') rfl (by decide) rest
  rw [listBody]
  split
  next heq => cases hkept.symm.trans heq
  next heq =>
    cases hkept.symm.trans heq
    split
    next hafter => rw [hafter, Option.bind_some]
    next hnone => rw [hnone, Option.bind_none]
  next heq => cases hkept.symm.trans heq
  next hbracket _ => exact absurd hkept (hbracket rest)

/-- No list begins at other characters. -/
theorem listBody_stray (hkept : skipTrivia (c :: cs) = c :: cs) (hc : c ∉ ['(', ')', '[']) :
    listBody (c :: cs) = none := by
  simp only [List.mem_cons, List.not_mem_nil, or_false, not_or] at hc
  rw [listBody]
  split
  next heq => exact absurd (List.cons.inj (hkept.symm.trans heq)).1 hc.2.1
  next heq => exact absurd (List.cons.inj (hkept.symm.trans heq)).1 hc.2.2
  next heq => exact absurd (List.cons.inj (hkept.symm.trans heq)).1 hc.1
  next => rfl

theorem skipTrivia_slash (hc : c ∉ ['/', '*']) (rest : List Char) :
    skipTrivia ('/' :: c :: rest) = '/' :: c :: rest := by
  have hkept : trimStart ('/' :: c :: rest) = '/' :: c :: rest := rfl
  rw [skipTrivia]
  split
  next heq =>
    cases hkept.symm.trans heq
    exact absurd (by decide) hc
  next heq =>
    cases hkept.symm.trans heq
    exact absurd (by decide) hc
  next => exact hkept

/-- Neither the comma that ends a parameter, with `least` or more brackets open, nor the parenthesis
that closes a list is found in the text. -/
structure Passes (least : Nat) (cs : List Char) : Prop where
  fromComma_eq : ∀ depth, least ≤ depth → ∀ rest,
    fromComma depth (cs ++ rest) = fromComma depth rest
  afterGroup_eq : ∀ depth rest,
    afterGroup '(' ')' depth (cs ++ rest) = afterGroup '(' ')' depth rest

namespace Passes

variable {least : Nat}

theorem nil : Passes least [] :=
  ⟨fun _ _ _ => rfl, fun _ _ => rfl⟩

theorem append (h : Passes least cs) (h' : Passes least cs') : Passes least (cs ++ cs') := by
  constructor
  · intro depth hdepth rest
    rw [List.append_assoc, h.fromComma_eq depth hdepth, h'.fromComma_eq depth hdepth]
  · intro depth rest
    rw [List.append_assoc, h.afterGroup_eq, h'.afterGroup_eq]

theorem flatMap {α : Type} {f : α → List Char} {xs : List α} (h : ∀ x ∈ xs, Passes least (f x)) :
    Passes least (xs.flatMap f) := by
  induction xs with
  | nil => exact nil
  | cons x xs ih =>
    obtain ⟨hx, hxs⟩ := List.forall_mem_cons.mp h
    exact hx.append (ih hxs)

theorem nested (h : Passes 0 cs) : Passes least cs :=
  ⟨fun depth _ => h.fromComma_eq depth (Nat.zero_le depth), h.afterGroup_eq⟩

theorem plain (h : ∀ c ∈ cs, isPlain c) : Passes 0 cs := by
  rw [← List.flatMap_singleton' cs]
  refine flatMap fun c hc => ?_
  have hplain := isPlain_iff.mp (h c hc)
  constructor
  · intro depth _ rest
    rw [List.singleton_append, fromComma_cons hplain.1]
    simp [hplain]
  · intro depth rest
    rw [List.singleton_append, afterGroup_cons hplain.1]
    simp [hplain]

theorem comma : Passes 1 [','] := by
  constructor
  · intro depth hdepth rest
    have hinside : depth ≠ 0 := by omega
    rw [List.singleton_append, fromComma_cons (by decide)]
    simp [hinside]
  · intro depth rest
    rw [List.singleton_append, afterGroup_cons (by decide)]
    simp

theorem noted {content : List Char} (h : ¬['*', '/'] <:+: content) :
    Passes 0 (noted content) := by
  constructor
  · intro depth _ rest
    rw [noted_append, fromComma, afterBlockComment_noted h]
  · intro depth rest
    rw [noted_append, afterGroup, afterBlockComment_noted h]

end Passes

theorem splitStar_tail (h : splitStar (c :: cs) = none) : splitStar cs = none := by
  unfold splitStar at h
  split at h
  · cases h
  · next heq =>
    cases heq
    simpa using h
  · next heq => cases heq

theorem splitStar_eq_none_iff : splitStar cs = none ↔ ¬['(', '*'] <:+: cs := by
  constructor
  · rintro h ⟨front, back, rfl⟩
    induction front with
    | nil => cases h
    | cons c front ih => exact ih (splitStar_tail h)
  · intro h
    cases hsplit : splitStar cs with
    | none => rfl
    | some p =>
      refine absurd ⟨p.1, p.2, ?_⟩ h
      rw [splitStar_eq_some hsplit, List.append_assoc]
      rfl

/-- No star right behind an opening parenthesis is found in the text. -/
def Unstarred (cs : List Char) : Prop :=
  ∀ rest, splitStar (cs ++ rest) = (splitStar rest).map fun p => (cs ++ p.1, p.2)

namespace Unstarred

theorem nil : Unstarred [] := by
  intro rest
  simp

theorem append (h : Unstarred cs) (h' : Unstarred cs') : Unstarred (cs ++ cs') := by
  intro rest
  rw [List.append_assoc, h, h', Option.map_map]
  simp [Function.comp_def]

theorem flatMap {α : Type} {f : α → List Char} {xs : List α} (h : ∀ x ∈ xs, Unstarred (f x)) :
    Unstarred (xs.flatMap f) := by
  induction xs with
  | nil => exact nil
  | cons x xs ih =>
    obtain ⟨hx, hxs⟩ := List.forall_mem_cons.mp h
    exact hx.append (ih hxs)

theorem closed (h : '(' ∉ cs) : Unstarred cs := by
  rw [← List.flatMap_singleton' cs]
  refine flatMap fun c hc rest => ?_
  rw [List.singleton_append, splitStar]
  · rfl
  · rintro _ rfl
    exact absurd hc h

theorem plain (h : ∀ c ∈ cs, isPlain c) : Unstarred cs :=
  closed fun hopen => absurd (h _ hopen) (by decide)

theorem splitStar_eq (h : Unstarred cs) : splitStar cs = none := by
  have hend := h []
  rwa [List.append_nil] at hend

/-- A character that is no part of the mark ends a text without one. -/
theorem concat (h : ¬['(', '*'] <:+: cs) (hc : c ∉ ['(', '*']) : Unstarred (cs ++ [c]) := by
  have hopen : c ≠ '(' := fun he => hc (by simp [he])
  have hstar : c ≠ '*' := fun he => hc (by simp [he])
  induction cs with
  | nil => exact closed (by simpa using hopen.symm)
  | cons d cs ih =>
    have htail : ¬['(', '*'] <:+: cs := fun hin => h (hin.trans (List.suffix_cons d cs).isInfix)
    intro rest
    rw [List.cons_append, List.cons_append, splitStar, ih htail, Option.map_map]
    · rfl
    · rintro rest' rfl hnext
      cases cs with
      | nil => exact hstar (List.cons.inj hnext).1
      | cons e cs =>
        cases hnext
        exact h ⟨[], cs, rfl⟩

theorem noted {content : List Char} (h : ¬['(', '*'] <:+: content) :
    Unstarred (noted content) := by
  have hcontent : Unstarred (content ++ ['>']) := concat h (by decide)
  have hopening : Unstarred ['/', '*', '<'] := closed (by decide)
  have hclosing : Unstarred ['*', '/'] := closed (by decide)
  have hparts := (hopening.append hcontent).append hclosing
  simpa [ParamText.noted] using hparts

end Unstarred

/-- No word is found in the text, so the search for words goes on behind it. -/
def Wordless (cs : List Char) : Prop :=
  ∀ offset rest, wordsAt offset (cs ++ rest) = wordsAt (offset + byteLength cs) rest

theorem before_left (cs rest : List Char) : before (cs ++ rest) rest = cs := by
  simp [before]

namespace Wordless

theorem nil : Wordless [] :=
  fun _ _ => rfl

theorem append (h : Wordless cs) (h' : Wordless cs') : Wordless (cs ++ cs') := by
  intro offset rest
  rw [List.append_assoc, h, h', byteLength_append, Nat.add_assoc]

theorem flatMap {α : Type} {f : α → List Char} {xs : List α} (h : ∀ x ∈ xs, Wordless (f x)) :
    Wordless (xs.flatMap f) := by
  induction xs with
  | nil => exact nil
  | cons x xs ih =>
    obtain ⟨hx, hxs⟩ := List.forall_mem_cons.mp h
    exact hx.append (ih hxs)

theorem plain (h : ∀ c ∈ cs, isPlain c ∧ isWordStart c = false) : Wordless cs := by
  rw [← List.flatMap_singleton' cs]
  refine flatMap fun c hc offset rest => ?_
  obtain ⟨hplain, hstart⟩ := h c hc
  obtain ⟨hslash, -, -, hbracket, -, -⟩ := isPlain_iff.mp hplain
  have hletter : (c.isAlpha || c == '_') = false := hstart
  rw [List.singleton_append, wordsAt.eq_def]
  split
  next heq => cases heq
  next heq => exact absurd (List.cons.inj heq).1 hslash
  next heq => exact absurd (List.cons.inj heq).1 hbracket
  next heq =>
    cases heq
    simp [hletter, byteLength]

theorem noted {content : List Char} (h : ¬['*', '/'] <:+: content) :
    Wordless (noted content) := by
  intro offset rest
  have hafter := afterBlockComment_noted h rest
  rw [noted_append, wordsAt, hafter, ← noted_append, before_left]

/-- The words in the brackets of an array are left out. -/
theorem enclosed {inside : List Char}
    (h : ∀ rest, afterGroup '[' ']' 0 (inside ++ ']' :: rest) = some rest) :
    Wordless ('[' :: inside ++ [']']) := by
  intro offset rest
  have htext : '[' :: inside ++ [']'] ++ rest = '[' :: (inside ++ ']' :: rest) := by simp
  have hbefore : before ('[' :: (inside ++ ']' :: rest)) rest = '[' :: inside ++ [']'] := by
    rw [← htext, before_left]
  rw [htext, wordsAt]
  split
  next after hafter =>
    obtain rfl : rest = after := Option.some.inj ((h rest).symm.trans hafter)
    rw [hbefore]
  next hnone => cases (h rest).symm.trans hnone

theorem brackets {inside : List Char} (h : ∀ c ∈ inside, isPlain c) :
    Wordless ('[' :: inside ++ [']']) := by
  refine enclosed fun rest => ?_
  induction inside with
  | nil => simp [afterGroup_cons]
  | cons c cs ih =>
    obtain ⟨hc, hcs⟩ := List.forall_mem_cons.mp h
    have hplain := isPlain_iff.mp hc
    rw [List.cons_append, afterGroup_cons hplain.1, ← ih hcs]
    simp [hplain]

end Wordless

/-- A word is found whole if nothing behind it continues it. -/
theorem wordsAt_word {word : String} (hword : isIdentifier word) (hrest : EndsWord rest)
    (offset : Nat) : wordsAt offset (word.toList ++ rest) =
      (word, offset) :: wordsAt (offset + byteLength word.toList) rest := by
  obtain ⟨c, cs, hchars, hc, hcs⟩ := isIdentifier_iff.mp hword
  obtain ⟨htake, hdrop⟩ := QualType.span_eq hcs hrest
  have hplain := isPlain_of_isWordChar (QualType.isWordChar_of_isWordStart hc)
  obtain ⟨hslash, -, -, hbracket, -, -⟩ := isPlain_iff.mp hplain
  have hletter : (c.isAlpha || c == '_') = true := hc
  have hname : String.ofList (c :: cs) = word := by rw [← hchars, String.ofList_toList]
  rw [hchars, List.cons_append, wordsAt.eq_def]
  split
  next heq => cases heq
  next heq => exact absurd (List.cons.inj heq).1 hslash
  next heq => exact absurd (List.cons.inj heq).1 hbracket
  next heq =>
    cases heq
    have hchar : isNameChar = isWordChar := rfl
    dsimp only
    rw [if_pos hletter, hchar, htake, hdrop, hname]

end ParamText

end Bindery
