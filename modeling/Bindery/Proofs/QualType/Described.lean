import Bindery.Proofs.QualType.Itself

/-! Texts that start with a tag keyword and end with a parenthesis, by which records are described. -/

namespace Bindery

namespace QualType

variable {cs rest bl : List Char} {ts : List Token} {tag : String} {x : Token}

theorem Lexes.eq_nil (h : Lexes [] ts) : ts = [] := by
  cases h
  rfl

theorem Lexes.blanks (h : Lexes cs []) : ∀ c ∈ cs, isAsciiBlank c = true := by
  generalize hts : ([] : List Token) = ts at h
  induction h with
  | nil => exact nofun
  | blank hc _ ih => exact List.forall_mem_cons.mpr ⟨hc, ih hts⟩
  | _ => cases hts

theorem ofPunctuation?_plain {c : Char} (h : Token.ofPunctuation? c = some x) :
    (∀ w, x ≠ .word w) ∧ ∀ key, x ≠ .anonymous key := by
  have hmem := ofPunctuation?_mem h
  simp only [List.mem_cons, List.not_mem_nil, or_false] at hmem
  rcases hmem with rfl | rfl | rfl | rfl | rfl | rfl <;> cases h <;> exact ⟨nofun, nofun⟩

/-- A description stands behind a tag keyword only. -/
theorem Lexes.head_ne_anonymous {key : String} (h : Lexes cs (.anonymous key :: ts)) : False := by
  generalize hus : Token.anonymous key :: ts = us at h
  induction h with
  | blank _ _ ih => exact ih hus
  | punctuation hc _ _ =>
    cases hus
    exact (ofPunctuation?_plain hc).2 key rfl
  | _ => cases hus

/-- The last token is no word. -/
def EndsPunctuated (ts : List Token) : Prop :=
  ∃ x ∈ ts.getLast?, ∀ w, x ≠ .word w

theorem endsPunctuated_append (piece : List Char) (xs : List Token) (h : Lexes rest ts)
    (hpiece : ')' ∈ piece.getLast? → EndsPunctuated xs) (hrest : ')' ∈ rest.getLast? → EndsPunctuated ts)
    (hlast : ')' ∈ (piece ++ rest).getLast?) : EndsPunctuated (xs ++ ts) := by
  cases rest with
  | nil =>
    obtain rfl := h.eq_nil
    rw [List.append_nil] at hlast ⊢
    exact hpiece hlast
  | cons c rest =>
    rw [List.getLast?_append_of_ne_nil _ (List.cons_ne_nil c rest)] at hlast
    obtain ⟨x, hx, hother⟩ := hrest hlast
    refine ⟨x, ?_, hother⟩
    rw [Option.mem_def] at hx ⊢
    rw [List.getLast?_append, hx, Option.some_or]

theorem endsPunctuated_word {c : Char} {w : List Char} {xs : List Token} (hc : isWordChar c = true)
    (hw : ∀ y ∈ w, isWordChar y = true) (hlast : ')' ∈ (c :: w).getLast?) : EndsPunctuated xs := by
  have hall : ∀ y ∈ c :: w, isWordChar y = true := List.forall_mem_cons.mpr ⟨hc, hw⟩
  exact absurd (hall ')' (List.mem_of_getLast? hlast)) (by decide)

theorem Lexes.endsPunctuated (h : Lexes cs ts) (hlast : ')' ∈ cs.getLast?) : EndsPunctuated ts := by
  induction h with
  | nil => cases hlast
  | ellipsis h ih =>
    exact endsPunctuated_append ['.', '.', '.'] [.ellipsis] h nofun ih hlast
  | @blank c rest ts hc h ih =>
    refine endsPunctuated_append [c] [] h (fun hblank => ?_) ih hlast
    cases hblank
    exact absurd hc (by decide)
  | word hc hw h ih =>
    exact endsPunctuated_append _ [_] h
      (endsPunctuated_word (isWordChar_of_isWordStart hc) hw) ih hlast
  | @described c w before behind key ts hc hw h ih =>
    have hsplit : c :: w ++ (before ++ ')' :: behind) = (c :: w ++ (before ++ [')'])) ++ behind := by simp
    rw [hsplit] at hlast
    exact endsPunctuated_append _ [_, .anonymous key] h (fun _ => ⟨_, rfl, nofun⟩) ih hlast
  | number hc hw hlt h ih =>
    exact endsPunctuated_append _ [_] h
      (endsPunctuated_word (isWordChar_of_isDigit hc) fun y hy => isWordChar_of_isDigit (hw y hy)) ih hlast
  | @punctuation c x rest ts hc h ih =>
    exact endsPunctuated_append [c] [x] h
      (fun _ => ⟨x, rfl, (ofPunctuation?_plain hc).1⟩) ih hlast

theorem isTag_iff {w : String} : isTag w ↔ w ∈ ["struct", "union", "enum"] := by
  simp [isTag, or_assoc]

theorem isTag_not_qualifier (htag : isTag tag) : ¬IsQualifier (.word tag) := by
  have hwords : ∀ w ∈ ["struct", "union", "enum"], w ≠ "const" ∧ w ∉ ignoredQualifiers := by decide
  obtain ⟨hconst, hignored⟩ := hwords tag (isTag_iff.mp htag)
  rintro ⟨w, hw, h⟩
  cases hw
  exact h.elim hconst hignored

/-- No keyword or qualifier begins with a tag keyword and goes on. -/
theorem longer_than_tag {w : String} (htag : isTag tag) (hstart : tag.toList <+: w.toList)
    (hne : w ≠ tag) : isTag w = false ∧ ¬IsQualifier (.word w) := by
  let words := ["struct", "union", "enum"] ++ "const" :: ignoredQualifiers
  have hwords : ∀ tag ∈ ["struct", "union", "enum"], ∀ w ∈ words, tag.toList <+: w.toList → w = tag := by
    decide
  have hnew : w ∉ words := fun hw => hne (hwords tag (isTag_iff.mp htag) w hw hstart)
  simp only [words, List.mem_append, List.mem_cons, not_or] at hnew
  refine ⟨?_, ?_⟩
  · rw [← Bool.not_eq_true, isTag_iff]
    simpa using hnew.1
  · rintro ⟨w', hw, h⟩
    cases hw
    exact h.elim hnew.2.1 hnew.2.2

theorem toList_of_isTag (htag : isTag tag) :
    ∃ c w, tag.toList = c :: w ∧ isWordStart c = true ∧ ∀ y ∈ w, isWordChar y = true := by
  have hidentifier : ∀ tag ∈ ["struct", "union", "enum"], isIdentifier tag := by decide
  exact isIdentifier_iff.mp (hidentifier tag (isTag_iff.mp htag))

/-- A text that begins with the letters of a tag keyword begins with a longer word, or with the
keyword. -/
theorem tokenize_tagged (htag : isTag tag) (h : tokenize (tag.toList ++ rest) = .ok ts) :
    (∃ w us, ts = .word w :: us ∧ isTag w = false ∧ ¬IsQualifier (.word w)) ∨
      (∃ us, ts = .word tag :: us ∧ described rest = .ok none ∧ tokenize rest = .ok us) ∨
      ∃ key behind us, ts = .word tag :: .anonymous key :: us ∧
        described rest = .ok (some (key, behind)) ∧ tokenize behind = .ok us := by
  obtain ⟨c, w, hlist, hc, hw⟩ := toList_of_isTag htag
  have hmade : String.ofList (c :: w) = tag := by rw [← hlist, String.ofList_toList]
  by_cases hends : EndsWord rest
  · right
    rw [hlist, tokenize_tag hc hw hends (by rwa [hmade]), hmade] at h
    rcases hd : described rest with e | _ | ⟨key, behind⟩
    · rw [hd] at h
      cases h
    · rw [hd] at h
      obtain ⟨us, hus, rfl⟩ := except_map_ok h
      exact .inl ⟨us, rfl, rfl, hus⟩
    · rw [hd] at h
      obtain ⟨us, hus, rfl⟩ := except_map_ok h
      exact .inr ⟨key, behind, us, rfl, rfl, hus⟩
  · left
    let more := rest.takeWhile isWordChar
    have hsplit : rest = more ++ rest.dropWhile isWordChar := List.takeWhile_append_dropWhile.symm
    have hmore : more ≠ [] := by
      intro hnone
      rw [hnone, List.nil_append] at hsplit
      rw [hsplit] at hends
      exact hends (dropWhile_head? _ _)
    have hlonger : (String.ofList (c :: (w ++ more))).toList = tag.toList ++ more := by
      rw [String.toList_ofList, hlist, List.cons_append]
    have hne : String.ofList (c :: (w ++ more)) ≠ tag := by
      intro hsame
      rw [hsame] at hlonger
      exact hmore (List.append_right_eq_self.mp hlonger.symm)
    obtain ⟨hplain, hother⟩ := longer_than_tag htag ⟨more, hlonger.symm⟩ hne
    have hw' : ∀ y ∈ w ++ more, isWordChar y = true :=
      List.forall_mem_append.mpr ⟨hw, takeWhile_all isWordChar rest⟩
    have hlist' : tag.toList ++ rest = c :: (w ++ more) ++ rest.dropWhile isWordChar := by
      rw [hlist, List.cons_append, List.cons_append, List.append_assoc, ← hsplit]
    rw [hlist', tokenize_word hc hw' (dropWhile_head? _ _) hplain] at h
    obtain ⟨us, -, rfl⟩ := except_map_ok h
    exact ⟨_, us, rfl, hplain, hother⟩

/-- A description in parentheses with blanks before it. -/
def IsDescription (cs inside : List Char) : Prop :=
  ∃ gap, cs = gap ++ '(' :: (inside ++ [')']) ∧ (∀ c ∈ gap, isBlank c = true) ∧
    splitParens (inside ++ [')']) = some (inside, [])

theorem described_all {key : String} (h : described cs = .ok (some (key, []))) :
    ∃ inside, key = String.ofList inside ∧ IsDescription cs inside := by
  unfold described at h
  split at h
  · next inner hcs =>
    split at h
    · cases h
    · next inside behind hg =>
      cases h
      obtain ⟨c, hc, hinner⟩ := splitGroup_eq hg
      obtain rfl := beq_iff_eq.mp hc
      rw [hinner] at hg hcs
      refine ⟨inside, rfl, cs.takeWhile isBlank, ?_, takeWhile_all isBlank cs, hg⟩
      rw [← hcs, trimStart, List.takeWhile_append_dropWhile]
  · cases h

theorem lead_eq_nil {lead us : List Token} {w : String} (hw : ¬IsQualifier (.word w))
    (hlead : ∀ q ∈ lead, IsQualifier q) (h : lead ++ .word tag :: us = .word w :: ts) : lead = [] := by
  cases lead with
  | nil => rfl
  | cons q lead =>
    have hq : q = .word w := (List.cons.inj h).1
    exact absurd (hq ▸ hlead q (.head _)) hw

theorem eq_nil_of_endsPunctuated {lead trail : List Token} (h : EndsPunctuated (lead ++ x :: trail))
    (htrail : ∀ q ∈ trail, IsQualifier q) : trail = [] ∧ ∀ w, x ≠ .word w := by
  obtain ⟨y, hy, hother⟩ := h
  rcases List.eq_nil_or_concat' trail with rfl | ⟨others, q, rfl⟩
  · rw [List.getLast?_concat] at hy
    cases hy
    exact ⟨rfl, hother⟩
  · obtain ⟨w, rfl, -⟩ := htrail q (by simp)
    have hsplit : lead ++ x :: (others ++ [.word w]) = (lead ++ x :: others) ++ [.word w] := by simp
    rw [hsplit, List.getLast?_concat] at hy
    cases hy
    exact absurd rfl (hother w)

/-- A text with a tag keyword at its start and a parenthesis at its end is read as the record itself
only if it is the keyword and a description. -/
theorem description_of_tokens {lead trail : List Token} (htag : isTag tag)
    (h : tokenize (tag.toList ++ rest) = .ok (lead ++ .word tag :: x :: trail))
    (hlead : ∀ q ∈ lead, IsQualifier q) (htrail : ∀ q ∈ trail, IsQualifier q)
    (hx : (∃ w, x = .word w) ∨ ∃ key, x = .anonymous key) (hlast : ')' ∈ rest.getLast?) :
    lead = [] ∧ trail = [] ∧
      ∃ inside, x = .anonymous (String.ofList inside) ∧ IsDescription rest inside := by
  obtain ⟨rfl, hother⟩ : trail = [] ∧ ∀ w, x ≠ .word w := by
    have hends : ')' ∈ (tag.toList ++ rest).getLast? := by
      rw [Option.mem_def] at hlast ⊢
      rw [List.getLast?_append, hlast, Option.some_or]
    have hpunctuated := (lexes_of_tokenize h).endsPunctuated hends
    rw [List.append_cons] at hpunctuated
    exact eq_nil_of_endsPunctuated hpunctuated htrail
  obtain ⟨key, rfl⟩ := hx.resolve_left fun ⟨w, hw⟩ => hother w hw
  rcases tokenize_tagged htag h with ⟨w, us, hts, hplain, hnone⟩ | ⟨us, hts, -, hus⟩ |
    ⟨key', behind, us, hts, hd, hus⟩
  · obtain rfl := lead_eq_nil hnone hlead hts
    obtain ⟨rfl⟩ : tag = w := by simpa using (List.cons.inj hts).1
    rw [htag] at hplain
    cases hplain
  · obtain rfl := lead_eq_nil (isTag_not_qualifier htag) hlead hts
    rw [← (List.cons.inj hts).2] at hus
    exact (lexes_of_tokenize hus).head_ne_anonymous.elim
  · obtain rfl := lead_eq_nil (isTag_not_qualifier htag) hlead hts
    obtain ⟨hkey, rfl⟩ := List.cons.inj (List.cons.inj hts).2
    obtain rfl : key = key' := by simpa using hkey
    have hblanks := (lexes_of_tokenize hus).blanks
    obtain ⟨before, hrest⟩ := described_eq hd
    obtain rfl : behind = [] := by
      rcases List.eq_nil_or_concat' behind with rfl | ⟨others, c, rfl⟩
      · rfl
      · have hsplit : rest = (before ++ ')' :: others) ++ [c] := by simp [hrest]
        rw [hsplit, List.getLast?_concat] at hlast
        cases hlast
        exact absurd (hblanks ')' (by simp)) (by decide)
    obtain ⟨inside, rfl, hinside⟩ := described_all hd
    exact ⟨rfl, rfl, inside, rfl, hinside⟩

/-- A tag keyword and a description are two tokens. -/
theorem tokenize_description {inside : List Char} (htag : isTag tag) (h : IsDescription rest inside) :
    tokenize (tag.toList ++ rest) = .ok [.word tag, .anonymous (String.ofList inside)] := by
  obtain ⟨gap, rfl, hgap, hinside⟩ := h
  obtain ⟨c, w, hlist, hc, hw⟩ := toList_of_isTag htag
  have hmade : String.ofList (c :: w) = tag := by rw [← hlist, String.ofList_toList]
  have hopen : ∀ y ∈ ('(' :: (inside ++ [')'])).head?, isBlank y = false := by
    rintro _ ⟨⟩
    decide
  have hends : EndsWord (gap ++ '(' :: (inside ++ [')'])) := by
    intro y hy
    cases gap with
    | nil =>
      cases hy
      decide
    | cons g gap =>
      cases hy
      exact not_isWordChar_of_isBlank (hgap _ (.head _))
  have hd : described (gap ++ '(' :: (inside ++ [')'])) = .ok (some (String.ofList inside, [])) := by
    simp only [described, trimStart, (span_eq hgap hopen).2, hinside]
  rw [hlist, tokenize_tag hc hw hends (by rwa [hmade]), hd, hmade]
  show (tokenize []).map _ = _
  rw [tokenize]
  rfl

end QualType

end Bindery
