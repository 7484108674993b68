import Bindery.Proofs.Source.Paired
import Bindery.Proofs.Source.Recovered
import Bindery.QualType.Parser

/-! Parameters without a name. The last of the words may be taken for one. -/

namespace Bindery

open ParamText (typeKeywords wordsAt declaredName endsInStar plain piece listed recoverFrom recover
  splitStar splitStar_eq_some splitStar_eq_none_iff before before_left isVoidList typeText typeText_span
  afterGroup Passes Unstarred Wordless)
open QualType (EndsWord builtinWords)

namespace Written

def qualifiers : List String :=
  ["const", "volatile", "restrict"]

def tagWords : List String :=
  ["struct", "union", "enum"]

inductive Specifier where
  | builtin (words : List String) (given : words ≠ []) (known : ∀ w ∈ words, w ∈ builtinWords)
  | tagged (keyword name : String) (tag : keyword ∈ tagWords)
  | named (name : String) (free : name ∉ typeKeywords)

def Specifier.words : Specifier → List String
  | .builtin words _ _ => words
  | .tagged keyword name _ => [keyword, name]
  | .named name _ => [name]

/-- The length of an array, any text in which brackets pair up. -/
structure Length where
  gap : Gap
  content : List Char
  paired : Paired true content

def Length.chars (l : Length) : List Char :=
  l.gap.chars ++ ('[' :: l.content ++ [']'])

/-- A parameter without a name. `void` alone is none, but an empty list. -/
structure Unnamed where
  first : Word
  more : List SpacedWord
  front : List String
  specifier : Specifier
  behind : List String
  stars : List Gap
  lengths : List Length
  qualified : ∀ w ∈ front ++ behind, w ∈ qualifiers
  spelled : first.text :: more.map (·.word.text) = front ++ specifier.words ++ behind
  complete : more = [] → stars = [] → lengths = [] → first.text ≠ "void"

namespace Unnamed

def words (p : Unnamed) : List String :=
  p.first.text :: p.more.map (·.word.text)

def wordChars (p : Unnamed) : List Char :=
  p.first.chars ++ p.more.flatMap fun w => w.gap.chars ++ w.word.chars

/-- What stands behind the words. -/
def marks (p : Unnamed) : List Char :=
  (p.stars.flatMap fun g => g.chars ++ ['*']) ++ p.lengths.flatMap Length.chars

def chars (p : Unnamed) : List Char :=
  p.wordChars ++ p.marks

/-- The last word could be a name: it is that of a typedef behind a qualifier, or the keyword that is
missing among those of the types, and another word stands before it. -/
def TakenForName (p : Unnamed) : Prop :=
  p.behind = [] ∧
    match p.specifier with
    | .builtin words _ _ => words.getLast? = some "__int128" ∧ p.front ++ words ≠ ["__int128"]
    | .tagged _ _ _ => False
    | .named _ _ => p.front ≠ []

/-- The text ends in a star, or in one that closing brackets follow. -/
def EndsStarred (p : Unnamed) : Prop :=
  ∃ front n, p.chars = front ++ '*' :: List.replicate n ']'

/-- The whole parameter is found to be a type without a name. -/
def Whole (p : Unnamed) : Prop :=
  ¬['(', '*'] <:+: p.chars ∧ (p.TakenForName → p.EndsStarred)

end Unnamed

section

variable {cs rest : List Char} {c : Char} {offset : Nat}

theorem endsInStar_iff : endsInStar cs = true ↔
    ∃ front n, cs = front ++ '*' :: List.replicate n ']' := by
  rw [endsInStar, beq_iff_eq]
  constructor
  · intro h
    obtain ⟨rest, hrest⟩ := List.head?_eq_some_iff.mp h
    have hclosing : ∀ c ∈ cs.reverse.takeWhile (· == ']'), c = ']' := by
      intro c hc
      simpa using List.all_eq_true.mp (List.all_takeWhile (l := cs.reverse)) c hc
    have hcs := List.takeWhile_append_dropWhile (p := (· == ']')) (l := cs.reverse)
    rw [hrest, List.eq_replicate_of_mem hclosing] at hcs
    have hback := congrArg List.reverse hcs
    rw [List.reverse_reverse, List.reverse_append, List.reverse_replicate, List.reverse_cons,
      List.append_assoc, List.singleton_append] at hback
    exact ⟨rest.reverse, _, hback.symm⟩
  · rintro ⟨front, n, rfl⟩
    rw [List.reverse_append, List.reverse_cons, List.reverse_replicate, List.append_assoc,
      List.dropWhile_append_of_pos (by simp)]
    rfl

theorem mem_trim (hc : c ∈ cs) (hsolid : isBlank c = false) : c ∈ trim cs := by
  have hkept : ∀ cs : List Char, c ∈ cs → c ∈ cs.dropWhile isBlank := by
    intro cs hc
    rw [← List.takeWhile_append_dropWhile (p := isBlank) (l := cs)] at hc
    rcases List.mem_append.mp hc with htaken | hdropped
    · have hblank := List.all_eq_true.mp List.all_takeWhile c htaken
      rw [hsolid] at hblank
      cases hblank
    · exact hdropped
  rw [trim, trimEnd, List.mem_reverse]
  exact hkept _ (List.mem_reverse.mpr (hkept cs hc))

/-- The names of the words, without their offsets. -/
theorem names_wordsAt (first : Word) (more : List SpacedWord) (hrest : EndsWord rest)
    (offset : Nat) :
    let chars := first.chars ++ more.flatMap fun w => w.gap.chars ++ w.word.chars
    (wordsAt offset (chars ++ rest)).map (·.1) = first.text :: more.map (·.word.text) ++
      (wordsAt (offset + byteLength chars) rest).map (·.1) := by
  induction more generalizing first offset with
  | nil => simp [first.wordsAt_chars hrest offset]
  | cons w more ih =>
    have hends : EndsWord (w.gap.chars ++ (w.word.chars ++
        (more.flatMap fun w => w.gap.chars ++ w.word.chars) ++ rest)) :=
      endsWord_append w.gap.endsWord fun hgap => absurd hgap w.apart
    have hfirst := first.wordsAt_chars hends offset
    have hmore := ih w.word (offset + byteLength first.chars + byteLength w.gap.chars)
    rw [w.gap.wordless] at hfirst
    simp [byteLength_append, Nat.add_assoc] at hfirst hmore ⊢
    simp [hfirst, hmore]

theorem declaredName_concat (body : List Char) (front : List (String × Nat))
    (previous last : String × Nat) :
    declaredName body (front ++ [previous, last]) = none ↔
      last.1 ∈ typeKeywords ∨ previous.1 ∈ tagWords ∨ endsInStar body = true := by
  have hfound : (typeKeywords.contains last.1 ||
      ["struct", "union", "enum"].contains previous.1 || endsInStar body) = true ↔
      last.1 ∈ typeKeywords ∨ previous.1 ∈ tagWords ∨ endsInStar body = true := by
    simp only [Bool.or_eq_true, List.contains_iff_mem, or_assoc, tagWords]
  have hreverse : (front ++ [previous, last]).reverse = last :: previous :: front.reverse := by simp
  rw [← hfound, declaredName, hreverse]
  dsimp only
  split
  next h => simp only [h]
  next h => simp only [h, reduceCtorEq]

/-- A name is found if two words are there, the last is no keyword and the one before it no tag, and
the text does not end in a star. -/
theorem declaredName_eq_none_iff {body : List Char} {words : List (String × Nat)} :
    declaredName body words = none ↔
      ∀ front previous last, words.map (·.1) = front ++ [previous, last] →
        last ∈ typeKeywords ∨ previous ∈ tagWords ∨ endsInStar body = true := by
  constructor
  · intro h front previous last hwords
    obtain ⟨front', back, rfl, -, hback⟩ := List.map_eq_append_iff.mp hwords
    obtain ⟨previous', _, rfl, rfl, hlast⟩ := List.map_eq_cons_iff.mp hback
    obtain ⟨last', _, rfl, rfl, hnil⟩ := List.map_eq_cons_iff.mp hlast
    obtain rfl := List.map_eq_nil_iff.mp hnil
    exact (declaredName_concat body front' previous' last').mp h
  · intro h
    rcases words.eq_nil_or_concat with rfl | ⟨front, last, rfl⟩
    · rfl
    rcases front.eq_nil_or_concat with rfl | ⟨front, previous, rfl⟩
    · rfl
    have htwo : (front.concat previous).concat last = front ++ [previous, last] := by simp
    rw [htwo, declaredName_concat]
    exact h (front.map (·.1)) previous.1 last.1 (by simp)

end

namespace Length

variable (l : Length)

theorem passes : Passes 0 l.chars := by
  have hgroup : Paired false ('[' :: (l.content ++ ']' :: [])) :=
    .group (.inr ⟨rfl, rfl⟩) l.paired .nil
  exact l.gap.passes.append hgroup.passes

theorem wordless : Wordless l.chars := by
  refine l.gap.wordless.append (.enclosed fun rest => ?_)
  rw [l.paired.afterGroup_eq (.inr ⟨rfl, rfl⟩), ParamText.afterGroup_cons (by decide)]
  rfl

theorem endsWord : EndsWord l.chars := by
  refine endsWord_append l.gap.endsWord fun _ c hc => ?_
  cases hc
  rfl

theorem endsSolid : EndsSolid l.chars := by
  have hlast := endsSolid_of_last (l.gap.chars ++ '[' :: l.content) (c := ']') rfl
  simpa [chars] using hlast

end Length

namespace Unnamed

variable (p : Unnamed)

theorem passes : Passes 0 p.chars := by
  refine .append (p.first.passes.append (.flatMap fun w _ => ?_))
    (.append (.flatMap fun g _ => ?_) (.flatMap fun l _ => l.passes))
  · exact w.gap.passes.append w.word.passes
  · exact g.passes.append passes_star

theorem endsWord_marks : EndsWord p.marks := by
  have hstars : EndsWord (p.stars.flatMap fun g => g.chars ++ ['*']) :=
    endsWord_flatMap fun g _ => endsWord_append g.endsWord fun _ c hc => by
      cases hc
      rfl
  exact endsWord_append hstars fun _ => endsWord_flatMap fun l _ => l.endsWord

theorem endsSolid : EndsSolid p.chars := by
  have hwords : EndsSolid p.wordChars := by
    refine (endsSolid_word p.first).append (endsSolid_flatMap fun w _ => ?_)
    obtain ⟨c, cs, hchars, -⟩ := w.word.exists_start
    exact (endsSolid_word w.word).behind w.gap.chars (by simp [hchars])
  refine hwords.append (.append (endsSolid_flatMap fun g _ => ?_)
    (endsSolid_flatMap fun l _ => l.endsSolid))
  exact endsSolid_of_last g.chars rfl

theorem exists_start : ∃ c cs, p.chars = c :: cs ∧ QualType.isWordStart c := by
  obtain ⟨c, cs, hchars, hc⟩ := p.first.exists_start
  exact ⟨c, _, by rw [chars, wordChars, hchars]; rfl, hc⟩

theorem names_wordsAt (offset : Nat) : (wordsAt offset p.chars).map (·.1) = p.words := by
  have hstar : Wordless ['*'] := .plain (List.forall_mem_singleton.mpr ⟨rfl, rfl⟩)
  have hmarks : Wordless p.marks :=
    .append (.flatMap fun g _ => g.wordless.append hstar) (.flatMap fun l _ => l.wordless)
  have hend : wordsAt (offset + byteLength p.wordChars) p.marks = [] := by
    have hnone := hmarks (offset + byteLength p.wordChars) []
    rw [List.append_nil] at hnone
    rw [hnone, wordsAt]
  have hnames := Written.names_wordsAt p.first p.more p.endsWord_marks offset
  dsimp only at hnames
  rw [chars]
  refine hnames.trans ?_
  have hwords : p.first.chars ++ (p.more.flatMap fun w => w.gap.chars ++ w.word.chars) =
    p.wordChars := rfl
  rw [hwords, hend]
  exact List.append_nil _

/-- Another word stands before the last one, and neither shows the last one to be part of a type. -/
theorem takenForName_iff : p.TakenForName ↔
    ∃ front previous last, p.words = front ++ [previous, last] ∧ last ∉ typeKeywords ∧
      previous ∉ tagWords := by
  have hwords : p.words = p.front ++ p.specifier.words ++ p.behind := p.spelled
  have hfront : ∀ w ∈ p.front, w ∈ qualifiers :=
    fun w hw => p.qualified w (List.mem_append_left _ hw)
  have hkeywords : ∀ w ∈ qualifiers, w ∈ typeKeywords ∧ w ∉ tagWords := by decide
  have hbuiltin : ∀ w ∈ builtinWords, (w ∉ typeKeywords → w = "__int128") ∧ w ∉ tagWords := by decide
  constructor
  · rintro ⟨hbehind, htaken⟩
    rw [hbehind, List.append_nil] at hwords
    cases hspecifier : p.specifier with
    | tagged keyword name tag => simp [hspecifier] at htaken
    | named name free =>
      have hne : p.front ≠ [] := by simpa [hspecifier] using htaken
      obtain ⟨front, q, hq⟩ := p.front.eq_nil_or_concat.resolve_left hne
      refine ⟨front, q, name, ?_, free, (hkeywords q (hfront q (by simp [hq]))).2⟩
      simp [hwords, hspecifier, hq, Specifier.words]
    | builtin words given known =>
      obtain ⟨hlast, hmore⟩ : words.getLast? = some "__int128" ∧ p.front ++ words ≠ ["__int128"] := by
        simpa [hspecifier] using htaken
      obtain ⟨words', rfl⟩ := List.getLast?_eq_some_iff.mp hlast
      have hne : p.front ++ words' ≠ [] := by
        intro hnone
        rw [← List.append_assoc, hnone] at hmore
        exact hmore rfl
      obtain ⟨front, previous, hprevious⟩ := (p.front ++ words').eq_nil_or_concat.resolve_left hne
      refine ⟨front, previous, "__int128", ?_, by decide, ?_⟩
      · rw [hwords, hspecifier, Specifier.words, ← List.append_assoc, hprevious]
        simp
      · have hmem : previous ∈ p.front ++ words' := by simp [hprevious]
        rcases List.mem_append.mp hmem with hmem | hmem
        · exact (hkeywords previous (hfront previous hmem)).2
        · exact (hbuiltin previous (known previous (List.mem_append_left _ hmem))).2
  · rintro ⟨front, previous, last, htwo, hlast, hprevious⟩
    have hbehind : p.behind = [] := by
      rcases p.behind.eq_nil_or_concat with hnone | ⟨behind, q, hq⟩
      · exact hnone
      · have hq' : q = last := by
          have hend := congrArg List.getLast? (htwo.symm.trans hwords)
          simpa [hq] using hend.symm
        refine absurd (hkeywords last ?_).1 hlast
        exact hq' ▸ p.qualified q (List.mem_append_right _ (by simp [hq]))
    rw [hbehind, List.append_nil, htwo] at hwords
    refine ⟨hbehind, ?_⟩
    cases hspecifier : p.specifier with
    | tagged keyword name tag =>
      rw [hspecifier, Specifier.words] at hwords
      obtain ⟨-, htag⟩ := List.append_inj' hwords rfl
      cases htag
      exact hprevious tag
    | named name free =>
      rintro hnone
      rw [hspecifier, Specifier.words, hnone] at hwords
      simpa using congrArg List.length hwords
    | builtin words given known =>
      rw [hspecifier, Specifier.words] at hwords
      obtain ⟨words', w, hw⟩ := words.eq_nil_or_concat.resolve_left given
      have hlast' : w = last := by
        have hend := congrArg List.getLast? hwords
        simpa [hw] using hend.symm
      refine ⟨?_, fun hone => ?_⟩
      · rw [← (hbuiltin last (known last (by simp [hw, hlast']))).1 hlast, hw, hlast']
        simp
      · simpa [hone] using congrArg List.length hwords

theorem endsStarred_iff : p.EndsStarred ↔ endsInStar p.chars = true :=
  endsInStar_iff.symm

theorem declaredName_eq_none_iff (offset : Nat) :
    declaredName p.chars (wordsAt offset p.chars) = none ↔ (p.TakenForName → p.EndsStarred) := by
  rw [Written.declaredName_eq_none_iff, p.names_wordsAt, takenForName_iff, endsStarred_iff]
  constructor
  · rintro h ⟨front, previous, last, hwords, hlast, hprevious⟩
    exact ((h front previous last hwords).resolve_left hlast).resolve_left hprevious
  · intro h front previous last hwords
    by_contra hother
    simp only [not_or] at hother
    exact hother.2.2 (h ⟨front, previous, last, hwords, hother.1, hother.2.1⟩)

/-- The first bracket stands before every parenthesis. -/
theorem bracket_mem {head behind : List Char} (h : splitStar p.chars = some (head, behind)) :
    '[' ∈ head := by
  have hstar : Unstarred ['*'] := .closed (by decide)
  have hwords : Unstarred p.wordChars :=
    p.first.unstarred.append (.flatMap fun w _ => w.gap.unstarred.append w.word.unstarred)
  have hstars : Unstarred (p.stars.flatMap fun g => g.chars ++ ['*']) :=
    .flatMap fun g _ => g.unstarred.append hstar
  have hfront := hwords.append hstars
  rw [chars, marks, ← List.append_assoc] at h
  cases hlengths : p.lengths with
  | nil =>
    rw [hlengths, List.flatMap_nil, List.append_nil, hfront.splitStar_eq] at h
    cases h
  | cons l lengths =>
    have htext : p.lengths.flatMap Length.chars =
        l.gap.chars ++ '[' :: (l.content ++ ']' :: lengths.flatMap Length.chars) := by
      simp [hlengths, Length.chars]
    have hbracket : ∀ rest, splitStar ('[' :: rest) =
        (splitStar rest).map fun q => ('[' :: q.1, q.2) := fun rest => by
      rw [splitStar]
      rintro _ ⟨⟩
    rw [htext, ← List.append_assoc, hfront.append l.gap.unstarred, hbracket, Option.map_map] at h
    obtain ⟨q, -, hq⟩ := Option.map_eq_some_iff.mp h
    cases hq
    exact List.mem_append_right _ List.mem_cons_self

theorem chars_ne_void : p.chars ≠ "void".toList := by
  intro h
  have hwords : p.words = ["void"] := by
    have hend : EndsWord [] := nofun
    have hvoid := voidWord.wordsAt_chars hend 0
    rw [List.append_nil, wordsAt] at hvoid
    rw [← p.names_wordsAt 0, h]
    exact congrArg (List.map (·.1)) hvoid
  obtain ⟨hfirst, hmore⟩ := List.cons.inj hwords
  have hchar : ∀ c ∈ p.marks, c ∈ "void".toList := fun c hc => h ▸ List.mem_append_right _ hc
  refine p.complete (List.map_eq_nil_iff.mp hmore) ?_ ?_ hfirst
  · by_contra hstars
    obtain ⟨g, stars, hg⟩ := List.exists_cons_of_ne_nil hstars
    exact absurd (hchar '*' (by simp [marks, hg])) (by decide)
  · by_contra hlengths
    obtain ⟨l, lengths, hl⟩ := List.exists_cons_of_ne_nil hlengths
    exact absurd (hchar '[' (by simp [marks, hl, Length.chars])) (by decide)

theorem name_ne_empty {name : String × Nat} {offset : Nat}
    (h : declaredName p.chars (wordsAt offset p.chars) = some name) : name.1 ≠ "" := by
  have hword : name.1 ∈ p.words := by
    rw [← p.names_wordsAt offset]
    exact List.mem_map_of_mem (ParamText.declaredName_mem h)
  rcases List.mem_cons.mp hword with hfirst | hmore
  · exact hfirst ▸ p.first.text_ne_empty
  · obtain ⟨w, -, hw⟩ := List.mem_map.mp hmore
    exact hw ▸ w.word.text_ne_empty

/-- An entry for the parameter, and how much of it is the text of its type. -/
structure ReadAs (start : Nat) (e : ParamText) : Prop where
  start_eq : e.start = start
  not_whole : e.name ≠ "" → ¬p.Whole
  type : e.name = "" → ∃ type, type <+: p.chars ∧ e.nameOffset = start + byteLength type ∧
    trim type ≠ "void".toList ∧ (type = p.chars ↔ p.Whole)

theorem readAs_plain (h : splitStar p.chars = none) (start : Nat) :
    p.ReadAs start (plain start p.chars) := by
  have hwhole : p.Whole ↔ declaredName p.chars (wordsAt start p.chars) = none := by
    rw [p.declaredName_eq_none_iff, Whole, ← splitStar_eq_none_iff]
    exact and_iff_right h
  cases hname : declaredName p.chars (wordsAt start p.chars) with
  | some name =>
    have hplain : plain start p.chars = ⟨name.1, start, name.2, none⟩ := by rw [plain, hname]
    rw [hplain]
    refine ⟨rfl, fun _ => ?_, fun hempty => absurd hempty (p.name_ne_empty hname)⟩
    rw [hwhole, hname]
    exact Option.some_ne_none name
  | none =>
    have hplain : plain start p.chars = ⟨"", start, start + byteLength p.chars, none⟩ := by
      rw [plain, hname]
    rw [hplain]
    refine ⟨rfl, fun hne => absurd rfl hne, fun _ => ⟨p.chars, List.prefix_refl _, rfl, ?_, ?_⟩⟩
    · obtain ⟨c, cs, hchars, hc⟩ := p.exists_start
      have hsolid := p.endsSolid
      have hvoid := p.chars_ne_void
      rw [hchars] at hsolid hvoid ⊢
      rwa [trim_solid (not_isBlank_of_isWordStart hc) hsolid]
    · exact iff_of_true rfl (hwhole.mpr hname)

theorem readAs_starred {head behind : List Char} {e : ParamText} {start : Nat}
    (h : splitStar p.chars = some (head, behind)) (hstart : e.start = start)
    (htype : e.name = "" → e.nameOffset = start + byteLength head) : p.ReadAs start e := by
  have hwhole : ¬p.Whole := by
    rintro ⟨hstar, -⟩
    cases h.symm.trans (splitStar_eq_none_iff.mpr hstar)
  refine ⟨hstart, fun _ => hwhole, fun hempty =>
    ⟨head, ParamText.splitStar_initial h, htype hempty, ?_, ?_⟩⟩
  · intro hvoid
    have hmem := mem_trim (p.bracket_mem h) (by decide)
    rw [hvoid] at hmem
    exact absurd hmem (by decide)
  · refine iff_of_false (fun he => ?_) hwhole
    have hlength := congrArg List.length (he.trans (splitStar_eq_some h))
    simp at hlength

/-- A parameter is read where it stands alone between two commas. -/
theorem piece_eq (g g' : Gap) (offset : Nat) :
    ∃ e, piece offset (g.chars ++ p.chars ++ g'.chars) = some e ∧
      p.ReadAs (offset + byteLength g.chars) e := by
  obtain ⟨c, cs, hchars, hc⟩ := p.exists_start
  have hsolid := p.endsSolid
  cases hsplit : splitStar p.chars with
  | none =>
    refine ⟨_, ?_, p.readAs_plain hsplit _⟩
    rw [hchars] at hsolid hsplit ⊢
    exact piece_plain g g' hc hsolid hsplit offset
  | some q =>
    obtain ⟨hstart, hbody⟩ := trim_gaps g g' (not_isBlank_of_isWordStart hc) (hchars ▸ hsolid)
    rw [← hchars] at hstart hbody
    have hbefore : before (g.chars ++ p.chars ++ g'.chars) (p.chars ++ g'.chars) = g.chars := by
      rw [List.append_assoc, before_left]
    have hfull : ¬(p.chars.isEmpty || p.chars == ['.', '.', '.']) := by
      have hdot : c ≠ '.' := by
        rintro rfl
        cases hc
      simp [hchars, hdot]
    rw [piece, hbody, hstart, hbefore, if_neg hfull]
    split
    next hnone => cases hnone.symm.trans hsplit
    next hsome =>
      cases Option.some.inj (hsome.symm.trans hsplit)
      dsimp only
      split
      next => exact ⟨_, rfl, p.readAs_starred hsplit rfl fun _ => rfl⟩
      next hname =>
        refine ⟨_, rfl, p.readAs_starred hsplit rfl fun hempty => ?_⟩
        exact absurd hempty (by simpa using hname)

/-- The list of a single parameter is not taken for an empty one. -/
theorem ReadAs.isVoidList_eq {start base : Nat} {text : List Char} {e : ParamText}
    {p : Unnamed} (h : p.ReadAs start e) (hspan : Span base text start p.chars) :
    isVoidList base text [e] = false := by
  by_contra hvoid
  simp only [isVoidList, Bool.not_eq_false, Bool.and_eq_true, String.isEmpty_iff, beq_iff_eq] at hvoid
  obtain ⟨type, htype, hoffset, hne, -⟩ := h.type hvoid.1
  obtain ⟨name, start', nameOffset, nested⟩ := e
  obtain rfl : start' = start := h.start_eq
  obtain rfl : nameOffset = start' + byteLength type := hoffset
  rw [typeText_span (hspan.initial htype)] at hvoid
  exact hne hvoid.2

/-- The text of the type is the whole parameter only where no name and no star behind a parenthesis
is found in it. -/
theorem ReadAs.slice_iff {start : Nat} {text : List Char} {e : ParamText} {p : Unnamed}
    (h : p.ReadAs start e) (hspan : Span 0 text start p.chars) :
    e.name = "" ∧ slice? e.start e.nameOffset text = some p.chars ↔ p.Whole := by
  constructor
  · rintro ⟨hempty, hslice⟩
    obtain ⟨type, htype, hoffset, -, hwhole⟩ := h.type hempty
    have hcut : slice? e.start e.nameOffset text = some type := by
      rw [hoffset, h.start_eq]
      exact (hspan.initial htype).slice
    exact hwhole.mp (Option.some.inj (hcut.symm.trans hslice))
  · intro hwhole
    have hempty : e.name = "" := by
      by_contra hname
      exact h.not_whole hname hwhole
    obtain ⟨type, -, hoffset, -, htype⟩ := h.type hempty
    refine ⟨hempty, ?_⟩
    rw [hoffset, h.start_eq, htype.mpr hwhole]
    exact hspan.slice

end Unnamed

/-- A text between two commas of a list. -/
structure Part where
  chars : List Char
  paired : Paired false chars

section

variable {cs : List Char}

theorem listed_before (parts : List Part) (rest : List Char) (offset : Nat) :
    let front := parts.flatMap fun q => q.chars ++ [',']
    ∃ es, listed offset (front ++ rest) = es ++ listed (offset + byteLength front) rest := by
  induction parts generalizing offset with
  | nil => exact ⟨[], rfl⟩
  | cons q parts ih =>
    obtain ⟨es, hes⟩ := ih (offset + byteLength q.chars + 1)
    refine ⟨(piece offset q.chars).toList ++ es, ?_⟩
    have hone : ','.utf8Size = 1 := by decide
    let front := parts.flatMap fun q => q.chars ++ [',']
    have hcomma : listed offset (q.chars ++ ',' :: (front ++ rest)) = (piece offset q.chars).toList ++
        listed (offset + byteLength q.chars + 1) (front ++ rest) := listed_comma q.paired.passes
    rw [hes] at hcomma
    simpa [front, byteLength_append, byteLength, hone, Nat.add_assoc] using hcomma

theorem listed_behind (h : Passes 0 cs) (parts : List Part) (offset : Nat) :
    ∃ es, listed offset (cs ++ parts.flatMap fun q => ',' :: q.chars) =
      (piece offset cs).toList ++ es := by
  cases parts with
  | nil =>
    refine ⟨[], ?_⟩
    rw [List.flatMap_nil, List.append_nil, List.append_nil, listed_last h]
  | cons q parts =>
    let rest := q.chars ++ parts.flatMap fun q => ',' :: q.chars
    refine ⟨listed (offset + byteLength cs + 1) rest, ?_⟩
    rw [List.flatMap_cons, List.cons_append, listed_comma h]

end

theorem Part.passes_before (parts : List Part) :
    Passes 1 (parts.flatMap fun q => q.chars ++ [',']) :=
  .flatMap fun q _ => q.paired.passes.nested.append .comma

theorem Part.passes_behind (parts : List Part) :
    Passes 1 (parts.flatMap fun q => ',' :: q.chars) :=
  .flatMap fun q _ => Passes.append .comma q.paired.passes.nested

/-- A parameter without a name may stand anywhere in a list. The entry for it has no name and the
text of its type is the whole parameter exactly where the last of its words cannot be taken for a name,
or it ends in a star, and no array length holds a star behind a parenthesis. -/
theorem unnamed_read_iff (front back : String) (lead : { cs : List Char // Lead cs })
    (before behind : List Part) (g g' : Gap) (p : Unnamed) :
    let upTo := front.toList ++
      (lead.val ++ '(' :: ((before.flatMap fun q => q.chars ++ [',']) ++ g.chars))
    let rest := g'.chars ++ ((behind.flatMap fun q => ',' :: q.chars) ++ ')' :: back.toList)
    let text := String.ofList (upTo ++ (p.chars ++ rest))
    ∃ es e es', recover text (byteLength front.toList) = .ok (some (es ++ e :: es')) ∧
      e.start = byteLength upTo ∧
      (e.name = "" ∧ slice? e.start e.nameOffset text.toList = some p.chars ↔ p.Whole) := by
  intro upTo rest text
  let parts := before.flatMap fun q => q.chars ++ [',']
  let more := behind.flatMap fun q => ',' :: q.chars
  let inside := parts ++ (g.chars ++ p.chars ++ g'.chars ++ more)
  let base := byteLength front.toList + byteLength lead.val + 1
  have hone : '('.utf8Size = 1 := by decide
  have hsingle : Passes 0 (g.chars ++ p.chars ++ g'.chars) :=
    (g.passes.append p.passes).append g'.passes
  have hpasses : Passes 1 inside :=
    (Part.passes_before before).append (hsingle.nested.append (Part.passes_behind behind))
  have htext : text.toList =
      front.toList ++ (lead.val ++ '(' :: (inside ++ ')' :: back.toList)) := by
    simp [text, upTo, rest, inside, parts, more]
  obtain ⟨es, hes⟩ := listed_before before (g.chars ++ p.chars ++ g'.chars ++ more) base
  obtain ⟨es', hes'⟩ := listed_behind hsingle behind (base + byteLength parts)
  obtain ⟨e, he, hread⟩ := p.piece_eq g g' (base + byteLength parts)
  have hlisted : listed base inside = es ++ e :: es' := by
    rw [hes, hes', he]
    rfl
  have hinside : Span base inside (base + byteLength parts + byteLength g.chars) p.chars := by
    refine ⟨parts ++ g.chars, g'.chars ++ more, by simp [inside], ?_⟩
    rw [byteLength_append, Nat.add_assoc]
  have hupTo : base + byteLength parts + byteLength g.chars = byteLength upTo := by
    simp only [base, upTo, parts, byteLength_append, byteLength, hone]
    omega
  have hwhole : Span 0 text.toList (byteLength upTo) p.chars :=
    ⟨upTo, rest, by simp [text], (Nat.zero_add _).symm⟩
  have hvoid : isVoidList base inside (es ++ e :: es') = false := by
    rcases es with _ | ⟨e₁, es⟩
    · rcases es' with _ | ⟨e₂, es'⟩
      · exact hread.isVoidList_eq hinside
      · rfl
    · cases es <;> rfl
  refine ⟨es, e, es', ?_, hread.start_eq.trans hupTo, (hupTo ▸ hread).slice_iff hwhole⟩
  rw [recover, htext, dropBytes?_append]
  dsimp only
  rw [recoverFrom_lead lead.property hpasses, hlisted, hvoid]
  rfl

/-- The parameter `const Buffer`. -/
def constBuffer : Unnamed where
  first := ⟨"const", rfl⟩
  more := [⟨space, ⟨"Buffer", rfl⟩, by decide⟩]
  front := ["const"]
  specifier := .named "Buffer" (by decide)
  behind := []
  stars := []
  lengths := []
  qualified := by decide
  spelled := rfl
  complete := nofun

/-- The name of a type is read as that of a parameter. -/
theorem const_type_named :
    recover ("void (*f)(" ++ String.ofList constBuffer.chars ++ ");") 8 =
      .ok (some [⟨"Buffer", 10, 16, none⟩]) := by
  let buffer : NamedParam :=
    { type := ⟨⟨"const", rfl⟩, [], none, []⟩
      gap := space
      name := ⟨"Buffer", rfl⟩
      bounds := []
      complete := by decide
      free := by decide
      apart := by decide }
  let list := ParamList.some (.last noGap (.named buffer) noGap)
  have htext : ("void (*f)(" ++ String.ofList constBuffer.chars ++ ");").toList =
      "void (*f".toList ++ (')' :: '(' :: list.chars ++ ')' :: [';']) := by
    decide
  have hoffset : byteLength "void (*f".toList = 8 := by decide
  have htype : byteLength buffer.typeChars = 6 := by decide
  have hentries : list.entries (8 + 2) = [⟨"Buffer", 10, 10 + byteLength buffer.typeChars, none⟩] :=
    rfl
  have hdrop := dropBytes?_append "void (*f".toList (')' :: '(' :: list.chars ++ ')' :: [';'])
  rw [hoffset, ← htext] at hdrop
  rw [recover, hdrop]
  dsimp only
  rw [list.recoverFrom_eq, hentries, htype]

end Written

end Bindery
