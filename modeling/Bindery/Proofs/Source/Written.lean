import Bindery.Proofs.Source.Paired

/-! Lists of parameters as they are written. -/

namespace Bindery

namespace Written

open ParamText (noted typeKeywords isPlain Passes Unstarred Wordless isPlain_of_isBlank
  isPlain_of_isWordChar)
open QualType (isWordStart isWordChar EndsWord)

structure Gap where
  chars : List Char
  blank : ∀ c ∈ chars, isBlank c

structure Word where
  text : String
  identifier : isIdentifier text

/-- What an annotation says. Neither the end of a comment nor the start of the name of a pointer to a
function is in it. -/
structure Note where
  content : List Char
  unclosed : ¬['*', '/'] <:+: content
  unstarred : ¬['(', '*'] <:+: content

structure SpacedWord where
  gap : Gap
  word : Word
  apart : gap.chars ≠ []

/-- The words of a type, then an annotation, then stars, with blanks between them. -/
structure TypeText where
  first : Word
  more : List SpacedWord
  note : Option (Gap × Note)
  stars : List Gap

/-- An array length, which may be left out. -/
structure Bounds where
  gap : Gap
  digits : List Char
  numeric : ∀ c ∈ digits, c.isDigit

def Word.chars (w : Word) : List Char :=
  w.text.toList

def Bounds.chars (b : Bounds) : List Char :=
  b.gap.chars ++ ('[' :: b.digits ++ [']'])

namespace TypeText

def lastWord (t : TypeText) : Word :=
  t.more.foldl (fun _ w => w.word) t.first

def wordChars (t : TypeText) : List Char :=
  t.first.chars ++ t.more.flatMap fun w => w.gap.chars ++ w.word.chars

/-- What stands behind the words. -/
def marks (t : TypeText) : List Char :=
  t.note.toList.flatMap (fun n => n.1.chars ++ noted n.2.content) ++
    t.stars.flatMap fun g => g.chars ++ ['*']

def chars (t : TypeText) : List Char :=
  t.wordChars ++ t.marks

end TypeText

/-- A parameter with a name. Its type is more than a keyword that a tag follows, the name is no
keyword of a type, and something stands between the two. -/
structure NamedParam where
  type : TypeText
  gap : Gap
  name : Word
  bounds : List Bounds
  complete : type.lastWord.text ∉ ["struct", "union", "enum"]
  free : name.text ∉ typeKeywords
  apart : type.marks ++ gap.chars ≠ []

namespace NamedParam

def typeChars (p : NamedParam) : List Char :=
  p.type.chars ++ p.gap.chars

def boundsChars (p : NamedParam) : List Char :=
  p.bounds.flatMap Bounds.chars

def chars (p : NamedParam) : List Char :=
  p.typeChars ++ (p.name.chars ++ p.boundsChars)

end NamedParam

mutual

/-- A parameter: one with a name, a pointer without a name, or a pointer to a function. -/
inductive Param where
  | named (p : NamedParam)
  | pointer (type : TypeText) (starred : type.stars ≠ [])
  | callback (result : TypeText) (gap : Gap) (name : Word) (list : ParamList)

/-- One parameter or more, with blanks before and behind each, and perhaps an ellipsis behind the last
one. -/
inductive Params where
  | last (before : Gap) (p : Param) (after : Gap)
  | variadic (before : Gap) (p : Param) (after front back : Gap)
  | cons (before : Gap) (p : Param) (after : Gap) (rest : Params)

inductive ParamList where
  | empty (gap : Gap)
  | void (before after : Gap)
  | ellipsis (before after : Gap)
  | some (params : Params)

end

/-- The type of a pointer to a function up to the name. -/
def resultChars (result : TypeText) (gap : Gap) : List Char :=
  result.chars ++ gap.chars ++ ['(', '*']

mutual

def Param.chars : Param → List Char
  | .named p => p.chars
  | .pointer type _ => type.chars
  | .callback result gap name list =>
    resultChars result gap ++ (name.chars ++ (')' :: '(' :: list.chars ++ [')']))

def Params.chars : Params → List Char
  | .last before p after => before.chars ++ p.chars ++ after.chars
  | .variadic before p after front back =>
    before.chars ++ p.chars ++ after.chars ++ ',' :: (front.chars ++ ['.', '.', '.'] ++ back.chars)
  | .cons before p after rest => before.chars ++ p.chars ++ after.chars ++ ',' :: rest.chars

def ParamList.chars : ParamList → List Char
  | .empty gap => gap.chars
  | .void before after => before.chars ++ "void".toList ++ after.chars
  | .ellipsis before after => before.chars ++ ['.', '.', '.'] ++ after.chars
  | .some params => params.chars

end

mutual

/-- An entry for a parameter gives its name, the text of its type up to the name, and the entries for
its own list. -/
def Param.ReadAs (text : List Char) : Param → ParamText → Prop
  | .named p, e => e.name = p.name.text ∧
    slice? e.start e.nameOffset text = Option.some p.typeChars ∧ e.nested = none
  | .pointer type _, e => e.name = "" ∧
    slice? e.start e.nameOffset text = Option.some type.chars ∧ e.nested = none
  | .callback result gap name list, e => e.name = name.text ∧
    slice? e.start e.nameOffset text = Option.some (resultChars result gap) ∧
    ∃ es, e.nested = Option.some es ∧ list.ReadAs text es

def Params.ReadAs (text : List Char) : Params → List ParamText → Prop
  | .last _ p _, es => ∃ e, es = [e] ∧ p.ReadAs text e
  | .variadic _ p _ _ _, es => ∃ e, es = [e] ∧ p.ReadAs text e
  | .cons _ p _ rest, es => ∃ e es', es = e :: es' ∧ p.ReadAs text e ∧ rest.ReadAs text es'

def ParamList.ReadAs (text : List Char) : ParamList → List ParamText → Prop
  | .empty _, es => es = []
  | .void _ _, es => es = []
  | .ellipsis _ _, es => es = []
  | .some params, es => params.ReadAs text es

end

theorem Word.isWordChar_chars (w : Word) : ∀ c ∈ w.chars, isWordChar c := by
  obtain ⟨c, cs, hchars, hc, hcs⟩ := isIdentifier_iff.mp w.identifier
  rw [chars, hchars]
  exact List.forall_mem_cons.mpr ⟨QualType.isWordChar_of_isWordStart hc, hcs⟩

theorem Word.exists_start (w : Word) : ∃ c cs, w.chars = c :: cs ∧ isWordStart c := by
  obtain ⟨c, cs, hchars, hc, -⟩ := isIdentifier_iff.mp w.identifier
  exact ⟨c, cs, hchars, hc⟩

theorem Word.text_ne_empty (w : Word) : w.text ≠ "" :=
  ne_empty_of_isIdentifier w.identifier

section

variable {cs cs' : List Char}

theorem endsWord_append (h : EndsWord cs) (h' : cs = [] → EndsWord cs') : EndsWord (cs ++ cs') := by
  cases cs with
  | nil => exact h' rfl
  | cons c cs => exact h

theorem endsWord_flatMap {α : Type} {f : α → List Char} {xs : List α}
    (h : ∀ x ∈ xs, EndsWord (f x)) : EndsWord (xs.flatMap f) := by
  induction xs with
  | nil => exact nofun
  | cons x xs ih =>
    obtain ⟨hx, hxs⟩ := List.forall_mem_cons.mp h
    exact endsWord_append hx fun _ => ih hxs

/-- No blank is at the end of the text. -/
def EndsSolid (cs : List Char) : Prop :=
  ∀ c ∈ cs.getLast?, isBlank c = false

theorem EndsSolid.append (h : EndsSolid cs) (h' : EndsSolid cs') : EndsSolid (cs ++ cs') := by
  intro c hc
  rw [List.getLast?_append, Option.mem_def, Option.or_eq_some_iff] at hc
  rcases hc with hc | ⟨-, hc⟩
  · exact h' c hc
  · exact h c hc

/-- Only what stands at the end counts. -/
theorem EndsSolid.behind (front : List Char) (h : EndsSolid cs) (hcs : cs ≠ []) :
    EndsSolid (front ++ cs) := by
  intro c hc
  rw [List.getLast?_append, Option.mem_def, Option.or_eq_some_iff] at hc
  rcases hc with hc | ⟨hnone, -⟩
  · exact h c hc
  · exact absurd (List.getLast?_eq_none_iff.mp hnone) hcs

theorem endsSolid_flatMap {α : Type} {f : α → List Char} {xs : List α}
    (h : ∀ x ∈ xs, EndsSolid (f x)) : EndsSolid (xs.flatMap f) := by
  induction xs with
  | nil => exact nofun
  | cons x xs ih =>
    obtain ⟨hx, hxs⟩ := List.forall_mem_cons.mp h
    exact hx.append (ih hxs)

theorem endsSolid_of_last (front : List Char) {c : Char} (h : isBlank c = false) :
    EndsSolid (front ++ [c]) := by
  intro d hd
  rw [List.getLast?_concat] at hd
  cases hd
  exact h

theorem endsSolid_word (w : Word) : EndsSolid w.chars := by
  intro c hc
  have hword := w.isWordChar_chars c (List.mem_of_mem_getLast? hc)
  apply (Bool.not_eq_true _).mp
  intro hblank
  rw [QualType.not_isWordChar_of_isBlank hblank] at hword
  cases hword

end

namespace Gap

variable (g : Gap)

theorem isPlain_chars : ∀ c ∈ g.chars, isPlain c :=
  fun c hc => isPlain_of_isBlank (g.blank c hc)

theorem endsWord : EndsWord g.chars :=
  fun c hc => QualType.not_isWordChar_of_isBlank (g.blank c (List.mem_of_mem_head? hc))

theorem passes : Passes 0 g.chars :=
  .plain g.isPlain_chars

theorem unstarred : Unstarred g.chars :=
  .plain g.isPlain_chars

theorem wordless : Wordless g.chars := by
  refine .plain fun c hc => ⟨g.isPlain_chars c hc, ?_⟩
  have hblank := QualType.not_isWordChar_of_isBlank (g.blank c hc)
  apply (Bool.not_eq_true _).mp
  intro hstart
  rw [QualType.isWordChar_of_isWordStart hstart] at hblank
  cases hblank

end Gap

theorem Word.passes (w : Word) : Passes 0 w.chars :=
  .plain fun c hc => isPlain_of_isWordChar (w.isWordChar_chars c hc)

theorem Word.unstarred (w : Word) : Unstarred w.chars :=
  .plain fun c hc => isPlain_of_isWordChar (w.isWordChar_chars c hc)

namespace Bounds

variable (b : Bounds)

theorem isPlain_digits : ∀ c ∈ b.digits, isPlain c :=
  fun c hc => isPlain_of_isWordChar (QualType.isWordChar_of_isDigit (b.numeric c hc))

theorem passes : Passes 0 b.chars :=
  b.gap.passes.append (.group (.inr ⟨rfl, rfl⟩) (Passes.plain b.isPlain_digits).nested)

theorem unstarred : Unstarred b.chars := by
  have hopening : Unstarred ['['] := .closed (by decide)
  have hclosing : Unstarred [']'] := .closed (by decide)
  exact b.gap.unstarred.append ((hopening.append (.plain b.isPlain_digits)).append hclosing)

theorem wordless : Wordless b.chars :=
  b.gap.wordless.append (.brackets b.isPlain_digits)

theorem endsWord : EndsWord b.chars := by
  refine endsWord_append b.gap.endsWord fun _ c hc => ?_
  cases hc
  rfl

theorem endsSolid : EndsSolid b.chars := by
  have hlast := endsSolid_of_last (b.gap.chars ++ '[' :: b.digits) (c := ']') rfl
  simpa [chars] using hlast

theorem no_star : '*' ∉ b.chars := by
  intro hstar
  simp only [chars, List.mem_append, List.mem_cons, List.not_mem_nil, or_false] at hstar
  rcases hstar with hgap | (hopening | hdigits) | hclosing
  · exact absurd (b.gap.blank _ hgap) (by decide)
  · cases hopening
  · exact absurd (b.numeric _ hdigits) (by decide)
  · cases hclosing

end Bounds

theorem passes_star : Passes 0 ['*'] :=
  .plain (List.forall_mem_singleton.mpr rfl)

theorem passes_dots : Passes 0 ['.', '.', '.'] :=
  .plain (List.all_eq_true.mp rfl)

def voidWord : Word :=
  ⟨"void", rfl⟩

namespace TypeText

variable (t : TypeText)

theorem passes : Passes 0 t.chars := by
  refine .append (t.first.passes.append (.flatMap fun w _ => ?_))
    (.append (.flatMap fun n _ => ?_) (.flatMap fun g _ => ?_))
  · exact w.gap.passes.append w.word.passes
  · exact n.1.passes.append (.noted n.2.unclosed)
  · exact g.passes.append passes_star

theorem unstarred : Unstarred t.chars := by
  have hstar : Unstarred ['*'] := .closed (by decide)
  refine .append (t.first.unstarred.append (.flatMap fun w _ => ?_))
    (.append (.flatMap fun n _ => ?_) (.flatMap fun g _ => ?_))
  · exact w.gap.unstarred.append w.word.unstarred
  · exact n.1.unstarred.append (.noted n.2.unstarred)
  · exact g.unstarred.append hstar

theorem wordless_marks : Wordless t.marks := by
  have hstar : Wordless ['*'] := .plain (List.forall_mem_singleton.mpr ⟨rfl, rfl⟩)
  refine .append (.flatMap fun n _ => ?_) (.flatMap fun g _ => ?_)
  · exact n.1.wordless.append (.noted n.2.unclosed)
  · exact g.wordless.append hstar

theorem endsWord_marks : EndsWord t.marks := by
  have hnote : EndsWord (t.note.toList.flatMap fun n => n.1.chars ++ noted n.2.content) :=
    endsWord_flatMap fun n _ => endsWord_append n.1.endsWord fun _ c hc => by
      cases hc
      rfl
  have hstars : EndsWord (t.stars.flatMap fun g => g.chars ++ ['*']) :=
    endsWord_flatMap fun g _ => endsWord_append g.endsWord fun _ c hc => by
      cases hc
      rfl
  exact endsWord_append hnote fun _ => hstars

theorem exists_start : ∃ c cs, t.chars = c :: cs ∧ isWordStart c := by
  obtain ⟨c, cs, hchars, hc⟩ := t.first.exists_start
  exact ⟨c, _, by rw [chars, wordChars, hchars]; rfl, hc⟩

theorem ends_starred (h : t.stars ≠ []) : ∃ front, t.chars = front ++ ['*'] := by
  obtain ⟨stars, g, hstars⟩ := t.stars.eq_nil_or_concat.resolve_left h
  rw [chars, marks, hstars, List.concat_eq_append, List.flatMap_append, List.flatMap_singleton]
  exact ⟨_, by rw [← List.append_assoc, ← List.append_assoc, ← List.append_assoc]⟩

theorem endsSolid_starred (h : t.stars ≠ []) : EndsSolid t.chars := by
  obtain ⟨front, hfront⟩ := t.ends_starred h
  rw [hfront]
  exact endsSolid_of_last front rfl

end TypeText

namespace NamedParam

variable (p : NamedParam)

theorem passes : Passes 0 p.chars :=
  .append (p.type.passes.append p.gap.passes)
    (p.name.passes.append (.flatMap fun b _ => b.passes))

theorem endsSolid : EndsSolid p.chars := by
  have hend : EndsSolid (p.name.chars ++ p.boundsChars) :=
    (endsSolid_word p.name).append (endsSolid_flatMap fun b _ => b.endsSolid)
  have hne : p.name.chars ++ p.boundsChars ≠ [] := by
    obtain ⟨c, cs, hchars, -⟩ := p.name.exists_start
    simp [hchars]
  exact hend.behind p.typeChars hne

theorem exists_start : ∃ c cs, p.chars = c :: cs ∧ isWordStart c := by
  obtain ⟨c, cs, hchars, hc⟩ := p.type.exists_start
  exact ⟨c, _, by rw [chars, typeChars, hchars]; rfl, hc⟩

theorem unstarred : Unstarred p.chars :=
  .append (p.type.unstarred.append p.gap.unstarred)
    (p.name.unstarred.append (.flatMap fun b _ => b.unstarred))

end NamedParam

mutual

theorem Param.passes (p : Param) : Passes 0 p.chars := by
  cases p with
  | named p => exact p.passes
  | pointer type starred => exact type.passes
  | callback result gap name list =>
    have hname : Passes 0 ('(' :: ('*' :: name.chars) ++ [')']) :=
      .group (.inl ⟨rfl, rfl⟩) (passes_star.append name.passes).nested
    have hlist : Passes 0 ('(' :: list.chars ++ [')']) :=
      .group (.inl ⟨rfl, rfl⟩) list.passes
    have hparts := (result.passes.append gap.passes).append (hname.append hlist)
    simpa [Param.chars, resultChars] using hparts

theorem Params.passes (ps : Params) : Passes 1 ps.chars := by
  cases ps with
  | last before p after =>
    have hfirst := (before.passes.append p.passes).append after.passes
    exact hfirst.nested
  | variadic before p after front back =>
    have hfirst := (before.passes.append p.passes).append after.passes
    have hlast := (front.passes.append passes_dots).append back.passes
    exact hfirst.nested.append (.append .comma hlast.nested)
  | cons before p after rest =>
    have hfirst := (before.passes.append p.passes).append after.passes
    exact hfirst.nested.append (.append .comma rest.passes)

theorem ParamList.passes (list : ParamList) : Passes 1 list.chars := by
  cases list with
  | empty gap => exact gap.passes.nested
  | void before after =>
    have hvoid : Passes 0 "void".toList := voidWord.passes
    exact ((before.passes.append hvoid).append after.passes).nested
  | ellipsis before after => exact ((before.passes.append passes_dots).append after.passes).nested
  | some params => exact params.passes

end

end Written

end Bindery
