import Bindery.Proofs.Source.Values

/-! The constant that a line defines, as the scan of a whole text reports it. -/

namespace Bindery

open Lexical
open ParamText (span_append)

namespace Definition

variable {cs front back rest before after line plain : List Char} {b c quote : Char} {d : Definition}
  {offset : Nat}

/-- Blanks and complete comments within a line. -/
inductive Spacing : List Char → Prop
  | nil : Spacing []
  | margin {c : Char} {cs : List Char} (blank : isMargin c = true) (more : Spacing cs) :
      Spacing (c :: cs)
  | comment {cs : List Char} (content : List Char) (unclosed : ¬['*', '/'] <:+: content)
      (more : Spacing cs) : Spacing ('/' :: '*' :: (content ++ '*' :: '/' :: cs))

/-- A line in parts: what stands around the hash sign and the word `define`, the name, the replacement
list and the carriage returns at the end. -/
structure ConstantLine where
  margin : List Char
  gap : List Char
  blanks : List Char
  name : List Char
  replacement : List Char
  ending : List Char

namespace ConstantLine

def text (l : ConstantLine) : List Char :=
  l.margin ++ '#' :: (l.gap ++ ("define".toList ++
    (l.blanks ++ (l.name ++ (l.replacement ++ l.ending)))))

/-- The line defines a constant, and `plain` is its replacement list without comments. The line does
not go on behind its end. -/
structure Defines (l : ConstantLine) (plain : List Char) : Prop where
  margin : Spacing l.margin
  gap : Spacing l.gap
  blanks : Spacing l.blanks
  blanks_ne : l.blanks ≠ []
  name : ∀ c ∈ l.name, isWordCharacter c
  name_ne : l.name ≠ []
  separate : l.replacement.head?.all isMargin ∨ opensComment l.replacement
  replaced : Uncommented l.replacement plain
  ending : ∀ c ∈ l.ending, c = '\r'
  returnless : l.replacement.getLast? ≠ some '\r'
  single : '\n' ∉ l.text
  last : (trimEnd l.replacement).getLast? ≠ some '\\'

/-- The value that the scan reports for the line in a text, found by the place of the hash sign. -/
def reported (l : ConstantLine) (before after : List Char) : Option String :=
  ((scan (String.ofList (before ++ l.text ++ after))).find?
    (·.start == byteLength (before ++ l.margin))).map (·.value)

end ConstantLine

/-- A value holds no comment and has the tokens of `plain`. Where there is no value there are no
tokens. -/
def KeepsTokens (value? : Option String) (plain : List Char) : Prop :=
  (∀ v ∈ value?, Plain v.toList) ∧ (value?.map (tokens ·.toList)).getD [] = tokens plain

theorem keepsTokens_none_iff : KeepsTokens none plain ↔ ∀ c ∈ plain, isBlank c := by
  rw [← tokens_eq_nil_iff]
  exact ⟨fun h => h.2.symm, fun h => ⟨nofun, h.symm⟩⟩

theorem isBlank_of_isMargin (h : isMargin c) : isBlank c := by
  rcases (Bool.or_eq_true _ _).mp h with hspace | htab
  · rw [beq_iff_eq.mp hspace]
    rfl
  · rw [beq_iff_eq.mp htab]
    rfl

theorem trim_blanks_append (h : ∀ c ∈ front, isBlank c) (cs : List Char) :
    trim (front ++ cs) = trim cs := by
  have hstart : trimStart (front ++ cs) = trimStart cs := by
    rw [trimStart, List.dropWhile_append_of_pos h]
    rfl
  rw [trim, hstart]
  rfl

theorem getLast?_trimEnd_of_suffix (h : back <:+ cs) (hc : (trimEnd back).getLast? = some c) :
    (trimEnd cs).getLast? = some c := by
  obtain ⟨front, rfl⟩ := h
  rw [trimEnd, List.getLast?_reverse] at hc
  have hkept : back.reverse.dropWhile isBlank = [] → ∀ d ∈ front.reverse.head?, isBlank d = false := by
    intro hnone
    rw [hnone] at hc
    cases hc
  rw [trimEnd, List.getLast?_reverse, List.reverse_append, (span_append hkept).2, List.head?_append, hc]
  rfl

theorem valueOf_eq (hreturn : cs.getLast? ≠ some '\r') (hlast : (trimEnd cs).getLast? ≠ some '\\')
    (hback : ∀ c ∈ back, c = '\r') : valueOf (cs ++ back) =
      if (trim (beforeComment false false cs)).isEmpty then none
      else some (String.ofList (trim (beforeComment false false cs))) := by
  have hkept : ((cs ++ back).reverse.dropWhile (· == '\r')).reverse = cs := by
    have hfront : ∀ c ∈ back.reverse, (c == '\r') = true := fun c hc =>
      beq_iff_eq.mpr (hback c (List.mem_reverse.mp hc))
    rw [List.reverse_append, List.dropWhile_append_of_pos hfront]
    have hstop : ∀ c ∈ cs.reverse.head?, (c == '\r') = false := by
      intro c hc
      rw [List.head?_reverse, Option.mem_def] at hc
      rw [hc] at hreturn
      simpa using hreturn
    rw [(ParamText.span_none hstop).2, List.reverse_reverse]
  rw [valueOf]
  simp only [hkept]
  rw [if_neg (by simpa using hlast)]

theorem keepsTokens_trim_iff : KeepsTokens
    (if (trim cs).isEmpty then none else some (String.ofList (trim cs))) plain ↔
      Plain (trim cs) ∧ tokens (trim cs) = tokens plain := by
  cases htrim : trim cs with
  | nil => exact and_congr_left' (iff_of_true nofun .nil)
  | cons c more =>
    rw [if_neg (by simp)]
    refine and_congr ?_ (by simp)
    simp

/-- Blanks in front of the replacement list are passed over. -/
theorem keepsTokens_valueOf_iff (h : Uncommented cs plain) (hreturn : cs.getLast? ≠ some '\r')
    (hlast : (trimEnd cs).getLast? ≠ some '\\') (hback : ∀ c ∈ back, c = '\r') :
    KeepsTokens (valueOf ((cs ++ back).dropWhile isMargin)) plain ↔
      ∃ tail, plain = beforeComment false false cs ++ tail ∧ ∀ c ∈ tail, isBlank c := by
  have hdrop : (cs ++ back).dropWhile isMargin = cs.dropWhile isMargin ++ back := by
    refine (span_append fun _ c hc => ?_).2
    rw [hback c (List.mem_of_mem_head? hc)]
    rfl
  have hcs := List.takeWhile_append_dropWhile (p := isMargin) (l := cs)
  have hblank : ∀ c ∈ cs.takeWhile isMargin, isBlank c := fun c hc =>
    isBlank_of_isMargin (List.all_eq_true.mp List.all_takeWhile c hc)
  have hsuffix := List.dropWhile_suffix isMargin (l := cs)
  have hreturn' : (cs.dropWhile isMargin).getLast? ≠ some '\r' := fun hc =>
    hreturn (getLast?_of_suffix hsuffix hc)
  have hlast' : (trimEnd (cs.dropWhile isMargin)).getLast? ≠ some '\\' := fun hc =>
    hlast (getLast?_trimEnd_of_suffix hsuffix hc)
  have htrim : trim (beforeComment false false cs) =
      trim (beforeComment false false (cs.dropWhile isMargin)) := by
    have hcut := beforeComment_blanks hblank (cs.dropWhile isMargin)
    rw [hcs] at hcut
    rw [hcut, trim_blanks_append hblank]
  rw [hdrop, valueOf_eq hreturn' hlast' hback, keepsTokens_trim_iff, ← htrim,
    tokens_beforeComment_iff h]

namespace Spacing

/-- Either there are blanks alone, or a slash is the first to be something else. -/
theorem span (h : Spacing cs) : (∀ c ∈ cs, isMargin c) ∨
    ∀ rest, ∃ more, (cs ++ rest).dropWhile isMargin = '/' :: more := by
  induction h with
  | nil => exact .inl (List.forall_mem_nil _)
  | margin blank more ih =>
    refine ih.imp (fun hall => List.forall_mem_cons.mpr ⟨blank, hall⟩) fun hdrop rest => ?_
    rw [List.cons_append, List.dropWhile_cons_of_pos blank]
    exact hdrop rest
  | comment content unclosed more ih => exact .inr fun rest => ⟨_, rfl⟩

end Spacing

theorem not_isMargin_of_isWordCharacter (h : isWordCharacter c) : isMargin c = false := by
  rw [← Bool.not_eq_true]
  intro hmargin
  rw [not_isWordCharacter_of_isBlank (isBlank_of_isMargin hmargin)] at h
  cases h

/-- A line is taken apart when nothing but blanks stands around the hash sign and the word `define`. -/
theorem ofLine_parts {margin gap blanks name : List Char} (hmargin : ∀ c ∈ margin, isMargin c)
    (hgap : ∀ c ∈ gap, isMargin c) (hblanks : ∀ c ∈ blanks, isMargin c) (hne : blanks ≠ [])
    (hname : ∀ c ∈ name, isWordCharacter c) (hname_ne : name ≠ [])
    (hrest : ∀ c ∈ rest.head?, isWordCharacter c = false) (offset : Nat) :
    ofLine offset (margin ++ '#' :: (gap ++ ("define".toList ++ (blanks ++ (name ++ rest))))) =
      if rest.head?.any isMargin then
        (valueOf (rest.dropWhile isMargin)).map fun value =>
          ⟨String.ofList name, value, offset + margin.length,
            offset + margin.length + 1 + gap.length + 6 + blanks.length⟩
      else none := by
  have hstart (x : List Char) : (margin ++ '#' :: x).takeWhile isMargin = margin ∧
      (margin ++ '#' :: x).dropWhile isMargin = '#' :: x :=
    QualType.span_eq hmargin (by rintro _ ⟨⟩; rfl)
  have hword (x : List Char) : (gap ++ ("define".toList ++ x)).takeWhile isMargin = gap ∧
      (gap ++ ("define".toList ++ x)).dropWhile isMargin = "define".toList ++ x :=
    QualType.span_eq hgap (by rintro _ ⟨⟩; rfl)
  have hnamed : ∀ c ∈ (name ++ rest).head?, isMargin c = false := by
    obtain ⟨w, more, rfl⟩ := List.exists_cons_of_ne_nil hname_ne
    rintro _ ⟨⟩
    exact not_isMargin_of_isWordCharacter (hname w List.mem_cons_self)
  obtain ⟨hspaced, hnames⟩ := QualType.span_eq hblanks hnamed
  obtain ⟨hname', hrest'⟩ := QualType.span_eq hname hrest
  have hdefine : "define".toList.isPrefixOf ("define".toList ++ (blanks ++ (name ++ rest))) = true :=
    List.isPrefixOf_iff_prefix.mpr (List.prefix_append _ _)
  have hdrop : ("define".toList ++ (blanks ++ (name ++ rest))).drop 6 = blanks ++ (name ++ rest) := rfl
  have hblanks' : blanks.isEmpty = false := by simpa using hne
  have hname_ne' : name.isEmpty = false := by simpa using hname_ne
  unfold ofLine
  simp only [hstart, hword, hdefine, if_true, hdrop, hspaced, hnames, hname', hrest', hblanks',
    hname_ne', Bool.false_or]
  cases rest.head?.any isMargin <;> rfl

/-- A comment in front of the replacement list hides the line from the scan. -/
theorem ofLine_commented {l : ConstantLine} (h : l.Defines plain)
    (hfront : ¬∀ c ∈ l.margin ++ l.gap ++ l.blanks, isMargin c) : ofLine offset l.text = none := by
  have hstart (x : List Char) (hmargin : ∀ c ∈ l.margin, isMargin c) :
      (l.margin ++ '#' :: x).dropWhile isMargin = '#' :: x :=
    (QualType.span_eq hmargin (by rintro _ ⟨⟩; rfl)).2
  have hword (x : List Char) (hgap : ∀ c ∈ l.gap, isMargin c) :
      (l.gap ++ ("define".toList ++ x)).dropWhile isMargin = "define".toList ++ x :=
    (QualType.span_eq hgap (by rintro _ ⟨⟩; rfl)).2
  unfold ofLine
  rcases h.margin.span with hmargin | hslash
  · rcases h.gap.span with hgap | hslash
    · rcases h.blanks.span with hblanks | hslash
      · exact absurd (List.forall_mem_append.mpr ⟨List.forall_mem_append.mpr ⟨hmargin, hgap⟩, hblanks⟩)
          hfront
      · obtain ⟨more, hmore⟩ := hslash (l.name ++ (l.replacement ++ l.ending))
        have hnone : ('/' :: more).takeWhile isWordCharacter = [] := rfl
        have hdrop (x : List Char) : ("define".toList ++ x).drop 6 = x := rfl
        simp only [ConstantLine.text, hstart _ hmargin, hword _ hgap, hdrop, hmore, hnone,
          List.isEmpty_nil, Bool.or_true, Bool.true_or, if_true, ite_self]
    · obtain ⟨more, hmore⟩ := hslash ("define".toList ++
        (l.blanks ++ (l.name ++ (l.replacement ++ l.ending))))
      have hnone : "define".toList.isPrefixOf ('/' :: more) = false := rfl
      simp only [ConstantLine.text, hstart _ hmargin, hmore, hnone, if_neg Bool.false_ne_true]
  · obtain ⟨more, hmore⟩ := hslash ('#' :: (l.gap ++ ("define".toList ++
      (l.blanks ++ (l.name ++ (l.replacement ++ l.ending))))))
    simp only [ConstantLine.text, hmore]
    rfl

/-- The hash sign of a constant is in its line. -/
theorem start_of_ofLine (h : d ∈ ofLine offset line) :
    offset ≤ d.start ∧ d.start < offset + byteLength line := by
  rw [Option.mem_def] at h
  unfold ofLine at h
  dsimp only at h
  split at h
  · next rest hrest =>
    split at h
    · split at h
      · cases h
      · obtain ⟨value, -, rfl⟩ := Option.map_eq_some_iff.mp h
        have hline : byteLength line = (line.takeWhile isMargin).length + (1 + byteLength rest) := by
          rw [← byteLength_margin (margin_takeWhile line)]
          exact (congrArg byteLength (hrest ▸ List.takeWhile_append_dropWhile).symm).trans
            (byteLength_append _ _)
        dsimp only
        omega
    · cases h
  · cases h

theorem scanLines_newline (offset : Nat) (line cs : List Char) :
    scanLines offset line ('\n' :: cs) = (ofLine offset line.reverse).toList ++
      scanLines (offset + byteLength line.reverse + 1) [] cs := by
  rw [scanLines, if_pos (beq_self_eq_true '\n'), byteLength_reverse]

theorem scanLines_other (hc : c ≠ '\n') (offset : Nat) (line cs : List Char) :
    scanLines offset line (c :: cs) = scanLines offset (c :: line) cs := by
  rw [scanLines, if_neg (by simpa using hc)]

theorem start_of_scanLines (h : d ∈ scanLines offset line cs) : offset ≤ d.start := by
  induction cs generalizing offset line with
  | nil => exact (start_of_ofLine (Option.mem_toList.mp h)).1
  | cons c cs ih =>
    by_cases hc : c = '\n'
    · subst hc
      rw [scanLines_newline] at h
      rcases List.mem_append.mp h with hhere | hlater
      · exact (start_of_ofLine (Option.mem_toList.mp hhere)).1
      · have hnext := ih hlater
        omega
    · rw [scanLines_other hc] at h
      exact ih h

/-- The constants of whole lines come first, and begin in them. -/
theorem scanLines_before (hlast : before.getLast? = some '\n') (offset : Nat)
    (line rest : List Char) :
    ∃ ds, (∀ d ∈ ds, d.start < offset + byteLength (line.reverse ++ before)) ∧
      scanLines offset line (before ++ rest) =
        ds ++ scanLines (offset + byteLength (line.reverse ++ before)) [] rest := by
  induction before generalizing offset line with
  | nil => cases hlast
  | cons c before ih =>
    have hmore (hne : before ≠ []) : before.getLast? = some '\n' := by
      rwa [List.getLast?_cons_of_ne_nil hne] at hlast
    by_cases hc : c = '\n'
    · subst hc
      have hlength : byteLength (line.reverse ++ '\n' :: before) =
          byteLength line.reverse + 1 + byteLength before := by
        rw [byteLength_append, byteLength, ← Nat.add_assoc]
        rfl
      have hhere : ∀ d ∈ (ofLine offset line.reverse).toList,
          d.start < offset + byteLength line.reverse := fun d hd =>
        (start_of_ofLine (Option.mem_toList.mp hd)).2
      rw [List.cons_append, scanLines_newline, hlength]
      by_cases hne : before = []
      · subst hne
        refine ⟨_, fun d hd => ?_, rfl⟩
        have hd' := hhere d hd
        omega
      · obtain ⟨ds, hds, hscan⟩ := ih (hmore hne) (offset + byteLength line.reverse + 1) []
        rw [List.reverse_nil, List.nil_append] at hds hscan
        refine ⟨(ofLine offset line.reverse).toList ++ ds, fun d hd => ?_, ?_⟩
        · rcases List.mem_append.mp hd with hd | hd
          · have hd' := hhere d hd
            omega
          · have hd' := hds d hd
            omega
        · rw [hscan, List.append_assoc]
          congr 3
          omega
    · have hne : before ≠ [] := by
        rintro rfl
        exact hc (Option.some.inj hlast)
      obtain ⟨ds, hds, hscan⟩ := ih (hmore hne) offset (c :: line)
      have hline : (c :: line).reverse ++ before = line.reverse ++ c :: before := by simp
      rw [hline] at hds hscan
      exact ⟨ds, hds, (scanLines_other hc offset line _).trans hscan⟩

/-- The constant of a line comes first in the text that the line begins. -/
theorem scanLines_line (hline : '\n' ∉ cs) (hafter : after = [] ∨ after.head? = some '\n')
    (offset : Nat) (line : List Char) : ∃ ds, (∀ d ∈ ds, offset + byteLength (line.reverse ++ cs) < d.start) ∧
      scanLines offset line (cs ++ after) = (ofLine offset (line.reverse ++ cs)).toList ++ ds := by
  induction cs generalizing line with
  | nil =>
    rw [List.append_nil, List.nil_append]
    rcases hafter with rfl | hafter
    · exact ⟨[], nofun, (List.append_nil _).symm⟩
    · obtain ⟨after, rfl⟩ := List.head?_eq_some_iff.mp hafter
      refine ⟨_, fun d hd => ?_, scanLines_newline offset line after⟩
      have hd' := start_of_scanLines hd
      omega
  | cons c cs ih =>
    obtain ⟨hc, hmore⟩ := not_or.mp (mt List.mem_cons.mpr hline)
    obtain ⟨ds, hds, hscan⟩ := ih hmore (c :: line)
    have hreversed : (c :: line).reverse ++ cs = line.reverse ++ c :: cs := by simp
    rw [hreversed] at hds hscan
    exact ⟨ds, hds, (scanLines_other (Ne.symm hc) offset line _).trans hscan⟩

theorem scan_split {l : ConstantLine} (hline : '\n' ∉ l.text)
    (hbefore : before = [] ∨ before.getLast? = some '\n')
    (hafter : after = [] ∨ after.head? = some '\n') :
    ∃ ds ds', (∀ d ∈ ds, d.start < byteLength before) ∧
      (∀ d ∈ ds', byteLength before + byteLength l.text < d.start) ∧
      scan (String.ofList (before ++ l.text ++ after)) =
        ds ++ ((ofLine (byteLength before) l.text).toList ++ ds') := by
  obtain ⟨ds', hds', hscan'⟩ := scanLines_line hline hafter (byteLength before) []
  rw [List.reverse_nil, List.nil_append] at hds' hscan'
  rw [scan, String.toList_ofList, List.append_assoc]
  rcases hbefore with rfl | hlast
  · exact ⟨[], ds', nofun, hds', hscan'⟩
  · obtain ⟨ds, hds, hscan⟩ := scanLines_before hlast 0 [] (l.text ++ after)
    rw [List.reverse_nil, List.nil_append, Nat.zero_add] at hds hscan
    exact ⟨ds, ds', hds, hds', hscan.trans (congrArg (ds ++ ·) hscan')⟩

theorem reported_eq {l : ConstantLine} (hline : '\n' ∉ l.text)
    (hbefore : before = [] ∨ before.getLast? = some '\n')
    (hafter : after = [] ∨ after.head? = some '\n')
    (hstart : ∀ d ∈ ofLine (byteLength before) l.text, d.start = byteLength (before ++ l.margin)) :
    l.reported before after = (ofLine (byteLength before) l.text).map (·.value) := by
  obtain ⟨ds, ds', hds, hds', hscan⟩ := scan_split hline hbefore hafter
  have hhash : byteLength l.margin < byteLength l.text := by
    rw [ConstantLine.text, byteLength_append, byteLength]
    have hpos := Char.utf8Size_pos '#'
    omega
  have hnone : ds.find? (·.start == byteLength (before ++ l.margin)) = none := by
    rw [List.find?_eq_none]
    intro d hd
    have hd' := hds d hd
    rw [byteLength_append, beq_iff_eq]
    omega
  have hnone' : ds'.find? (·.start == byteLength (before ++ l.margin)) = none := by
    rw [List.find?_eq_none]
    intro d hd
    have hd' := hds' d hd
    rw [byteLength_append, beq_iff_eq]
    omega
  rw [ConstantLine.reported, hscan, List.find?_append, List.find?_append, hnone, hnone']
  cases hd : ofLine (byteLength before) l.text with
  | none => rfl
  | some d =>
    have hfound := hstart d hd
    simp [hfound]

/-- Where nothing but blanks and comments is left, the cut is at the first comment. -/
theorem beforeComment_blank (h : Uncommented cs plain) (hblank : ∀ c ∈ plain, isBlank c) :
    ∃ tail, plain = beforeComment false false cs ++ tail ∧ ∀ c ∈ tail, isBlank c := by
  obtain ⟨free, rest, tail, rfl, rfl, -, hrest, -⟩ := h.parts
  obtain ⟨hfree, htail⟩ := List.forall_mem_append.mp hblank
  refine ⟨tail, ?_, htail⟩
  rw [beforeComment_blanks hfree, beforeComment_opened hrest, List.append_nil]

/-- The value reported for a line with blanks alone in front of the replacement list. -/
theorem keepsTokens_reported_iff {l : ConstantLine} (h : l.Defines plain)
    (hbefore : before = [] ∨ before.getLast? = some '\n')
    (hafter : after = [] ∨ after.head? = some '\n')
    (hfront : ∀ c ∈ l.margin ++ l.gap ++ l.blanks, isMargin c) :
    KeepsTokens (l.reported before after) plain ↔
      ∃ tail, plain = beforeComment false false l.replacement ++ tail ∧ ∀ c ∈ tail, isBlank c := by
  obtain ⟨hmg, hblanks⟩ := List.forall_mem_append.mp hfront
  obtain ⟨hmargin, hgap⟩ := List.forall_mem_append.mp hmg
  have hrest : ∀ c ∈ (l.replacement ++ l.ending).head?, isWordCharacter c = false := by
    intro c hc
    rcases hreplacement : l.replacement with _ | ⟨d, more⟩
    · rw [hreplacement] at hc
      rw [h.ending c (List.mem_of_mem_head? hc)]
      rfl
    · rw [hreplacement] at hc
      cases hc
      have hseparate := h.separate
      rw [hreplacement] at hseparate
      rcases hseparate with hmargin | hopen
      · exact not_isWordCharacter_of_isBlank (isBlank_of_isMargin hmargin)
      · obtain ⟨mark, tail, he, -⟩ := opensComment_iff.mp hopen
        rw [(List.cons.inj he).1]
        rfl
  have hparts := ofLine_parts hmargin hgap hblanks h.blanks_ne h.name h.name_ne hrest
    (byteLength before)
  have hstart : ∀ d ∈ ofLine (byteLength before) l.text, d.start = byteLength (before ++ l.margin) := by
    intro d hd
    rw [ConstantLine.text, hparts] at hd
    split at hd
    · obtain ⟨value, -, rfl⟩ := Option.map_eq_some_iff.mp hd
      rw [byteLength_append, byteLength_margin hmargin]
    · cases hd
  rw [reported_eq h.single hbefore hafter hstart, ConstantLine.text, hparts]
  split
  · rw [Option.map_map]
    show KeepsTokens (Option.map (fun value => value) _) plain ↔ _
    rw [Option.map_id']
    exact keepsTokens_valueOf_iff h.replaced h.returnless h.last h.ending
  · next hhidden =>
    -- the replacement list is empty or begins with a comment, so no value is read
    have hends : CommentOrEnd l.replacement := by
      rcases hreplacement : l.replacement with _ | ⟨d, more⟩
      · exact .inl rfl
      · have hseparate := h.separate
        rw [hreplacement] at hseparate hhidden
        exact .inr (hseparate.resolve_left hhidden)
    rw [Option.map_none, keepsTokens_none_iff, beforeComment_opened hends]
    exact ⟨fun hblank => ⟨plain, rfl, hblank⟩, fun ⟨tail, he, hblank⟩ => he ▸ hblank⟩

theorem tokens_kept_iff {l : ConstantLine} (h : l.Defines plain)
    (hbefore : before = [] ∨ before.getLast? = some '\n')
    (hafter : after = [] ∨ after.head? = some '\n') :
    (KeepsTokens (l.reported before after) plain ↔
      (∀ c ∈ plain, isBlank c) ∨ (∀ c ∈ l.margin ++ l.gap ++ l.blanks, isMargin c) ∧
        ∃ tail, plain = beforeComment false false l.replacement ++ tail ∧ ∀ c ∈ tail, isBlank c) ∧
    ∀ free rest, l.replacement = free ++ rest → CommentFree Harmless rest free → CommentOrEnd rest →
      beforeComment false false l.replacement = free := by
  constructor
  · by_cases hfront : ∀ c ∈ l.margin ++ l.gap ++ l.blanks, isMargin c
    · rw [keepsTokens_reported_iff h hbefore hafter hfront, and_iff_right hfront]
      exact (or_iff_right_of_imp (beforeComment_blank h.replaced)).symm
    · have hnone : ofLine (byteLength before) l.text = none := ofLine_commented h hfront
      rw [reported_eq h.single hbefore hafter (by rw [hnone]; nofun), hnone, Option.map_none,
        keepsTokens_none_iff]
      exact (or_iff_left fun hkept => hfront hkept.1).symm
  · rintro free rest hparts hfree hrest
    rw [hparts]
    exact beforeComment_free hfree hrest

/-- The line `#define OPEN "/*" // opener`. -/
def openLine : ConstantLine :=
  ⟨[], [], [' '], "OPEN".toList, " \"/*\" // opener".toList, []⟩

theorem openLine_free {ok : Char → List Char → Prop} (h : ok '"' ['/', '*']) :
    CommentFree ok "// opener".toList " \"/*\" ".toList := by
  have hstring : CommentFree ok "// opener".toList ('"' :: (['/', '*'] ++ '"' :: [' '])) :=
    .literal rfl rfl h (.other rfl rfl .nil)
  exact .other rfl rfl hstring

theorem openLine_defines : openLine.Defines " \"/*\"  ".toList where
  margin := .nil
  gap := .nil
  blanks := .margin rfl .nil
  blanks_ne := by decide
  name := List.all_eq_true.mp (by decide)
  name_ne := by decide
  separate := .inl rfl
  replaced := .line " opener".toList (openLine_free trivial)
  ending := nofun
  returnless := by decide
  single := by decide
  last := by decide

/-- The mark of a comment in a string opens none. -/
theorem openLine_kept :
    KeepsTokens (openLine.reported "#pragma once\n".toList "\n#endif".toList) " \"/*\"  ".toList ∧
    beforeComment false false openLine.replacement = " \"/*\" ".toList := by
  have hbefore : "#pragma once\n".toList.getLast? = some '\n' := by decide
  have hafter : "\n#endif".toList.head? = some '\n' := by decide
  obtain ⟨hkept, hcut⟩ := tokens_kept_iff openLine_defines (.inr hbefore) (.inr hafter)
  have hsame := hcut _ _ rfl (openLine_free (.inl rfl)) (.inr rfl)
  have htail : " \"/*\"  ".toList = beforeComment false false openLine.replacement ++ [' '] := by
    rw [hsame]
    decide
  have hblank : ∀ c ∈ [' '], isBlank c := List.forall_mem_singleton.mpr rfl
  exact ⟨hkept.mpr (.inr ⟨List.forall_mem_singleton.mpr rfl, [' '], htail, hblank⟩), hsame⟩

/-- The line `#define RW 1 /* read */ + 2 /* write */`. -/
def sumLine : ConstantLine :=
  ⟨[], [], [' '], "RW".toList, " 1 /* read */ + 2 /* write */".toList, []⟩

theorem sumLine_uncommented : Uncommented sumLine.replacement " 1   + 2  ".toList := by
  have hfree (rest : List Char) : CommentFree AnyLiteral rest [' ', '1', ' '] :=
    .other rfl rfl (.other rfl rfl (.other rfl rfl .nil))
  have hfree' (rest : List Char) : CommentFree AnyLiteral rest [' ', '+', ' ', '2', ' '] :=
    .other rfl rfl (.other rfl rfl (.other rfl rfl (.other rfl rfl (.other rfl rfl .nil))))
  have hread : ¬['*', '/'] <:+: " read ".toList := by decide
  have hwrite : ¬['*', '/'] <:+: " write ".toList := by decide +kernel
  have hparts := Uncommented.block _ hread (hfree _) (.block _ hwrite (hfree' _) (.plain .nil))
  have htext : [' ', '1', ' '] ++ '/' :: '*' :: (" read ".toList ++ '*' :: '/' ::
      ([' ', '+', ' ', '2', ' '] ++ '/' :: '*' :: (" write ".toList ++ ['*', '/']))) =
        sumLine.replacement := by decide
  have hplain : [' ', '1', ' '] ++ ' ' :: ([' ', '+', ' ', '2', ' '] ++ [' ']) =
      " 1   + 2  ".toList := by decide
  rwa [htext, hplain] at hparts

theorem sumLine_defines : sumLine.Defines " 1   + 2  ".toList where
  margin := .nil
  gap := .nil
  blanks := .margin rfl .nil
  blanks_ne := by decide
  name := List.all_eq_true.mp (by decide)
  name_ne := by decide
  separate := .inl rfl
  replaced := sumLine_uncommented
  ending := nofun
  returnless := by decide
  single := by decide
  last := by decide

/-- The tokens behind the first comment are lost. -/
theorem sumLine_cut : sumLine.Defines " 1   + 2  ".toList ∧
    sumLine.reported [] ['\n'] = some "1" ∧ tokens " 1   + 2  ".toList = [['1'], ['+'], ['2']] ∧
    ¬KeepsTokens (sumLine.reported [] ['\n']) " 1   + 2  ".toList := by
  have hreported : sumLine.reported [] ['\n'] = some "1" := by decide
  have htokens : tokens " 1   + 2  ".toList = [['1'], ['+'], ['2']] := by decide +kernel
  refine ⟨sumLine_defines, hreported, htokens, fun h => ?_⟩
  have hkept := h.2
  rw [hreported, htokens] at hkept
  exact absurd hkept (by decide +kernel)

end Definition

end Bindery
