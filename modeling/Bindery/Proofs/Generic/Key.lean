import Bindery.Generic.Key
import Bindery.Proofs.Text.Trimmed
import Bindery.Source.Annotation

/-! Keys and the annotations that are written for them. -/

namespace Bindery

variable {cs key token pre post mark : List Char} {policy : PointerPolicy}

/-- Text without blanks at the ends and without a qualifier at the front. -/
structure Normal (cs : List Char) : Prop where
  trimmed : Trimmed cs
  unqualified : ¬constWord <+: cs

theorem dropConsts_unqualified (cs : List Char) : ¬constWord <+: dropConsts cs := by
  induction cs using dropConsts.induct with
  | case1 cs hconst ih =>
    rw [dropConsts, dif_pos hconst]
    exact ih
  | case2 cs hconst =>
    rw [dropConsts, dif_neg hconst]
    exact fun h => hconst (List.isPrefixOf_iff_prefix.mpr h)

theorem dropConsts_eq (h : ¬constWord <+: cs) : dropConsts cs = cs := by
  rw [dropConsts, dif_neg (mt List.isPrefixOf_iff_prefix.mp h)]

theorem dropConsts_start (h : ∀ c ∈ cs.head?, isBlank c = false) :
    ∀ c ∈ (dropConsts cs).head?, isBlank c = false := by
  induction cs using dropConsts.induct with
  | case1 cs hconst ih =>
    rw [dropConsts, dif_pos hconst]
    exact ih (trimStart_start _)
  | case2 cs hconst =>
    rw [dropConsts, dif_neg hconst]
    exact h

theorem normal_normalizedToken (cs : List Char) : Normal (normalizedToken cs) where
  trimmed := trimmed_trimEnd (dropConsts_start (trimmed_trim cs).start)
  unqualified h := dropConsts_unqualified (trim cs)
    (h.trans (ParamText.trimEnd_initial (dropConsts (trim cs))))

theorem Normal.normalizedToken_eq (h : Normal cs) : normalizedToken cs = cs := by
  rw [normalizedToken, h.trimmed.trim_eq, dropConsts_eq h.unqualified, h.trimmed.trimEnd_eq]

theorem normalizedToken_eq_self_iff : normalizedToken cs = cs ↔ Normal cs :=
  ⟨fun h => h ▸ normal_normalizedToken cs, Normal.normalizedToken_eq⟩

theorem normalizedToken_idempotent (cs : List Char) :
    normalizedToken (normalizedToken cs) = normalizedToken cs :=
  (normal_normalizedToken cs).normalizedToken_eq

/-- What stands in front of the star of a normal text is normal. -/
theorem Normal.pointee (h : Normal (key ++ mark)) : Normal (trimEnd key) where
  trimmed := trimmed_trimEnd fun c hc =>
    h.trimmed.start c (head?_of_initial (List.prefix_append key mark) hc)
  unqualified hconst := h.unqualified
    ((hconst.trans (ParamText.trimEnd_initial key)).trans (List.prefix_append key mark))

theorem getLast?_ne_star (h : ∀ rest, cs.reverse ≠ '*' :: rest) : cs.getLast? ≠ some '*' := by
  rw [← List.head?_reverse]
  intro hlast
  obtain ⟨rest, hrest⟩ := List.head?_eq_some_iff.mp hlast
  exact h rest hrest

theorem keyOf_required_iff : keyOf .required token = .ok key ↔
    ∃ pointee, normalizedToken token = pointee ++ [' ', '*'] ∧ key = trimEnd pointee ∧ key ≠ [] := by
  constructor
  · intro h
    simp only [keyOf] at h
    split at h
    · cases h
    · split at h
      · next rest _ hreverse =>
        have hname : normalizedToken token = rest.reverse ++ [' ', '*'] := by
          simpa using congrArg List.reverse hreverse
        split at h
        · cases h
        · next hsolid =>
          cases h
          refine ⟨rest.reverse, hname, rfl, fun hempty => hsolid ?_⟩
          rw [hempty]
          rfl
      · cases h
      · cases h
      · cases h
      · contradiction
  · rintro ⟨pointee, hname, rfl, hne⟩
    have hkey : Normal (trimEnd pointee) := (hname ▸ normal_normalizedToken token).pointee
    simp [keyOf, hname, hkey.trimmed.trim_eq, hne]

theorem keyOf_forbidden_iff : keyOf .forbidden token = .ok key ↔
    normalizedToken token = key ∧ key ≠ [] ∧ key.getLast? ≠ some '*' := by
  constructor
  · intro h
    simp only [keyOf] at h
    split at h
    · cases h
    · next hne =>
      split at h
      · contradiction
      · cases h
      · cases h
      · cases h
      · next hstar =>
        cases h
        exact ⟨rfl, by simpa using hne, getLast?_ne_star hstar⟩
  · rintro ⟨rfl, hne, hlast⟩
    simp only [keyOf, List.isEmpty_iff, hne, if_false]
    split
    · contradiction
    · contradiction
    · contradiction
    · next hreverse =>
      rw [← List.head?_reverse, hreverse] at hlast
      exact absurd rfl hlast
    · rfl

/-- Every key is normal. -/
theorem normal_of_keyOf (h : keyOf policy token = .ok key) : key ≠ [] ∧ Normal key := by
  cases policy with
  | required =>
    obtain ⟨pointee, hname, rfl, hne⟩ := keyOf_required_iff.mp h
    exact ⟨hne, (hname ▸ normal_normalizedToken token).pointee⟩
  | forbidden =>
    obtain ⟨rfl, hne, -⟩ := keyOf_forbidden_iff.mp h
    exact ⟨hne, normal_normalizedToken token⟩

/-- The text of the annotation for a key: for a generic of pointers, with a star behind the key. -/
def PointerPolicy.annotation (policy : PointerPolicy) (key : List Char) : List Char :=
  match policy with
  | .required => key ++ [' ', '*']
  | .forbidden => key

/-- The annotation for a key that a generic can have is read as the key. -/
theorem keyOf_annotation (hkey : Normal key) (hne : key ≠ [])
    (hstar : policy = .forbidden → key.getLast? ≠ some '*')
    (h : Normal (policy.annotation key)) : keyOf policy (policy.annotation key) = .ok key := by
  cases policy with
  | required =>
    exact keyOf_required_iff.mpr ⟨key, h.normalizedToken_eq, hkey.trimmed.trimEnd_eq.symm, hne⟩
  | forbidden => exact keyOf_forbidden_iff.mpr ⟨h.normalizedToken_eq, hne, hstar rfl⟩

/-- Of the normal texts only the word `const` cannot be written before a star: there it is a
qualifier. -/
theorem normal_annotation_iff (hkey : Normal key) (hne : key ≠ []) :
    Normal (policy.annotation key) ↔ ¬(policy = .required ∧ key = "const".toList) := by
  cases policy with
  | forbidden => simp [PointerPolicy.annotation, hkey]
  | required =>
    have hstart : ∀ c ∈ (key ++ [' ', '*']).head?, isBlank c = false := by
      rw [List.head?_append_of_ne_nil key hne]
      exact hkey.trimmed.start
    have hstop : ∀ c ∈ (key ++ [' ', '*']).getLast?, isBlank c = false := by simp [isBlank]
    have hconst : constWord <+: key ++ [' ', '*'] ↔ key = "const".toList := by
      have hstar : constWord ≠ key ++ [' '] ++ ['*'] := by
        intro he
        have hlast := congrArg List.getLast? he
        rw [List.getLast?_concat] at hlast
        exact absurd hlast (by decide)
      have hblank : constWord = key ++ [' '] ↔ key = "const".toList := by
        rw [show constWord = "const".toList ++ [' '] from rfl, List.append_cancel_right_eq, eq_comm]
      rw [List.append_cons, List.prefix_concat_iff, List.prefix_concat_iff, or_iff_right hstar,
        or_iff_left hkey.unqualified, hblank]
    constructor
    · rintro h ⟨-, rfl⟩
      exact h.unqualified (hconst.mpr rfl)
    · intro h
      exact ⟨⟨hstart, hstop⟩, fun hprefix => h ⟨rfl, hconst.mp hprefix⟩⟩

/-- The word `const` before a star names no type. -/
theorem keyOf_const : keyOf .required "const *".toList = .error .lacksSpace := by
  have htrim : trim "const *".toList = "const *".toList := by decide
  have hconst : dropConsts "const *".toList = ['*'] := by
    rw [dropConsts, dif_pos (by decide)]
    exact dropConsts_eq (by decide)
  have hname : normalizedToken "const *".toList = ['*'] := by
    rw [normalizedToken, htrim, hconst]
    rfl
  simp only [keyOf, hname]
  rfl

theorem keyOf_annotation_iff (h : keyOf policy token = .ok key) :
    keyOf policy (policy.annotation key) = .ok key ↔
      ¬(policy = .required ∧ key = "const".toList) := by
  obtain ⟨hne, hkey⟩ := normal_of_keyOf h
  have hstar : policy = .forbidden → key.getLast? ≠ some '*' := by
    rintro rfl
    exact (keyOf_forbidden_iff.mp h).2.2
  constructor
  · rintro hback ⟨rfl, rfl⟩
    exact absurd (keyOf_const.symm.trans hback) nofun
  · exact fun hconst => keyOf_annotation hkey hne hstar ((normal_annotation_iff hkey hne).mpr hconst)

theorem specializationKey_ok_iff {generic name : String} {text : String} {location : Location} :
    specializationKey generic policy text location = .ok name ↔
      keyOf policy text.toList = .ok name.toList := by
  rw [specializationKey]
  cases keyOf policy text.toList with
  | error fault => exact ⟨nofun, nofun⟩
  | ok key => simp [String.ext_iff]

/-- A mark is found at its first place. -/
theorem splitAtMark_first (hne : mark ≠ [])
    (h : ∀ back, back ≠ [] → back <:+ pre → ¬mark <+: back ++ (mark ++ post)) :
    splitAtMark mark (pre ++ (mark ++ post)) = some (pre, post) := by
  induction pre with
  | nil =>
    obtain ⟨c, more, rfl⟩ := List.exists_cons_of_ne_nil hne
    rw [List.nil_append, List.cons_append, splitAtMark, if_pos (by simp)]
    simp
  | cons c pre ih =>
    have hlater := ih fun back hback hsuffix =>
      h back hback (hsuffix.trans (List.suffix_cons c pre))
    have hhere := h (c :: pre) (List.cons_ne_nil c pre) List.suffix_rfl
    rw [List.cons_append] at hhere
    rw [List.cons_append, splitAtMark, if_neg (mt List.isPrefixOf_iff_prefix.mp hhere), hlater]
    rfl

/-- The text inside the first `/*<` and the `>*/` behind it is the annotation. -/
theorem annotationIn_eq (hpre : ¬['/', '*', '<'] <:+: pre) (htoken : ¬['*', '/'] <:+: token)
    (post : List Char) (location : Location) :
    annotationIn (pre ++ (['/', '*', '<'] ++ (token ++ (['>', '*', '/'] ++ post)))) location =
      .ok (some token) := by
  have hopen : splitAtMark ['/', '*', '<']
      (pre ++ (['/', '*', '<'] ++ (token ++ (['>', '*', '/'] ++ post)))) =
        some (pre, token ++ (['>', '*', '/'] ++ post)) := by
    refine splitAtMark_first (by decide) fun back hback hsuffix hmark => ?_
    rcases back with _ | ⟨a, _ | ⟨b, _ | ⟨c, back⟩⟩⟩
    · exact hback rfl
    · simp at hmark
    · simp at hmark
    · obtain ⟨rfl, rfl, rfl⟩ : '/' = a ∧ '*' = b ∧ '<' = c := by simpa using hmark
      exact hpre ((List.prefix_append _ back).isInfix.trans hsuffix.isInfix)
  have hclose : splitAtMark ['*', '/'] ((token ++ ['>']) ++ (['*', '/'] ++ post)) =
      some (token ++ ['>'], post) := by
    refine splitAtMark_first (by decide) fun back hback hsuffix hmark => ?_
    obtain rfl | ⟨back, rfl, hinner⟩ := List.suffix_concat_iff.mp hsuffix
    · exact hback rfl
    rcases back with _ | ⟨a, _ | ⟨b, back⟩⟩
    · simp at hmark
    · simp at hmark
    · obtain ⟨rfl, rfl⟩ : '*' = a ∧ '/' = b := by simpa using hmark
      exact htoken ((List.prefix_append _ back).isInfix.trans hinner.isInfix)
  rw [List.append_assoc] at hclose
  rw [annotationIn, hopen]
  simp only [List.cons_append, List.nil_append] at hclose ⊢
  simp [hclose]

theorem annotation_unclosed (h : ¬['*', '/'] <:+: key) :
    ¬['*', '/'] <:+: policy.annotation key := by
  cases policy with
  | forbidden => exact h
  | required =>
    have hends : ∀ (front : List Char) (c : Char), c ≠ '/' → ¬['*', '/'] <:+ front ++ [c] := by
      intro front c hc hsuffix
      obtain hnil | ⟨more, hmore, -⟩ := List.suffix_concat_iff.mp hsuffix
      · cases hnil
      · have hlast := congrArg List.getLast? hmore
        rw [List.getLast?_concat] at hlast
        exact hc (Option.some.inj hlast).symm
    rw [PointerPolicy.annotation, List.append_cons, List.infix_concat_iff, List.infix_concat_iff]
    rintro (hstar | hblank | hin)
    · exact hends _ '*' (by decide) hstar
    · exact hends _ ' ' (by decide) hblank
    · exact h hin

/-- The comment for a key is found between the type and the name of a declaration. -/
theorem annotationToken_written {source : SourceMap} {d : Decl} {start : Location}
    (hstart : d.typeStart = some start) (hpre : ¬['/', '*', '<'] <:+: pre)
    (htoken : ¬['*', '/'] <:+: token)
    (htext : source.textBetween? start d.location = some (String.ofList
      (pre ++ (['/', '*', '<'] ++ (token ++ (['>', '*', '/'] ++ post)))))) :
    d.annotationToken source = .ok (some (String.ofList token)) := by
  have hbetween : (d.typeStart.bind fun s => source.textBetween? s d.location) = some (String.ofList
      (pre ++ (['/', '*', '<'] ++ (token ++ (['>', '*', '/'] ++ post))))) := by
    rw [hstart]
    exact htext
  rw [Decl.annotationToken, hbetween]
  simp only [String.toList_ofList, annotationIn_eq hpre htoken]
  rfl

/-- Normalizing twice is normalizing once. A comment that is written for a normal key is found and read
as the key. Every key is normal, and is read again from the comment that is written for it, except
`const` where the key of a pointer is asked for. -/
theorem keys_written_back_iff (policy : PointerPolicy) :
    (∀ cs, normalizedToken (normalizedToken cs) = normalizedToken cs) ∧
    (∀ key : List Char, key ≠ [] → normalizedToken key = key → ¬['*', '/'] <:+: key →
      (policy = .forbidden → key.getLast? ≠ some '*') →
      (policy = .required → normalizedToken (policy.annotation key) = policy.annotation key) →
      (∀ generic location,
        specializationKey generic policy (String.ofList (policy.annotation key)) location =
          .ok (String.ofList key)) ∧
      ∀ (source : SourceMap) (d : Decl) (start : Location) (pre post : List Char),
        d.typeStart = some start → ¬['/', '*', '<'] <:+: pre →
        source.textBetween? start d.location = some (String.ofList
          (pre ++ (['/', '*', '<'] ++ (policy.annotation key ++ (['>', '*', '/'] ++ post))))) →
        d.annotationToken source = .ok (some (String.ofList (policy.annotation key)))) ∧
    ∀ generic text location name, specializationKey generic policy text location = .ok name →
      name ≠ "" ∧ normalizedToken name.toList = name.toList ∧
      (specializationKey generic policy (String.ofList (policy.annotation name.toList)) location =
        .ok name ↔ ¬(policy = .required ∧ name = "const")) := by
  refine ⟨normalizedToken_idempotent, fun key hne hfixed hopen hstar hpointer => ⟨?_, ?_⟩, ?_⟩
  · intro generic location
    have hkey : Normal key := normalizedToken_eq_self_iff.mp hfixed
    have hwritten : Normal (policy.annotation key) := by
      cases policy with
      | required => exact normalizedToken_eq_self_iff.mp (hpointer rfl)
      | forbidden => exact hkey
    rw [specializationKey_ok_iff, String.toList_ofList, String.toList_ofList]
    exact keyOf_annotation hkey hne hstar hwritten
  · intro source d start pre post hstart hpre htext
    exact annotationToken_written hstart hpre (annotation_unclosed hopen) htext
  · intro generic text location name h
    have hkeyOf := specializationKey_ok_iff.mp h
    obtain ⟨hne, hkey⟩ := normal_of_keyOf hkeyOf
    refine ⟨fun hempty => hne (by rw [hempty]; rfl), hkey.normalizedToken_eq, ?_⟩
    rw [specializationKey_ok_iff, String.toList_ofList, keyOf_annotation_iff hkeyOf,
      String.toList_inj]

/-- A field whose type is followed by a comment that names the type `char *`. -/
def namesField : Decl :=
  ⟨.field, "names", ⟨"row.h", 1, 23, 22⟩, some ⟨"row.h", 1, 1, 0⟩, none, [], [], none⟩

def namesSource : SourceMap :=
  ⟨[("row.h", "List /*<char * *>*/ * names;")]⟩

/-- The key `char *` of a generic that holds pointers is written with another star and read back. -/
theorem charPointer_written_back :
    normalizedToken "char *".toList = "char *".toList ∧
    specializationKey "List" .required "char * *" .unknown = .ok "char *" ∧
    namesField.annotationToken namesSource = .ok (some "char * *") ∧
    (specializationKey "List" .required (String.ofList
      (PointerPolicy.required.annotation "char *".toList)) .unknown = .ok "char *" ↔
        ¬(PointerPolicy.required = .required ∧ "char *" = "const")) := by
  have hkey : Normal "char *".toList := ⟨trimmed_iff.mpr (by decide), by decide⟩
  have hwritten : Normal "char * *".toList := ⟨trimmed_iff.mpr (by decide), by decide⟩
  obtain ⟨-, hread, hback⟩ := keys_written_back_iff .required
  obtain ⟨hspecialized, hfound⟩ := hread "char *".toList (by decide) hkey.normalizedToken_eq
    (by decide) nofun fun _ => hwritten.normalizedToken_eq
  have hchar := hspecialized "List" .unknown
  have htext : namesSource.textBetween? ⟨"row.h", 1, 1, 0⟩ namesField.location = some (String.ofList
      ("List ".toList ++ (['/', '*', '<'] ++ (PointerPolicy.required.annotation "char *".toList ++
        (['>', '*', '/'] ++ " * ".toList))))) := by decide
  exact ⟨hkey.normalizedToken_eq, hchar,
    hfound namesSource namesField ⟨"row.h", 1, 1, 0⟩ "List ".toList " * ".toList rfl (by decide) htext,
    (hback "List" "char * *" .unknown "char *" hchar).2.2⟩

/-- A qualifier with a tab behind it passes for the type that a pointer points to. With a blank in the
place of the tab, as the key is written back, no type is left. -/
theorem tabbed_const_not_written_back :
    specializationKey "List" .required "const\t *" .unknown = .ok "const" ∧
    specializationKey "List" .required "const *" .unknown =
      .error (.pointerPolicy "List" "const *" .lacksSpace .unknown) := by
  have hnormal : Normal "const\t *".toList := ⟨trimmed_iff.mpr (by decide), by decide⟩
  have htabbed : keyOf .required "const\t *".toList = .ok "const".toList :=
    keyOf_required_iff.mpr ⟨"const\t".toList, hnormal.normalizedToken_eq, by decide, by decide⟩
  refine ⟨specializationKey_ok_iff.mpr htabbed, ?_⟩
  rw [specializationKey, keyOf_const]

end Bindery
