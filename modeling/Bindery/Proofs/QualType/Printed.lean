import Bindery.Proofs.QualType.Classified
import Bindery.Proofs.QualType.Pieces

/-! What the declarator of a type writes has the tokens of its printed form. -/

namespace Bindery

theorem RecordNames.primitive_verbatim {p : Primitive} (hp : p ≠ .bool) (spelling : String)
    (isConst : Bool) : RecordNames.primitive false p spelling isConst = spelling := by
  cases p <;> first | rfl | exact absurd rfl hp

namespace QualType

theorem opens_constMark (isConst : Bool) : Opens (constMark isConst) (constTokens isConst) := by
  cases isConst with
  | false => exact opens_empty
  | true =>
    have hconst : Spells "const" [.word "const"] := spells_word rfl rfl
    exact hconst.blank

theorem closes_arrayBounds {count : Option Nat} (h : ∀ n ∈ count, n < limit64) :
    Closes (arrayBounds count) (boundsTokens count) := by
  have hcount : Spells ((count.map toString).getD "") (count.toList.map .number) := by
    cases count with
    | none => exact opens_empty.spells
    | some n => exact spells_number (h n rfl)
  exact hcount.enclosed (o := '[') (c := ']') rfl rfl

theorem closes_abstractParameters {names : RecordNames} {args : List CType}
    {parts : List (List Token)} (h : List.Forall₂ Spells (CType.abstractList names args) parts)
    (variadic : Bool) :
    Closes (abstractParameters names args variadic) (parameterTokens parts variadic) := by
  have hlist : List.Forall₂ Spells
      (CType.abstractList names args ++ if variadic then ["..."] else [])
      (parts ++ if variadic then [[.ellipsis]] else []) := by
    apply List.rel_append h
    cases variadic with
    | false => exact .nil
    | true => exact .cons opens_ellipsis.spells .nil
  exact (spells_list hlist).enclosed (o := '(') (c := ')') rfl rfl

theorem opens_group (pointing : Bool) :
    Opens (if pointing then "(" else "") (if pointing then [.openParen] else []) := by
  cases pointing with
  | false => exact opens_empty
  | true => exact opens_punctuation (c := '(') rfl

theorem closes_group (pointing : Bool) :
    Closes (if pointing then ")" else "") (if pointing then [.closeParen] else []) := by
  cases pointing with
  | false => exact closes_empty
  | true => exact closes_punctuation (c := ')') rfl

theorem Spells.around {frame : Frame} {expr : String} {before inner behind : List Token}
    (h : Spells expr inner) (hbefore : Opens frame.before before)
    (hbehind : Closes frame.behind behind) :
    Spells (frame.around expr) (before ++ inner ++ behind) :=
  (hbefore.append_spells h).append_closes hbehind

theorem builtinWords_spelled {w : String} (h : w ∈ builtinWords) :
    isIdentifier w ∧ isTag w = false := by
  have hall : ∀ w ∈ builtinWords, isIdentifier w ∧ isTag w = false := by
    decide
  exact hall w h

theorem made_spelling (kind : RawKind) (hkind : ∀ t, kind ≠ .pointer t) (spelling : String)
    (isConst : Bool) :
    (made isConst (.ofKind kind spelling)).spelling = constMark isConst ++ spelling := by
  cases isConst with
  | false => simp [made, constMark, RawType.ofKind]
  | true =>
    cases kind with
    | pointer t => exact absurd rfl (hkind t)
    | _ => rfl

/-- The name of a primitive type in a declarator. -/
theorem spells_primitive {ws : List String} {p : Primitive} {isConst : Bool}
    (hws : ∀ w ∈ ws, w ∈ builtinWords) :
    Spells (RecordNames.primitive false p (constMark isConst ++ " ".intercalate ws) isConst)
      (constTokens isConst ++ (if p = .bool then ["bool"] else ws).map .word) := by
  have hspelled : Spells (constMark isConst ++ " ".intercalate ws)
      (constTokens isConst ++ ws.map .word) :=
    (opens_constMark isConst).append_spells
      (spells_words fun w hw => builtinWords_spelled (hws w hw))
  by_cases hp : p = .bool
  · subst hp
    have hbool : Spells "bool" [.word "bool"] := spells_word rfl rfl
    have hall := (opens_constMark isConst).append_spells hbool
    cases isConst <;> exact hall
  · rw [if_neg hp, RecordNames.primitive_verbatim hp]
    exact hspelled

theorem spells_enum {name : String} {isConst : Bool} (h : isTagName name) :
    Spells (constMark isConst ++ ("enum " ++ name))
      (constTokens isConst ++ [.word "enum", .word name]) := by
  obtain ⟨hname, htag⟩ := (Bool.and_eq_true _ _).mp h
  have hspelled : Spells ("enum" ++ " " ++ name) [.word "enum", .word name] :=
    spells_tagged rfl rfl hname (by simpa using htag)
  exact (opens_constMark isConst).append_spells hspelled

theorem spells_record {tag : String} {isUnion : Bool} (h : isTagName tag) :
    Spells (recordKeyword isUnion ++ " " ++ tag) [.word (recordKeyword isUnion), .word tag] := by
  obtain ⟨hname, htag⟩ := (Bool.and_eq_true _ _).mp h
  cases isUnion <;> exact spells_tagged rfl rfl hname (by simpa using htag)

/-- The last word of a base may be the const mark, when no name follows. -/
theorem Spells.qualified {base : String} {ts : List Token} (h : Spells base ts) (isConst : Bool) :
    Spells (spaced base (qualified isConst "")) (ts ++ constTokens isConst) := by
  cases isConst with
  | false => simpa [spaced, Bindery.qualified, constTokens] using h
  | true =>
    have hconst : Spells "const" [.word "const"] := spells_word rfl rfl
    exact h.blank.append_spells hconst

theorem not_startsWith_const {tag : String} (h : isTagName tag) :
    tag.startsWith "const " = false := by
  obtain ⟨hname, _⟩ := (Bool.and_eq_true _ _).mp h
  obtain ⟨c, cs, hcs, hc, hall⟩ := isIdentifier_iff.mp hname
  apply (Bool.not_eq_true _).mp
  intro hstart
  have hblank : ' ' ∈ c :: cs := by
    rw [← hcs]
    exact (String.startsWith_string_iff.mp hstart).subset (by decide)
  rcases List.mem_cons.mp hblank with rfl | hmem
  · exact absurd hc (by decide)
  · exact absurd (hall _ hmem) (by decide)

section

variable {typedefs : TypedefLookup} {names : RecordNames}

theorem record_eq (hnames : ∀ tag, names.ofClass tag = none) (tag : String) (isUnion : Bool) :
    names.record false ⟨tag, isUnion, none⟩ = recordKeyword isUnion ++ " " ++ tag := by
  simp [RecordNames.record, hnames]

theorem not_looksThrough {t : CType} (h : t.bindings = []) :
    (t.kind.record?).any (names.looksThrough false) = false := by
  obtain ⟨kind, spelling, isConst⟩ := t
  cases kind with
  | record tag isUnion binding =>
    have hnone : binding = none := by
      simpa [CType.bindings, CKind.bindings] using h
    subst hnone
    rfl
  | _ => rfl

namespace Form

mutual

theorem frame_opens (hnames : ∀ tag, names.ofClass tag = none) (f : Form) (hf : f.Valid)
    (htags : ∀ tag ∈ f.tags, isTagName tag) {c : CType} (h : f.Classified typedefs c)
    (pointing : Bool) :
    Opens (c.frame names false pointing).before (f.printed.sides pointing).1 ∧
      Closes (c.frame names false pointing).behind (f.printed.sides pointing).2 := by
  cases f with
  | words ws p isConst =>
    obtain rfl := classified_words_iff.mp h
    refine ⟨?_, closes_empty⟩
    simp only [CType.frame, CKind.frame, raw, printed, sides, made_spelling (.builtin p) nofun]
    exact (spells_primitive hf.2.1).blank
  | tagged tag isUnion isConst =>
    have htag : isTagName tag := htags tag List.mem_cons_self
    obtain rfl := (classified_tagged_iff (not_startsWith_const htag)).mp h
    refine ⟨?_, closes_empty⟩
    simp only [CType.frame, CKind.frame, record_eq hnames]
    exact (spells_record htag).blank.append (opens_constMark isConst)
  | enum name isConst =>
    obtain rfl := classified_enum_iff.mp h
    refine ⟨?_, closes_empty⟩
    simp only [CType.frame, CKind.frame, raw, RawType.enum, made_spelling (.enum name) nofun]
    exact (spells_enum (htags name List.mem_cons_self)).blank
  | named name isConst =>
    obtain ⟨t, decl, rfl, hbindings⟩ := classified_named h
    refine ⟨?_, ?_⟩
    · simp only [CType.frame, CKind.frame, not_looksThrough hbindings]
      have hname := spells_word hf.identifier hf.notTag
      exact hname.blank.append (opens_constMark isConst)
    · simp only [CType.frame, CKind.frame, not_looksThrough hbindings]
      exact closes_empty
  | pointer pointee isConst =>
    obtain ⟨t, ht, rfl⟩ := classified_pointer_iff.mp h
    obtain ⟨hbefore, hbehind⟩ := frame_opens hnames pointee hf htags ht true
    have hstar : Opens "*" [.star] := opens_punctuation (c := '*') rfl
    refine ⟨hbefore.append (hstar.append (opens_constMark isConst)), ?_⟩
    exact closes_empty.append hbehind
  | array element count =>
    obtain ⟨t, ht, rfl⟩ := classified_array_iff.mp h
    obtain ⟨hbefore, hbehind⟩ := frame_opens hnames element hf.1 htags ht false
    -- no const mark here: an array keeps none of its own
    refine ⟨?_, ((closes_group pointing).append (closes_arrayBounds hf.2)).append hbehind⟩
    have hgroup := hbefore.append ((opens_group pointing).append (opens_constMark false))
    simpa [CType.frame, CKind.frame, Frame.closing, printed, sides, constTokens] using hgroup
  | function result args variadic =>
    obtain ⟨r, ts, hr, hts, rfl⟩ := classified_function_iff.mp h
    obtain ⟨hresult, hargs⟩ := List.forall_mem_append.mp htags
    obtain ⟨hbefore, hbehind⟩ := frame_opens hnames result hf.1 hresult hr false
    have hparameters := closes_abstractParameters
      (abstractList_spells hnames args hf.2.1 hargs hts) variadic
    refine ⟨?_, ((closes_group pointing).append hparameters).append hbehind⟩
    have hgroup := hbefore.append ((opens_group pointing).append (opens_constMark false))
    simpa [CType.frame, CKind.frame, Frame.closing, printed, sides, constTokens] using hgroup

theorem declareAs_spells (hnames : ∀ tag, names.ofClass tag = none) (f : Form) (hf : f.Valid)
    (htags : ∀ tag ∈ f.tags, isTagName tag) {c : CType} (h : f.Classified typedefs c) :
    Spells (c.declareAs names false false "") f.printed.tokens := by
  cases f with
  | words ws p isConst =>
    obtain rfl := classified_words_iff.mp h
    simp only [CType.declareAs, CKind.declareAs, raw, printed, tokens, sides, List.append_nil,
      made_spelling (.builtin p) nofun]
    exact spells_primitive hf.2.1
  | tagged tag isUnion isConst =>
    have htag : isTagName tag := htags tag List.mem_cons_self
    obtain rfl := (classified_tagged_iff (not_startsWith_const htag)).mp h
    simp only [CType.declareAs, CKind.declareAs, record_eq hnames, printed, tokens, sides,
      List.append_nil]
    exact (spells_record htag).qualified isConst
  | enum name isConst =>
    obtain rfl := classified_enum_iff.mp h
    simp only [CType.declareAs, CKind.declareAs, raw, RawType.enum, printed, tokens, sides,
      List.append_nil, made_spelling (.enum name) nofun]
    exact spells_enum (htags name List.mem_cons_self)
  | named name isConst =>
    obtain ⟨t, decl, rfl, hbindings⟩ := classified_named h
    simp only [CType.declareAs, CKind.declareAs, not_looksThrough hbindings, printed, tokens, sides,
      List.append_nil]
    exact (spells_word hf.identifier hf.notTag).qualified isConst
  | pointer pointee isConst =>
    obtain ⟨t, ht, rfl⟩ := classified_pointer_iff.mp h
    obtain ⟨hbefore, hbehind⟩ := frame_opens hnames pointee hf htags ht true
    have hconst : Spells ("*" ++ Bindery.qualified isConst "") (.star :: constTokens isConst) := by
      have hstar : Opens "*" [.star] := opens_punctuation (c := '*') rfl
      cases isConst with
      | false => exact hstar.spells
      | true => exact hstar.append_spells (spells_word rfl rfl)
    have hall := hconst.around hbefore hbehind
    rw [← t.declareAs_eq_around names false true (by simp)] at hall
    simpa [CType.declareAs, CKind.declareAs, printed, tokens, sides] using hall
  | array element count =>
    obtain ⟨t, ht, rfl⟩ := classified_array_iff.mp h
    obtain ⟨hbefore, hbehind⟩ := frame_opens hnames element hf.1 htags ht false
    have hall := (closes_arrayBounds hf.2).spells.around hbefore hbehind
    rw [← t.declareAs_eq_around names false false (by simp [arrayBounds])] at hall
    simpa [CType.declareAs, CKind.declareAs, parenthesised, Bindery.qualified, arrayBounds, printed,
      tokens, sides] using hall
  | function result args variadic =>
    obtain ⟨r, ts, hr, hts, rfl⟩ := classified_function_iff.mp h
    obtain ⟨hresult, hargs⟩ := List.forall_mem_append.mp htags
    obtain ⟨hbefore, hbehind⟩ := frame_opens hnames result hf.1 hresult hr false
    have hparameters := closes_abstractParameters
      (abstractList_spells hnames args hf.2.1 hargs hts) variadic
    have hall := hparameters.spells.around hbefore hbehind
    rw [← r.declareAs_eq_around names false false (by simp [abstractParameters])] at hall
    simpa [CType.declareAs, CKind.declareAs, parenthesised, Bindery.qualified, abstractParameters,
      printed, tokens, sides] using hall

theorem abstractList_spells (hnames : ∀ tag, names.ofClass tag = none) (fs : List Form)
    (hfs : ValidList fs) (htags : ∀ tag ∈ tagsList fs, isTagName tag) {cs : List CType}
    (h : List.Forall₂ (Classified typedefs) fs cs) :
    List.Forall₂ Spells (CType.abstractList names cs) (argTokens (printedList fs)) := by
  cases fs with
  | nil =>
    cases h
    exact .nil
  | cons f fs =>
    obtain _ | ⟨hc, hcs⟩ := h
    obtain ⟨hf, htags'⟩ := List.forall_mem_append.mp htags
    exact .cons (declareAs_spells hnames f hfs.1 hf hc)
      (abstractList_spells hnames fs hfs.2 htags' hcs)

end

end Form

end

end QualType

end Bindery
