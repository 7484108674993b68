import Bindery.Proofs.CType.Qualifiers
import Bindery.Proofs.QualType.RoundTrip

/-! The qualifiers of types that are read from text, in typedefs and in spellings. -/

namespace Bindery

namespace RawType

theorem constant_isConst (t : RawType) : t.constant.isConst = true := by
  rw [constant]
  split
  · assumption
  · split <;> rfl

theorem isConst_of_classifyWith {meaning : RawType → Except BindError CType} {t : RawType}
    {c : CType} (hconst : t.isConst = true) (h : t.classifyWith meaning = .ok c) : c.isConst = true := by
  obtain ⟨kind, spelling, isConst⟩ := t
  obtain rfl : isConst = true := hconst
  cases kind with
  | builtin p => cases h; rfl
  | enum name => cases h; rfl
  | record name isUnion => cases h; rfl
  | unexposed text => cases h
  | elaborated inner =>
    obtain ⟨t, _, rfl⟩ := except_bind_pure_iff.mp h
    exact Bool.or_true t.isConst
  | pointer pointee =>
    obtain ⟨t, _, rfl⟩ := except_bind_pure_iff.mp h
    rfl
  | constantArray element n =>
    obtain ⟨t, _, rfl⟩ := except_bind_pure_iff.mp h
    rfl
  | incompleteArray element =>
    obtain ⟨t, _, rfl⟩ := except_bind_pure_iff.mp h
    rfl
  | typedef name underlying decl =>
    obtain ⟨t, _, rfl⟩ := except_bind_pure_iff.mp h
    rfl
  | function result args variadic =>
    obtain ⟨r, _, hrest⟩ := except_bind_ok h
    obtain ⟨as, _, he⟩ := except_bind_ok hrest
    cases he
    rfl

end RawType

theorem CType.carried_respelled_iff {c : CType} {spelling : String} :
    (c.respelled spelling).Carried ↔ c.Carried := by
  obtain ⟨kind, written, isConst⟩ := c
  exact Iff.rfl

namespace QualType

section

variable {typedefs : TypedefLookup} {c : CType}

namespace Form

theorem carried_named {name : String} {isConst : Bool}
    (h : (named name isConst).Classified typedefs c) : c.Carried := by
  rw [Classified, raw, resolved_made, RawKind.resolved] at h
  cases hmeaning : typedefs name with
  | none =>
    rw [hmeaning] at h
    cases h
  | some meaning =>
    rw [hmeaning] at h
    obtain ⟨t, ht, rfl⟩ := RawType.classify_typedef_iff.mp h
    intro hconst
    rw [if_pos hconst] at ht
    exact RawType.isConst_of_classifyWith (RawType.constant_isConst _) ht

/-- A tag is read as a record. Its name is the tag, but for a `const` in front of it. -/
theorem classified_tagged {tag : String} {isUnion isConst : Bool}
    (h : (tagged tag isUnion isConst).Classified typedefs c) :
    ∃ tag' spelling, c = ⟨.record tag' isUnion none, spelling, isConst⟩ := by
  rw [Classified, raw, RawType.tagged, resolved_made] at h
  obtain ⟨t, ht, rfl⟩ := RawType.classify_elaborated_iff.mp h
  cases ht
  exact ⟨_, _, rfl⟩

mutual

theorem carried_of_classified (f : Form) {c : CType} (h : f.Classified typedefs c) : c.Carried := by
  cases f with
  | words ws p isConst =>
    obtain rfl := classified_words_iff.mp h
    trivial
  | tagged tag isUnion isConst =>
    obtain ⟨tag', spelling, rfl⟩ := classified_tagged h
    trivial
  | enum name isConst =>
    obtain rfl := classified_enum_iff.mp h
    trivial
  | named name isConst => exact carried_named h
  | pointer pointee isConst =>
    obtain ⟨t, ht, rfl⟩ := classified_pointer_iff.mp h
    have hpointee := carried_of_classified pointee ht
    exact hpointee
  | array element count =>
    obtain ⟨t, ht, rfl⟩ := classified_array_iff.mp h
    have helement := carried_of_classified element ht
    exact helement
  | function result args variadic =>
    obtain ⟨r, ts, hr, hts, rfl⟩ := classified_function_iff.mp h
    exact ⟨carried_of_classified result hr, carriedList_of_classified args hts⟩

theorem carriedList_of_classified (fs : List Form) {cs : List CType}
    (h : List.Forall₂ (Classified typedefs) fs cs) : CType.CarriedList cs := by
  cases fs with
  | nil =>
    cases h
    trivial
  | cons f fs =>
    obtain _ | ⟨hc, hcs⟩ := h
    exact ⟨carried_of_classified f hc, carriedList_of_classified fs hcs⟩

end

/-- A primitive base that the reader has made is spelled by the words of its form. -/
theorem base_spelled (f : Form) (hf : f.Valid) (htags : ∀ tag ∈ f.tags, isTagName tag) {c : CType}
    (h : f.Classified typedefs c) {p : Primitive} (hp : c.base.kind = .primitive p) :
    ∃ g : Form, g.Valid ∧ g.Classified typedefs c.base ∧
      tokenize c.base.spelling.toList = .ok g.tokens := by
  cases f with
  | words ws p isConst =>
    obtain rfl := classified_words_iff.mp h
    have hwords := spells_words fun w hw => builtinWords_spelled (hf.2.1 w hw)
    have hspelled := (opens_constMark isConst).append_spells hwords
    rw [← made_spelling (.builtin p) (by rintro t ⟨⟩)] at hspelled
    refine ⟨words ws p isConst, hf, h, ?_⟩
    rw [tokens, sides, List.append_nil]
    exact hspelled.tokenize_eq
  | tagged tag isUnion isConst =>
    obtain ⟨tag', spelling, rfl⟩ := classified_tagged h
    cases hp
  | enum name isConst =>
    obtain rfl := classified_enum_iff.mp h
    have hspelled : Spells (constMark isConst ++ ("enum " ++ name))
        (constTokens isConst ++ [.word "enum", .word name]) :=
      spells_enum (htags name List.mem_cons_self)
    rw [← made_spelling (.enum name) (by rintro t ⟨⟩)] at hspelled
    refine ⟨enum name isConst, hf, h, ?_⟩
    rw [tokens, sides, List.append_nil]
    exact hspelled.tokenize_eq
  | named name isConst =>
    obtain ⟨t, decl, rfl, _⟩ := classified_named h
    cases hp
  | pointer pointee isConst =>
    obtain ⟨t, ht, rfl⟩ := classified_pointer_iff.mp h
    have hpointee := base_spelled pointee hf htags ht hp
    exact hpointee
  | array element count =>
    obtain ⟨t, ht, rfl⟩ := classified_array_iff.mp h
    have helement := base_spelled element hf.1 htags ht hp
    exact helement
  | function result args variadic =>
    obtain ⟨r, ts, hr, _, rfl⟩ := classified_function_iff.mp h
    have hresult := base_spelled result hf.1 (List.forall_mem_append.mp htags).1 hr hp
    exact hresult

end Form

theorem tryParse_tokens {names : TypeNames} {text : String} {f : Form} {c : CType} (hf : f.Valid)
    (hts : tokenize text.toList = .ok f.tokens) (hc : f.Classified names.typedefs c) :
    ∃ t, tryParse names text = .ok t ∧ t.tags = f.tags ∧
      t.classify = .ok (c.respelled (trimmed text)) := by
  refine ⟨(f.raw.resolved names.typedefs).respelled (trimmed text),
    tryParse_iff.mpr ⟨f.tokens, f.raw, hts, f.readsType_tokens hf, rfl⟩, ?_,
    RawType.classify_respelled hc (trimmed text)⟩
  rw [RawType.tags_respelled, Form.tags_raw]

end

end QualType

/-- A primitive base below the outermost level keeps its spelling. -/
theorem CType.base_respelled {c : CType} {p : Primitive} (h : c.base.kind = .primitive p)
    (hc : ∀ p, c.kind ≠ .primitive p) (spelling : String) :
    (c.respelled spelling).base = c.base := by
  obtain ⟨kind, written, isConst⟩ := c
  cases kind with
  | primitive p => exact absurd rfl (hc p)
  | record tag isUnion binding => cases h
  | typedef name canonical decl => cases h
  | _ => rfl

theorem CType.base_of_primitive {c : CType} {p : Primitive} (h : c.kind = .primitive p) :
    c.base = c := by
  obtain ⟨kind, spelling, isConst⟩ := c
  obtain rfl : kind = .primitive p := h
  rfl

/-- A declaration of a read type is the name of its base and a declarator, with a qualifier for each
const level: the spelling of a primitive base reads back as the base, and the declarator is the same
in a template. There the qualifier of the base is missing if, and only if, the base is `void`. -/
theorem qualifiers_written_iff {typeNames : QualType.TypeNames} {s : String} {t : RawType}
    {c : CType} (hparse : QualType.tryParse typeNames s = .ok t) (hc : t.classify = .ok c) :
    (∀ p, c.base.kind = .primitive p → (∀ tag ∈ t.tags, QualType.isTagName tag) →
      ∃ t' c', QualType.tryParse typeNames c.base.spelling = .ok t' ∧ t'.classify = .ok c' ∧
        c'.erased = c.base.erased) ∧
    ∀ (names : RecordNames) (expr : String) (template : Bool),
      c.declare names expr template =
          spaced (c.base.named names template) (c.declarator names false expr) ↔
        ¬(template ∧ c.base.isVoid ∧ c.base.isConst) := by
  obtain ⟨f, ts, hf, hts, hread, rfl⟩ := QualType.form_of_tryParse hparse
  have hform : f.Classified typeNames.typedefs
      (c.respelled (f.raw.resolved typeNames.typedefs).spelling) := by
    rw [QualType.Form.Classified, ← RawType.respelled_self (f.raw.resolved typeNames.typedefs)]
    exact RawType.classify_respelled hc (f.raw.resolved typeNames.typedefs).spelling
  refine ⟨fun p hp htags => ?_, fun names expr template => ?_⟩
  · rw [RawType.tags_respelled, QualType.Form.tags_raw] at htags
    by_cases hself : ∃ p, c.kind = .primitive p
    · -- the base is the whole type, so its spelling is the text that it was read from
      obtain ⟨p, hkind⟩ := hself
      have htokens : QualType.tokenize (trimmed s).toList = .ok ts := by
        simpa [trimmed] using QualType.tokenize_trim hts
      rw [CType.base_of_primitive hkind, RawType.spelling_of_classify hc,
        ← c.erased_respelled (f.raw.resolved typeNames.typedefs).spelling]
      exact QualType.tryParse_form htokens hread hform
    · have hbase := CType.base_respelled hp (fun p hk => hself ⟨p, hk⟩)
        (f.raw.resolved typeNames.typedefs).spelling
      obtain ⟨g, hg, hgc, htokens⟩ := f.base_spelled hf htags hform (hbase ▸ hp)
      rw [hbase] at hgc htokens
      exact QualType.tryParse_form htokens (g.readsType_tokens hg) hgc
  · have hcarried := CType.carried_respelled_iff.mp (QualType.Form.carried_of_classified f hform)
    exact CType.declare_eq_spaced_iff names hcarried expr template

def noNames : QualType.TypeNames where
  typedefs _ := none
  anonymous _ := none

/-- The type `const bool *const`. -/
def fixedFlag : QualType.Form :=
  .pointer (.words ["bool"] .bool true) true

/-- A const pointer to a const flag keeps both qualifiers in a template. -/
theorem fixedFlag_qualified : ∃ t c,
    QualType.tryParse noNames "const bool *const" = .ok t ∧ t.classify = .ok c ∧
    (∃ t' c', QualType.tryParse noNames "const bool" = .ok t' ∧ t'.classify = .ok c' ∧
      c'.erased = ⟨.primitive .bool, "", true⟩) ∧
    c.declare {} "flag" false = "const bool *const flag" ∧
    c.declare {} "flag" true = "const bool *const flag" := by
  have hvalid : fixedFlag.Valid := ⟨by decide, by decide, rfl⟩
  have htokens : QualType.tokenize "const bool *const".toList = .ok fixedFlag.tokens := by
    decide +kernel
  have hflag : fixedFlag.Classified noNames.typedefs _ :=
    QualType.Form.classified_pointer_iff.mpr
      ⟨_, QualType.Form.classified_words_iff.mpr rfl, rfl⟩
  obtain ⟨t, ht, htags, hc⟩ := QualType.tryParse_tokens hvalid htokens hflag
  obtain ⟨hbase, hwritten⟩ := qualifiers_written_iff ht hc
  have hread := hbase .bool rfl (htags ▸ by decide)
  have hplain := (hwritten {} "flag" false).mpr (by decide)
  have htemplate := (hwritten {} "flag" true).mpr (by decide)
  exact ⟨t, _, ht, hc, hread, hplain, htemplate⟩

/-- The type `const void *`. -/
def voidData : QualType.Form :=
  .pointer (.words ["void"] .void true) false

/-- The placeholder of `void` loses the qualifier. -/
theorem voidData_unqualified : ∃ t c,
    QualType.tryParse noNames "const void *" = .ok t ∧ t.classify = .ok c ∧
    c.declare {} "data" false = "const void *data" ∧
    c.declare {} "data" true = "TYPE *data" ∧
    spaced (c.base.named {} true) (c.declarator {} false "data") = "const TYPE *data" := by
  have hvalid : voidData.Valid := ⟨by decide, by decide, rfl⟩
  have htokens : QualType.tokenize "const void *".toList = .ok voidData.tokens := by
    decide +kernel
  have hdata : voidData.Classified noNames.typedefs _ :=
    QualType.Form.classified_pointer_iff.mpr
      ⟨_, QualType.Form.classified_words_iff.mpr rfl, rfl⟩
  obtain ⟨t, ht, -, hc⟩ := QualType.tryParse_tokens hvalid htokens hdata
  exact ⟨t, _, ht, hc, by decide, by decide, by decide⟩

end Bindery
