import Bindery.Proofs.CType.Bindings
import Bindery.Proofs.CType.Classified
import Bindery.Proofs.CType.Erased
import Bindery.Proofs.CType.Frame
import Bindery.Proofs.QualType.Form

/-! The classified types of forms. What is printed has the same one, up to spellings. -/

namespace Bindery

namespace QualType

section

variable {typedefs : TypedefLookup} {isConst : Bool} {c : CType}

theorem resolved_made (kind : RawKind) (spelling : String) (isConst : Bool) :
    (made isConst (.ofKind kind spelling)).resolved typedefs =
      ⟨kind.resolved typedefs, (made isConst (.ofKind kind spelling)).spelling, isConst⟩ := by
  cases isConst with
  | false => rfl
  | true => cases kind <;> rfl

variable (typedefs)

/-- What a form is classified as when typedef names have their meaning. -/
def Form.Classified (f : Form) (c : CType) : Prop :=
  (f.raw.resolved typedefs).classify = .ok c

variable {typedefs}

namespace Form

theorem classified_words_iff {ws : List String} {p : Primitive} :
    (words ws p isConst).Classified typedefs c ↔
      c = ⟨.primitive p, (words ws p isConst).raw.spelling, isConst⟩ := by
  rw [Classified, raw, resolved_made]
  exact ⟨fun h => (Except.ok.inj h).symm, fun h => congrArg Except.ok h.symm⟩

theorem classified_enum_iff {name : String} :
    (enum name isConst).Classified typedefs c ↔
      c = ⟨.primitive .enum, (enum name isConst).raw.spelling, isConst⟩ := by
  rw [Classified, raw, RawType.enum, resolved_made]
  exact ⟨fun h => (Except.ok.inj h).symm, fun h => congrArg Except.ok h.symm⟩

theorem classified_tagged_iff {tag : String} {isUnion : Bool}
    (htag : tag.startsWith "const " = false) :
    (tagged tag isUnion isConst).Classified typedefs c ↔
      c = ⟨.record tag isUnion none, (tagged tag isUnion isConst).raw.spelling, isConst⟩ := by
  have hrecord : (RawType.ofKind (.record tag isUnion) tag).classify =
      .ok ⟨.record tag isUnion none, tag, false⟩ := by
    simp [RawType.classify, RawType.ofKind, RawType.classifyWith, RawKind.classifyWith, htag, pure,
      Except.pure]
  rw [Classified, raw, RawType.tagged, resolved_made]
  refine RawType.classify_elaborated_iff.trans ⟨?_, ?_⟩
  · rintro ⟨t, ht, rfl⟩
    cases hrecord.symm.trans ht
    rfl
  · intro h
    exact ⟨_, hrecord, h⟩

theorem classified_named {name : String} (h : (named name isConst).Classified typedefs c) :
    ∃ t decl, c = ⟨.typedef name t decl, (named name isConst).raw.spelling, isConst⟩ ∧
      t.bindings = [] := by
  have hbindings := RawType.bindings_of_classify h
  rw [Classified, raw, resolved_made, RawKind.resolved] at h
  cases hmeaning : typedefs name with
  | none =>
    rw [hmeaning] at h
    cases h
  | some meaning =>
    rw [hmeaning] at h
    obtain ⟨t, _, rfl⟩ := RawType.classify_typedef_iff.mp h
    exact ⟨t, meaning.2, rfl, hbindings⟩

theorem classified_pointer_iff {f : Form} :
    (pointer f isConst).Classified typedefs c ↔ ∃ t, f.Classified typedefs t ∧
      c = ⟨.pointer t, (pointer f isConst).raw.spelling, isConst⟩ := by
  rw [Classified, raw, RawType.pointer, resolved_made]
  exact RawType.classify_pointer_iff

theorem classified_array_iff {f : Form} {count : Option Nat} :
    (array f count).Classified typedefs c ↔ ∃ t, f.Classified typedefs t ∧
      c = ⟨.array t count, (array f count).raw.spelling, false⟩ := by
  cases count with
  | none => exact RawType.classify_incompleteArray_iff
  | some n => exact RawType.classify_constantArray_iff

theorem resolvedList_rawList (fs : List Form) :
    RawType.resolvedList typedefs (rawList fs) = fs.map fun f => f.raw.resolved typedefs := by
  induction fs with
  | nil => rfl
  | cons f fs ih => simp [rawList, RawType.resolvedList, ih]

theorem classified_function_iff {f : Form} {fs : List Form} {variadic : Bool} :
    (function f fs variadic).Classified typedefs c ↔ ∃ r ts, f.Classified typedefs r ∧
      List.Forall₂ (Classified typedefs) fs ts ∧
        c = ⟨.function r ts none variadic, (function f fs variadic).raw.spelling, false⟩ := by
  rw [Classified, raw, RawType.function]
  refine RawType.classify_function_iff.trans ?_
  rw [resolvedList_rawList]
  simp only [List.forall₂_map_left_iff]
  rfl

mutual

/-- What is printed of a form has the same type, with other spellings. -/
theorem classified_printed (f : Form) {c : CType} (h : f.Classified typedefs c) :
    ∃ c', f.printed.Classified typedefs c' ∧ c'.erased = c.erased := by
  cases f with
  | words ws p isConst =>
    obtain rfl := classified_words_iff.mp h
    exact ⟨_, classified_words_iff.mpr rfl, rfl⟩
  | tagged tag isUnion isConst => exact ⟨c, h, rfl⟩
  | enum name isConst => exact ⟨c, h, rfl⟩
  | named name isConst => exact ⟨c, h, rfl⟩
  | pointer pointee isConst =>
    obtain ⟨t, ht, rfl⟩ := classified_pointer_iff.mp h
    obtain ⟨t', ht', he⟩ := classified_printed pointee ht
    refine ⟨_, classified_pointer_iff.mpr ⟨t', ht', rfl⟩, ?_⟩
    simp only [CType.erased, CKind.erased, he]
  | array element count =>
    obtain ⟨t, ht, rfl⟩ := classified_array_iff.mp h
    obtain ⟨t', ht', he⟩ := classified_printed element ht
    refine ⟨_, classified_array_iff.mpr ⟨t', ht', rfl⟩, ?_⟩
    simp only [CType.erased, CKind.erased, he]
  | function result args variadic =>
    obtain ⟨r, ts, hr, hts, rfl⟩ := classified_function_iff.mp h
    obtain ⟨r', hr', he⟩ := classified_printed result hr
    obtain ⟨ts', hts', hes⟩ := classified_printedList args hts
    refine ⟨_, classified_function_iff.mpr ⟨r', ts', hr', hts', rfl⟩, ?_⟩
    simp only [CType.erased, CKind.erased, he, hes]

theorem classified_printedList (fs : List Form) {cs : List CType}
    (h : List.Forall₂ (Classified typedefs) fs cs) :
    ∃ cs', List.Forall₂ (Classified typedefs) (printedList fs) cs' ∧
      CType.erasedList cs' = CType.erasedList cs := by
  cases fs with
  | nil =>
    cases h
    exact ⟨[], .nil, rfl⟩
  | cons f fs =>
    obtain _ | ⟨hc, hcs⟩ := h
    obtain ⟨c', hc', he⟩ := classified_printed f hc
    obtain ⟨cs', hcs', hes⟩ := classified_printedList fs hcs
    refine ⟨c' :: cs', .cons hc' hcs', ?_⟩
    simp only [CType.erasedList, he, hes]

end

end Form

end

end QualType

end Bindery
