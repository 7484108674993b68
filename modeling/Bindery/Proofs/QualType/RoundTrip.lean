import Bindery.Binding.Context
import Bindery.Proofs.QualType.Printed
import Bindery.Proofs.QualType.Rereading

/-! Reading a declaration back gives a type that differs from the first in spellings only. -/

namespace Bindery

mutual

/-- The tags that a type shows. What a typedef stands for is not shown. -/
def RawType.tags : RawType → List String
  | ⟨kind, _, _⟩ => kind.tags

def RawKind.tags : RawKind → List String
  | .builtin _ => []
  | .elaborated inner => inner.tags
  | .pointer pointee => pointee.tags
  | .constantArray element _ => element.tags
  | .incompleteArray element => element.tags
  | .typedef _ _ _ => []
  | .record name _ => [name]
  | .enum name => [name]
  | .function result args _ => result.tags ++ RawType.tagsList args
  | .unexposed _ => []

def RawType.tagsList : List RawType → List String
  | [] => []
  | t :: ts => t.tags ++ RawType.tagsList ts

end

theorem RawType.tags_respelled (t : RawType) (spelling : String) :
    (t.respelled spelling).tags = t.tags := by
  cases t
  rfl

/-- The spelling of every primitive type but the boolean one is shown as it is. -/
def CType.Verbatim (c : CType) : Prop :=
  ∃ p, p ≠ .bool ∧ c.kind = .primitive p

theorem CType.Verbatim.frame {c : CType} (h : c.Verbatim) (names : RecordNames) (pointing : Bool) :
    c.frame names false pointing = ⟨c.spelling ++ " ", ""⟩ := by
  obtain ⟨p, hp, hkind⟩ := h
  obtain ⟨kind, spelling, isConst⟩ := c
  obtain rfl : kind = .primitive p := hkind
  simp only [CType.frame, CKind.frame, RecordNames.primitive_verbatim hp]

theorem CType.Verbatim.declare {c : CType} (h : c.Verbatim) (names : RecordNames) :
    c.declare names "" false = c.spelling := by
  obtain ⟨p, hp, hkind⟩ := h
  obtain ⟨kind, spelling, isConst⟩ := c
  obtain rfl : kind = .primitive p := hkind
  exact RecordNames.primitive_verbatim hp spelling isConst

theorem CType.bool_of_not_verbatim {p : Primitive} {spelling : String} {isConst : Bool}
    (h : ¬ (⟨.primitive p, spelling, isConst⟩ : CType).Verbatim) : p = .bool := by
  by_contra hp
  exact h ⟨p, hp, rfl⟩

theorem CType.frame_respelled {c : CType} (h : ¬ c.Verbatim) (names : RecordNames) (pointing : Bool)
    (spelling : String) :
    (c.respelled spelling).frame names false pointing = c.frame names false pointing := by
  obtain ⟨kind, written, isConst⟩ := c
  cases kind with
  | primitive p =>
    obtain rfl := CType.bool_of_not_verbatim h
    rfl
  | _ => rfl

theorem CType.declare_respelled {c : CType} (h : ¬ c.Verbatim) (names : RecordNames)
    (expr spelling : String) :
    (c.respelled spelling).declare names expr false = c.declare names expr false := by
  obtain ⟨kind, written, isConst⟩ := c
  cases kind with
  | primitive p =>
    obtain rfl := CType.bool_of_not_verbatim h
    rfl
  | _ => rfl

namespace QualType

namespace Form

mutual

theorem tags_raw (typedefs : TypedefLookup) (f : Form) : (f.raw.resolved typedefs).tags = f.tags := by
  cases f with
  | words ws p isConst =>
    rw [raw, resolved_made]
    rfl
  | tagged tag isUnion isConst =>
    rw [raw, RawType.tagged, resolved_made]
    rfl
  | enum name isConst =>
    rw [raw, RawType.enum, resolved_made]
    rfl
  | named name isConst =>
    rw [raw, resolved_made, RawKind.resolved]
    cases typedefs name <;> rfl
  | pointer pointee isConst =>
    rw [raw, RawType.pointer, resolved_made]
    exact tags_raw typedefs pointee
  | array element count =>
    cases count <;> exact tags_raw typedefs element
  | function result args variadic =>
    have hresult := tags_raw typedefs result
    have hargs := tagsList_raw typedefs args
    exact congrArg₂ (· ++ ·) hresult hargs

theorem tagsList_raw (typedefs : TypedefLookup) (fs : List Form) :
    RawType.tagsList (RawType.resolvedList typedefs (rawList fs)) = tagsList fs := by
  cases fs with
  | nil => rfl
  | cons f fs => exact congrArg₂ (· ++ ·) (tags_raw typedefs f) (tagsList_raw typedefs fs)

end

end Form

theorem resolved_respelled (typedefs : TypedefLookup) (t : RawType) (spelling : String) :
    (t.respelled spelling).resolved typedefs = (t.resolved typedefs).respelled spelling := by
  cases t
  rfl

theorem tryParse_iff {names : TypeNames} {text : String} {t : RawType} :
    tryParse names text = .ok t ↔ ∃ ts u, tokenize text.toList = .ok ts ∧
      ReadsType names.anonymous ts u [] ∧
        t = (u.resolved names.typedefs).respelled (trimmed text) := by
  constructor
  · intro h
    unfold tryParse at h
    split at h
    · next u asked hread =>
      cases h
      obtain ⟨ts, hts, hread⟩ := except_bind_ok hread
      obtain ⟨⟨u', asked', r, hr⟩, htype, hread⟩ := except_bind_ok hread
      simp only at hread
      split at hread
      · next hend =>
        cases hread
        obtain rfl := List.isEmpty_iff.mp hend
        exact ⟨ts, u', mapError_ok hts, ⟨_, hr, htype⟩, resolved_respelled _ u' _⟩
      · cases hread
    · cases h
  · rintro ⟨ts, u, hts, ⟨asked, hr, htype⟩, rfl⟩
    have hread : read names.anonymous text = .ok (u.respelled (trimmed text), asked) := by
      unfold read
      rw [hts]
      simp only [htype, ok_mapError, bind, Except.bind, List.isEmpty_nil, if_true, pure,
        Except.pure]
      rfl
    unfold tryParse
    rw [hread, ← resolved_respelled]

/-- Tokens that are read as a form give its type, from whatever text they come. -/
theorem tryParse_form {names : TypeNames} {text : String} {ts : List Token} {f : Form} {c : CType}
    (hts : tokenize text.toList = .ok ts) (hr : ReadsType names.anonymous ts f.raw [])
    (hc : f.Classified names.typedefs c) :
    ∃ t' c', tryParse names text = .ok t' ∧ t'.classify = .ok c' ∧ c'.erased = c.erased :=
  ⟨_, _, tryParse_iff.mpr ⟨ts, f.raw, hts, hr, rfl⟩, RawType.classify_respelled hc (trimmed text),
    c.erased_respelled (trimmed text)⟩

theorem form_of_tryParse {names : TypeNames} {s : String} {t : RawType}
    (h : tryParse names s = .ok t) : ∃ (f : Form) (ts : List Token), f.Valid ∧
      tokenize s.toList = .ok ts ∧ ReadsType names.anonymous ts f.raw [] ∧
        t = (f.raw.resolved names.typedefs).respelled (trimmed s) := by
  obtain ⟨ts, u, hts, hread, rfl⟩ := tryParse_iff.mp h
  obtain ⟨asked, hr, htype⟩ := hread
  obtain ⟨⟨f, hf, rfl⟩, _⟩ := typeName_sound names.anonymous ts u asked _
    (lexes_of_tokenize hts).sound htype
  exact ⟨f, ts, hf, hts, ⟨asked, hr, htype⟩, rfl⟩

/-- A primitive type is shown by the text it was read from, without the blanks around it. -/
theorem tokenize_verbatim {s : String} {ts : List Token} {c : CType} (hv : c.Verbatim)
    (hs : c.spelling = trimmed s) (hts : tokenize s.toList = .ok ts) (names : RecordNames) :
    tokenize ((c.frame names false false).before ++ " " ++
        (c.frame names false false).behind).toList = .ok ts ∧
      tokenize (c.declare names "" false).toList = .ok ts := by
  have htrim := tokenize_trim hts
  rw [hv.frame, hv.declare, hs]
  constructor
  · have hbl : ∀ c ∈ [' ', ' '], isAsciiBlank c = true := by simp [isAsciiBlank]
    have hblanks : tokenize (trim s.toList ++ [' ', ' ']) = .ok ts :=
      (tokenize_append_blanks hbl _).trans htrim
    simpa [trimmed] using hblanks
  · simpa [trimmed] using htrim

/-- Every other type is shown by the tokens of its printed form. -/
theorem tokenize_printed {typedefs : TypedefLookup} {f : Form} {c : CType} {spelling : String}
    (hf : f.Valid) (htags : ∀ tag ∈ f.tags, isTagName tag) (hv : ¬ c.Verbatim)
    (h : f.Classified typedefs (c.respelled spelling)) {names : RecordNames}
    (hnames : ∀ tag, names.ofClass tag = none) :
    tokenize ((c.frame names false false).before ++ " " ++
        (c.frame names false false).behind).toList = .ok f.printed.tokens ∧
      tokenize (c.declare names "" false).toList = .ok f.printed.tokens := by
  obtain ⟨hbefore, hbehind⟩ := Form.frame_opens hnames f hf htags h false
  have hempty := Form.declareAs_spells hnames f hf htags h
  rw [CType.frame_respelled hv] at hbefore hbehind
  rw [← CType.declare, CType.declare_respelled hv] at hempty
  have hframe := (hbefore.append opens_blank).append_spells hbehind.spells
  rw [List.append_nil] at hframe
  exact ⟨hframe.tokenize_eq, hempty.tokenize_eq⟩

end QualType

/-- What the declarator of a read type writes around a name is read back as the type. -/
theorem declarator_reads_back {names : QualType.TypeNames} {s : String} {t : RawType} {c : CType}
    (hparse : QualType.tryParse names s = .ok t) (hc : t.classify = .ok c)
    (htags : ∀ tag ∈ t.tags, QualType.isTagName tag) :
    ∃ a b : String,
      (∀ n, n ≠ "" → c.declare ({} : Context).recordNames n false = a ++ n ++ b) ∧
      ∀ text ∈ [a ++ " " ++ b, c.declare ({} : Context).recordNames "" false],
        ∃ t' c', QualType.tryParse names text = .ok t' ∧ t'.classify = .ok c' ∧
          c'.erased = c.erased := by
  obtain ⟨f, ts, hf, hts, hread, rfl⟩ := QualType.form_of_tryParse hparse
  have hform : f.Classified names.typedefs
      (c.respelled (f.raw.resolved names.typedefs).spelling) := by
    rw [QualType.Form.Classified, ← RawType.respelled_self (f.raw.resolved names.typedefs)]
    exact RawType.classify_respelled hc (f.raw.resolved names.typedefs).spelling
  have hftags : ∀ tag ∈ f.tags, QualType.isTagName tag := by
    rwa [RawType.tags_respelled, QualType.Form.tags_raw] at htags
  refine ⟨(c.frame ({} : Context).recordNames false false).before,
    (c.frame ({} : Context).recordNames false false).behind,
    fun n hn => c.declare_eq_around _ false hn, fun text htext => ?_⟩
  simp only [List.mem_cons, List.not_mem_nil, or_false] at htext
  rw [← c.erased_respelled (f.raw.resolved names.typedefs).spelling]
  by_cases hv : c.Verbatim
  · -- the words of the text need not be in the order of the printed form, so it is read once more
    obtain ⟨hframe, hempty⟩ := QualType.tokenize_verbatim hv (RawType.spelling_of_classify hc) hts
      ({} : Context).recordNames
    have htokens : QualType.tokenize text.toList = .ok ts := by
      rcases htext with rfl | rfl
      · exact hframe
      · exact hempty
    exact QualType.tryParse_form htokens hread hform
  · have hnames : ∀ tag, (({} : Context).recordNames).ofClass tag = none := fun _ => rfl
    obtain ⟨hframe, hempty⟩ := QualType.tokenize_printed hf hftags hv hform hnames
    have htokens : QualType.tokenize text.toList = .ok f.printed.tokens := by
      rcases htext with rfl | rfl
      · exact hframe
      · exact hempty
    obtain ⟨c', hc', he⟩ := QualType.Form.classified_printed f hform
    rw [← he]
    exact QualType.tryParse_form htokens (f.printed.readsType_tokens (f.valid_printed hf)) hc'

/-- Names for one typedef. -/
def sizeNames : QualType.TypeNames where
  typedefs n := if n = "size_t" then some (.builtin .ulong, none) else none
  anonymous _ := none

def rowCallback : QualType.Form :=
  .pointer (.function (.pointer (.tagged "row" false true) false)
    [.array (.named "size_t" false) (some 4)] true) true

theorem rowCallback_valid : rowCallback.Valid := by
  have hsize : QualType.PlainName "size_t" := by
    constructor <;> decide
  exact ⟨trivial, ⟨⟨hsize, by decide⟩, trivial⟩, rfl⟩

def rowText : String :=
  "struct row const *(*const)(size_t [4], ...)"

theorem row_callback_reads_back : ∃ t c,
    QualType.tryParse sizeNames rowText = .ok t ∧ t.classify = .ok c ∧
    (∀ tag ∈ t.tags, QualType.isTagName tag) ∧
    ∃ a b : String,
      (∀ n, n ≠ "" → c.declare ({} : Context).recordNames n false = a ++ n ++ b) ∧
      ∀ text ∈ [a ++ " " ++ b, c.declare ({} : Context).recordNames "" false],
        ∃ t' c', QualType.tryParse sizeNames text = .ok t' ∧ t'.classify = .ok c' ∧
          c'.erased = c.erased := by
  have htokens : QualType.tokenize rowText.toList = .ok rowCallback.tokens := by
    decide +kernel
  have hreads : QualType.ReadsType sizeNames.anonymous rowCallback.tokens rowCallback.raw [] :=
    rowCallback.readsType_tokens rowCallback_valid
  have ht : QualType.tryParse sizeNames rowText =
      .ok ((rowCallback.raw.resolved sizeNames.typedefs).respelled (trimmed rowText)) :=
    QualType.tryParse_iff.mpr ⟨rowCallback.tokens, rowCallback.raw, htokens, hreads, rfl⟩
  have htags : ∀ tag ∈ ((rowCallback.raw.resolved sizeNames.typedefs).respelled
      (trimmed rowText)).tags, QualType.isTagName tag := by
    decide
  have hsome : ((rowCallback.raw.resolved sizeNames.typedefs).respelled
      (trimmed rowText)).classify.toOption.isSome = true := by
    decide
  rcases hc : ((rowCallback.raw.resolved sizeNames.typedefs).respelled
      (trimmed rowText)).classify with _ | c
  · rw [hc] at hsome
    cases hsome
  · exact ⟨_, c, ht, hc, htags, declarator_reads_back ht hc htags⟩

end Bindery
