import Bindery.Proofs.QualType.RoundTrip

/-! Tokens that are read as a record or an enumeration itself, with qualifiers around them. -/

namespace Bindery

/-- A pointer, an array or a function. -/
def RawType.isDerived (t : RawType) : Bool :=
  match t.kind with
  | .pointer _ => true
  | .constantArray _ _ => true
  | .incompleteArray _ => true
  | .function _ _ _ => true
  | _ => false

namespace QualType

variable {anonymous : String → Option String} {t u v : RawType} {ts rest r : List Token}
  {s s' : Specifiers} {tag name : String} {b : RawType}

/-- The kind of a record or an enumeration with the keyword `tag`. -/
def taggedKind (tag name : String) : RawKind :=
  if tag == "enum" then .enum name else .elaborated (.ofKind (.record name (tag == "union")) name)

theorem isDerived_made (isConst : Bool) (t : RawType) : (made isConst t).isDerived = t.isDerived := by
  obtain ⟨kind, spelling, isConst'⟩ := t
  cases isConst <;> cases isConst' <;> cases kind <;> rfl

theorem pointers_outer (t : RawType) (ts : List Token) :
    ((pointers t ts).1 = t ∧ (pointers t ts).2.1 = ts) ∨ (pointers t ts).1.isDerived := by
  fun_induction pointers t ts with
  | case1 t rest t' r _ hq t'' r' _ hp ih =>
    obtain ⟨isConst, ht'⟩ := (pointerQualifiers_made (.pointer t) rest).1
    rw [hq] at ht'
    have hderived : t'.isDerived := by rw [show t' = made isConst (.pointer t) from ht', isDerived_made]; rfl
    rw [hp] at ih
    right
    rcases ih with ⟨rfl, -⟩ | h
    · exact hderived
    · exact h
  | case2 t => exact .inl ⟨rfl, rfl⟩

theorem applySuffixes_outer (sfx : List Suffix) (t : RawType) :
    sfx = [] ∨ (applySuffixes sfx t).isDerived := by
  cases sfx with
  | nil => exact .inl rfl
  | cons s sfx =>
    right
    rw [applySuffixes, List.foldr_cons]
    cases s with
    | array count => cases count <;> rfl
    | function params => rfl

theorem suffixes_none (h : ∃ hr, suffixes anonymous ts = .ok ([], ⟨rest, hr⟩)) : rest = ts := by
  obtain ⟨hr, h⟩ := h
  rw [suffixes.eq_def] at h
  split at h
  · obtain ⟨_, _, h⟩ := except_bind_ok h
    obtain ⟨_, _, h⟩ := except_bind_ok h
    cases h
  · obtain ⟨_, _, h⟩ := except_bind_ok h
    obtain ⟨_, _, h⟩ := except_bind_ok h
    cases h
  · cases h
    rfl

theorem groupedTokens_head {inner : List Token} (h : groupedTokens ts = some (x :: inner)) :
    x ≠ .closeParen := by
  unfold groupedTokens at h
  split at h <;> cases h <;> nofun

/-- A declarator that makes something else of a type makes a pointer, an array or a function. -/
theorem declarator_outer (h : ReadsAround anonymous u ts t rest) :
    (t = u ∧ rest = ts) ∨ t.isDerived := by
  -- on the length: what stands in a group is read as a declarator of its own
  induction hn : ts.length using Nat.strongRecOn generalizing u ts t rest with
  | ind n ih =>
    subst hn
    obtain ⟨asked, hlen, h⟩ := h
    obtain ⟨v, ⟨r, hr⟩, hp⟩ : ∃ v r, pointers u ts = (v, r) := ⟨_, _, rfl⟩
    have hpointers := pointers_outer u ts
    rw [hp] at hpointers
    cases hgroup : groupedTokens r with
    | none =>
      rw [declarator_plain anonymous hp hgroup] at h
      obtain ⟨⟨sfx, r', hr'⟩, hsuffixes, he⟩ := except_map_ok h
      cases he
      rcases applySuffixes_outer sfx v with rfl | hderived
      · obtain rfl := suffixes_none ⟨_, hsuffixes⟩
        exact hpointers
      · exact .inr hderived
    | some inner =>
      cases hsplit : splitTokens inner with
      | none =>
        rw [declarator_unbalanced anonymous hp hgroup hsplit] at h
        cases h
      | some p =>
        obtain ⟨inside, behind⟩ := p
        have hshorter : inner.length < ts.length := (groupedTokens_length hgroup).trans_le hr
        have hlonger := splitGroup_length hsplit
        rw [declarator_grouped anonymous hp hgroup hsplit (by omega)] at h
        obtain ⟨⟨sfx, r', _⟩, hsuffixes, h⟩ := except_bind_ok h
        obtain ⟨⟨t', asked', r'', hr''⟩, hinside, h⟩ := except_bind_ok h
        simp only at h
        split at h
        · next hclosed =>
          cases h
          rcases ih _ hshorter ⟨_, _, mapError_ok hinside⟩ rfl with ⟨-, hsame⟩ | hderived
          · -- nothing was read in the group, but a group starts with a star or a parenthesis
            have hempty : inside = [] := List.eq_nil_of_length_eq_zero <| by
              have hlength := beq_iff_eq.mp hclosed
              rw [hsame] at hlength
              omega
            obtain ⟨c, hc, hinner⟩ := splitGroup_eq hsplit
            rw [hempty, List.nil_append] at hinner
            exact absurd (beq_iff_eq.mp hc) (groupedTokens_head (hinner ▸ hgroup))
          · exact .inr hderived
        · cases h

/-- A word that only qualifies the type that others name. -/
def IsQualifier (x : Token) : Prop :=
  ∃ w, x = .word w ∧ (w = "const" ∨ w ∈ ignoredQualifiers)

theorem Specified.of_base (h : Specified anonymous s ts s' []) (hb : s.base = some b) :
    (∀ x ∈ ts, IsQualifier x) ∧ s'.base = some b := by
  generalize hr : [] = r at h
  induction h with
  | const _ ih =>
    obtain ⟨hquals, hbase⟩ := ih hb hr
    exact ⟨List.forall_mem_cons.mpr ⟨⟨_, rfl, .inl rfl⟩, hquals⟩, hbase⟩
  | ignored hw _ ih =>
    obtain ⟨hquals, hbase⟩ := ih hb hr
    exact ⟨List.forall_mem_cons.mpr ⟨⟨_, rfl, .inr hw⟩, hquals⟩, hbase⟩
  | tagged _ hnone => simp [hb] at hnone
  | builtin _ hnone => simp [hb] at hnone
  | named _ hnone => simp [hb] at hnone
  | done =>
    subst hr
    exact ⟨List.forall_mem_nil _, hb⟩

theorem Specified.of_words (h : Specified anonymous s ts s' r) (hb : s.base = none)
    (hw : s.words ≠ []) : s'.base = none := by
  induction h with
  | const _ ih => exact ih hb hw
  | ignored _ _ ih => exact ih hb hw
  | tagged _ _ hwords => exact absurd hwords hw
  | builtin _ _ _ ih => exact ih hb (by simp)
  | named _ _ hwords => exact absurd hwords hw
  | done => exact hb

/-- A tag keyword, a token that gives the base `b` behind it, and qualifiers around the two. -/
def TagsAs (anonymous : String → Option String) (ts : List Token) (b : RawType) : Prop :=
  ∃ lead w x trail, ts = lead ++ .word w :: x :: trail ∧ (∀ q ∈ lead, IsQualifier q) ∧
    (∀ q ∈ trail, IsQualifier q) ∧ isTag w ∧ taggedType anonymous w x = .ok b

theorem TagsAs.cons {b : RawType} {q : Token} (hq : IsQualifier q) (h : TagsAs anonymous ts b) :
    TagsAs anonymous (q :: ts) b := by
  obtain ⟨lead, w, x, trail, rfl, hlead, hrest⟩ := h
  exact ⟨q :: lead, w, x, trail, rfl, List.forall_mem_cons.mpr ⟨hq, hlead⟩, hrest⟩

/-- Specifiers without any token left behind them. -/
theorem Specified.all (h : Specified anonymous s ts s' []) (hb : s.base = none) :
    s'.base = none ∨ (∃ w, s'.base = some (.ofKind (.unexposed w) w)) ∨
      ∃ b, s'.base = some b ∧ TagsAs anonymous ts b := by
  generalize hr : [] = r at h
  induction h with
  | const _ ih =>
    have hq : IsQualifier (.word "const") := ⟨_, rfl, .inl rfl⟩
    exact (ih hb hr).imp_right (.imp_right fun ⟨b, hbase, htags⟩ => ⟨b, hbase, htags.cons hq⟩)
  | @ignored _ _ _ _ w hw _ ih =>
    have hq : IsQualifier (.word w) := ⟨w, rfl, .inr hw⟩
    exact (ih hb hr).imp_right (.imp_right fun ⟨b, hbase, htags⟩ => ⟨b, hbase, htags.cons hq⟩)
  | @tagged _ _ ts _ w x b hw _ _ hx rest =>
    subst hr
    obtain ⟨hquals, hbase⟩ := rest.of_base rfl
    exact .inr (.inr ⟨b, hbase, [], w, x, ts, rfl, List.forall_mem_nil _, hquals, hw, hx⟩)
  | builtin _ hnone rest => exact .inl (rest.of_words hnone (by simp))
  | @named _ _ _ _ w _ _ _ rest =>
    subst hr
    exact .inr (.inl ⟨w, (rest.of_base rfl).2⟩)
  | done => exact .inl hb

theorem taggedKind_inj {w name' : String} (htag : isTag tag) (hw : isTag w)
    (h : taggedKind w name' = taggedKind tag name) : w = tag ∧ name' = name := by
  simp only [isTag, Bool.or_eq_true, beq_iff_eq] at htag hw
  rcases htag with (rfl | rfl) | rfl <;> rcases hw with (rfl | rfl) | rfl <;>
    simp_all [taggedKind, RawType.ofKind]

theorem kind_made (isConst : Bool) (t : RawType) : (made isConst t).kind = t.kind := by
  obtain ⟨kind, spelling, isConst'⟩ := t
  cases isConst <;> cases isConst' <;> cases kind <;> rfl

theorem taggedKind_cases (tag name : String) :
    taggedKind tag name = .enum name ∨
      taggedKind tag name = .elaborated (.ofKind (.record name (tag == "union")) name) := by
  unfold taggedKind
  cases tag == "enum" <;> simp

/-- No meaning of a typedef name is a record or an enumeration itself. -/
theorem kind_of_resolved {typedefs : TypedefLookup} (f : Form)
    (h : (f.raw.resolved typedefs).kind = taggedKind tag name) : f.raw.kind = taggedKind tag name := by
  cases f with
  | tagged tag' isUnion isConst =>
    rw [Form.raw, RawType.tagged, resolved_made] at h
    rw [Form.raw, RawType.tagged, kind_made]
    exact h
  | enum name' isConst =>
    rw [Form.raw, RawType.enum, resolved_made] at h
    rw [Form.raw, RawType.enum, kind_made]
    exact h
  | words ws p isConst =>
    rw [Form.raw, resolved_made] at h
    rcases taggedKind_cases tag name with ht | ht <;> rw [ht] at h <;> cases h
  | named name' isConst =>
    rw [Form.raw, resolved_made, RawKind.resolved] at h
    rcases taggedKind_cases tag name with ht | ht <;> rw [ht] at h <;> split at h <;> cases h
  | pointer pointee isConst =>
    rw [Form.raw, RawType.pointer, resolved_made] at h
    rcases taggedKind_cases tag name with ht | ht <;> rw [ht] at h <;> cases h
  | array element count =>
    rcases taggedKind_cases tag name with ht | ht <;> rw [ht] at h <;> cases count <;> cases h
  | function result args variadic =>
    rcases taggedKind_cases tag name with ht | ht <;> rw [ht] at h <;> cases h

/-- A text that is read as a record or an enumeration itself consists of the keyword, what names it, and
qualifiers. -/
theorem tokens_of_itself {names : TypeNames} {text : String} (htag : isTag tag)
    (h : tryParse names text = .ok t) (hkind : t.kind = taggedKind tag name) :
    ∃ ts lead x trail, tokenize text.toList = .ok ts ∧ ts = lead ++ .word tag :: x :: trail ∧
      (∀ q ∈ lead, IsQualifier q) ∧ (∀ q ∈ trail, IsQualifier q) ∧
      (x = .word name ∨ ∃ key, x = .anonymous key ∧ names.anonymous key = some name) := by
  obtain ⟨f, ts, -, htokens, ⟨asked, hlen, hread⟩, rfl⟩ := form_of_tryParse h
  have hraw : f.raw.kind = taggedKind tag name := kind_of_resolved f hkind
  rw [typeName] at hread
  obtain ⟨⟨s, r, hr⟩, hspecifiers, hread⟩ := except_bind_ok hread
  obtain ⟨base, hbase, hread⟩ := except_bind_ok hread
  obtain ⟨⟨u, asked', r', hr'⟩, hdeclarator, he⟩ := except_bind_ok hread
  cases he
  obtain ⟨hsame, hr⟩ : f.raw = base ∧ [] = r := by
    refine (declarator_outer ⟨_, _, mapError_ok hdeclarator⟩).resolve_right ?_
    rw [RawType.isDerived, hraw, taggedKind]
    cases tag == "enum" <;> simp
  subst hr
  rw [hsame] at hraw
  rcases (specified_of_ok hspecifiers).all rfl with hnone | ⟨w, hnamed⟩ | ⟨b, hb, htags⟩
  · obtain ⟨p, -, -, hp⟩ := Specifiers.type_none hbase hnone
    rw [hp, kind_made] at hraw
    rcases taggedKind_cases tag name with ht | ht <;> rw [ht] at hraw <;> cases hraw
  · rw [Specifiers.type_some hnamed] at hbase
    rw [← Except.ok.inj hbase, kind_made] at hraw
    rcases taggedKind_cases tag name with ht | ht <;> rw [ht] at hraw <;> cases hraw
  · rw [Specifiers.type_some hb] at hbase
    rw [← Except.ok.inj hbase, kind_made] at hraw
    obtain ⟨lead, w, x, trail, hts, hlead, htrail, hw, hx⟩ := htags
    obtain ⟨name', rfl, hnames⟩ := taggedType_eq hx
    have hboth : taggedKind w name' = taggedKind tag name := by
      rw [← hraw, taggedKind]
      cases w == "enum" <;> rfl
    obtain ⟨rfl, rfl⟩ := taggedKind_inj htag hw hboth
    exact ⟨ts, lead, x, trail, htokens, hts, hlead, htrail, hnames⟩

/-- The keyword and what names the record behind it, with one `const` before them or none, are read as
the record itself. -/
theorem tryParse_itself {names : TypeNames} {text : String} (isConst : Bool) (htag : isTag tag)
    (htokens : tokenize text.toList = .ok (constTokens isConst ++ [.word tag, x]))
    (hx : x = .word name ∨ ∃ key, x = .anonymous key ∧ names.anonymous key = some name) :
    ∃ t, tryParse names text = .ok t ∧ t.kind = taggedKind tag name := by
  obtain ⟨b, hb, hkind⟩ : ∃ b, taggedType names.anonymous tag x = .ok b ∧
      b.kind.resolved names.typedefs = taggedKind tag name := by
    refine ⟨if tag == "enum" then .enum name else .tagged name (tag == "union"), ?_, ?_⟩
    · rcases hx with rfl | ⟨key, rfl, hkey⟩
      · rfl
      · simp [taggedType, hkey]
    · rw [taggedKind]
      cases tag == "enum" <;> rfl
  obtain ⟨hlen, hspecifiers⟩ : Specifies names.anonymous {} (constTokens isConst ++ [.word tag, x])
      { isConst, base := some b } [] :=
    Specifies.constTokens (Specifies.tagged htag hb rfl rfl (specifies_end (by simp)))
  have hread := read_pointers htokens hspecifiers (Specifiers.type_some rfl) (pointers_end _ (by simp))
  refine ⟨_, by rw [tryParse, hread], ?_⟩
  rw [RawType.resolved, kind_made]
  exact hkind

end QualType

end Bindery
