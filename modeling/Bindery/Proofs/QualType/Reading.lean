import Bindery.Proofs.QualType.Lexing
import Bindery.Proofs.QualType.Specifiers

/-! What is read of the tokens of a text: a type that some form stands for. -/

namespace Bindery

namespace QualType

/-- A type that some form stands for. -/
def Formed (t : RawType) : Prop :=
  ∃ f : Form, f.Valid ∧ f.raw = t

section Equations

variable (anonymous : String → Option String) {u v : RawType} {ts r inner inside behind : List Token}
  {h : r.length ≤ ts.length}

theorem declarator_plain (hp : pointers u ts = (v, ⟨r, h⟩)) (hgroup : groupedTokens r = none) :
    declarator anonymous u ts = (suffixes anonymous r).map fun (sfx, ⟨r', h'⟩) =>
      (applySuffixes sfx v, sfx.flatMap Suffix.asked, ⟨r', Nat.le_trans h' h⟩) := by
  rw [declarator]
  generalize pointers u ts = p at hp
  subst hp
  simp only
  split
  · cases suffixes anonymous r <;> rfl
  · next hinner =>
    rw [hgroup] at hinner
    cases hinner

theorem declarator_unbalanced (hp : pointers u ts = (v, ⟨r, h⟩))
    (hgroup : groupedTokens r = some inner) (hsplit : splitTokens inner = none) :
    declarator anonymous u ts = .error (.of .unbalanced) := by
  rw [declarator]
  generalize pointers u ts = p at hp
  subst hp
  simp only
  split
  · next hnone =>
    rw [hgroup] at hnone
    cases hnone
  · next hinner =>
    obtain rfl := Option.some.inj (hgroup.symm.trans hinner)
    split
    · rfl
    · next hsome =>
      rw [hsplit] at hsome
      cases hsome

theorem declarator_grouped (hp : pointers u ts = (v, ⟨r, h⟩))
    (hgroup : groupedTokens r = some inner) (hsplit : splitTokens inner = some (inside, behind))
    (hb : behind.length ≤ ts.length) :
    declarator anonymous u ts = (do
      let (sfx, ⟨r', h'⟩) ← suffixes anonymous behind
      let first := sfx.flatMap Suffix.asked
      let (t, second, ⟨r'', _⟩) ← (declarator anonymous (applySuffixes sfx v) inner).mapError
        (·.after first)
      if r''.length == behind.length + 1 then
        pure (t, first ++ second, ⟨r', Nat.le_trans h' hb⟩)
      else .error ((unexpected r'').after (first ++ second))) := by
  rw [declarator]
  generalize pointers u ts = p at hp
  subst hp
  simp only
  split
  · next hnone =>
    rw [hgroup] at hnone
    cases hnone
  · next hinner =>
    obtain rfl := Option.some.inj (hgroup.symm.trans hinner)
    split
    · next hnone =>
      rw [hsplit] at hnone
      cases hnone
    · next hsome =>
      cases hsplit.symm.trans hsome
      rfl

end Equations

/-- What specifiers can hold. -/
structure Specifiers.Sound (s : Specifiers) : Prop where
  words : ∀ w ∈ s.words, w ∈ builtinWords
  base : ∀ b ∈ s.base, ∀ isConst, Formed (made isConst b)

theorem Specifiers.sound_empty : ({} : Specifiers).Sound := by
  constructor
  · intro w hw
    cases hw
  · intro b hb
    cases hb

theorem taggedType_formed {anonymous : String → Option String} {tag : String} {t : Token}
    {b : RawType} (h : taggedType anonymous tag t = .ok b) (isConst : Bool) :
    Formed (made isConst b) := by
  obtain ⟨name, rfl, -⟩ := taggedType_eq h
  cases tag == "enum" with
  | true => exact ⟨.enum name isConst, trivial, rfl⟩
  | false => exact ⟨.tagged name (tag == "union") isConst, trivial, rfl⟩

namespace Specified

variable {anonymous : String → Option String} {s s' : Specifiers} {ts r : List Token}

theorem suffix (h : Specified anonymous s ts s' r) : r <:+ ts := by
  induction h with
  | const _ ih => exact ih.trans (List.suffix_cons _ _)
  | ignored _ _ ih => exact ih.trans (List.suffix_cons _ _)
  | tagged _ _ _ _ _ ih => exact ih.trans ((List.suffix_cons _ _).trans (List.suffix_cons _ _))
  | builtin _ _ _ ih => exact ih.trans (List.suffix_cons _ _)
  | named _ _ _ _ ih => exact ih.trans (List.suffix_cons _ _)
  | done => exact List.suffix_refl _

theorem sound (h : Specified anonymous s ts s' r) (hts : ∀ t ∈ ts, t.Sound) (hs : s.Sound) :
    s'.Sound := by
  induction h with
  | const _ ih => exact ih (List.forall_mem_cons.mp hts).2 ⟨hs.words, hs.base⟩
  | ignored _ _ ih => exact ih (List.forall_mem_cons.mp hts).2 hs
  | tagged _ _ _ hx _ ih =>
    refine ih (List.forall_mem_cons.mp (List.forall_mem_cons.mp hts).2).2 ⟨hs.words, fun b hb => ?_⟩
    obtain rfl := Option.mem_some_iff.mp hb
    exact taggedType_formed hx
  | builtin hw _ _ ih =>
    refine ih (List.forall_mem_cons.mp hts).2 ⟨fun x hx => ?_, hs.base⟩
    rcases List.mem_append.mp hx with hx | hx
    · exact hs.words x hx
    · obtain rfl := List.mem_singleton.mp hx
      exact hw
  | named hw _ _ _ ih =>
    obtain ⟨hidentifier, hrest⟩ := List.forall_mem_cons.mp hts
    refine ih hrest ⟨hs.words, fun b hb isConst => ?_⟩
    obtain rfl := Option.mem_some_iff.mp hb
    exact ⟨.named _ isConst, hw hidentifier, rfl⟩
  | done => exact hs

end Specified

theorem specifiers_sound {anonymous : String → Option String} {s s' : Specifiers}
    {ts : List Token} {r : {r : List Token // r.length ≤ ts.length}} (hts : ∀ t ∈ ts, t.Sound)
    (hs : s.Sound) (h : specifiers anonymous s ts = .ok (s', r)) : s'.Sound ∧ r.1 <:+ ts :=
  ⟨(specified_of_ok h).sound hts hs, (specified_of_ok h).suffix⟩

theorem Specifiers.Sound.type_formed {s : Specifiers} {rest : List Token} {t : RawType} (hs : s.Sound)
    (h : s.type rest = .ok t) : Formed t := by
  cases hb : s.base with
  | some base =>
    rw [Specifiers.type_some hb] at h
    exact Except.ok.inj h ▸ hs.base base hb s.isConst
  | none =>
    obtain ⟨p, hne, hp, rfl⟩ := Specifiers.type_none h hb
    exact ⟨.words s.words p s.isConst, ⟨hne, hs.words, hp⟩, rfl⟩

theorem constant_made (isConst : Bool) (t : RawType) :
    (made isConst t).constant = made true t := by
  cases isConst with
  | false => rfl
  | true =>
    obtain ⟨kind, spelling, isConst⟩ := t
    cases isConst with
    | true => rfl
    | false => cases kind <;> rfl

theorem pointerQualifiers_made (t : RawType) (ts : List Token) :
    (∃ isConst, (pointerQualifiers t ts).1 = made isConst t) ∧
      (pointerQualifiers t ts).2.1 <:+ ts := by
  fun_induction pointerQualifiers t ts with
  | case1 t w rest _ t' r _ he ih =>
    rw [he] at ih
    obtain ⟨⟨isConst, ht⟩, hr⟩ := ih
    refine ⟨⟨true, ht.trans ?_⟩, hr.trans (List.suffix_cons _ _)⟩
    cases isConst with
    | true => exact constant_made true t
    | false => rfl
  | case2 t w rest _ _ t' r _ he ih =>
    rw [he] at ih
    exact ⟨ih.1, ih.2.trans (List.suffix_cons _ _)⟩
  | case3 t => exact ⟨⟨false, rfl⟩, List.suffix_refl _⟩
  | case4 t => exact ⟨⟨false, rfl⟩, List.suffix_refl _⟩

theorem pointers_formed {t : RawType} (ht : Formed t) (ts : List Token) :
    Formed (pointers t ts).1 ∧ (pointers t ts).2.1 <:+ ts := by
  fun_induction pointers t ts with
  | case1 t rest t' r _ hq t'' r' _ hp ih =>
    obtain ⟨f, hf, rfl⟩ := ht
    obtain ⟨⟨isConst, ht'⟩, hr⟩ := pointerQualifiers_made (.pointer f.raw) rest
    rw [hq] at ht' hr
    rw [hp] at ih
    obtain ⟨hformed, hr'⟩ := ih ⟨.pointer f isConst, hf, ht'.symm⟩
    exact ⟨hformed, hr'.trans (hr.trans (List.suffix_cons _ _))⟩
  | case2 t => exact ⟨ht, List.suffix_refl _⟩

/-- A suffix that can stand behind a form. -/
def Suffix.Sound : Suffix → Prop
  | .array count => ∀ n ∈ count, n < limit64
  | .function params => (∃ fs, Form.ValidList fs ∧ Form.rawList fs = params.args) ∧
      dropVoid params.args = params.args

theorem applySuffixes_formed {sfx : List Suffix} (hsfx : ∀ s ∈ sfx, s.Sound) {t : RawType}
    (ht : Formed t) : Formed (applySuffixes sfx t) := by
  induction sfx with
  | nil => exact ht
  | cons s sfx ih =>
    obtain ⟨hs, hrest⟩ := List.forall_mem_cons.mp hsfx
    obtain ⟨f, hf, he⟩ := ih hrest
    rw [applySuffixes, List.foldr_cons, ← applySuffixes, ← he]
    cases s with
    | array count => exact ⟨.array f count, ⟨hf, hs⟩, rfl⟩
    | function params =>
      obtain ⟨⟨fs, hfs, hargs⟩, hvoid⟩ := hs
      rw [← hargs] at hvoid
      exact ⟨.function f fs params.variadic, ⟨hf, hfs, hvoid⟩, by rw [Form.raw, hargs]; rfl⟩

theorem arraySuffix_sound {ts : List Token} {count : Option Nat}
    {r : {r : List Token // r.length < ts.length}} (hts : ∀ t ∈ ts, t.Sound)
    (h : arraySuffix ts = .ok (count, r)) : (Suffix.array count).Sound ∧ r.1 <:+ ts := by
  unfold arraySuffix at h
  split at h
  · cases h
    exact ⟨nofun, List.suffix_cons _ _⟩
  · next n rest =>
    cases h
    refine ⟨fun m hm => ?_, (List.suffix_cons _ _).trans (List.suffix_cons _ _)⟩
    obtain rfl := Option.mem_some_iff.mp hm
    exact (List.forall_mem_cons.mp hts).1
  · cases h
  · cases h

theorem dropVoid_cases (args : List RawType) : dropVoid args = [] ∨ dropVoid args = args := by
  unfold dropVoid
  split
  · exact .inl rfl
  · exact .inr rfl

theorem splitTokens_suffix {ts inside behind : List Token}
    (h : splitTokens ts = some (inside, behind)) : behind <:+ ts := by
  obtain ⟨c, _, he⟩ := splitGroup_eq h
  exact ⟨inside ++ [c], by rw [he]; simp⟩

theorem groupedTokens_suffix {ts inner : List Token} (h : groupedTokens ts = some inner) :
    inner <:+ ts := by
  unfold groupedTokens at h
  split at h
  · cases h
    exact List.suffix_cons _ _
  · cases h
    exact List.suffix_cons _ _
  · cases h

variable (anonymous : String → Option String)

def TypeNameSound (ts : List Token) : Prop :=
  ∀ t asked r, (∀ x ∈ ts, x.Sound) → typeName anonymous ts = .ok (t, asked, r) →
    Formed t ∧ r.1 <:+ ts

def DeclaratorSound (u : RawType) (ts : List Token) : Prop :=
  ∀ t asked r, Formed u → (∀ x ∈ ts, x.Sound) →
    declarator anonymous u ts = .ok (t, asked, r) → Formed t ∧ r.1 <:+ ts

def SuffixesSound (ts : List Token) : Prop :=
  ∀ sfx r, (∀ x ∈ ts, x.Sound) → suffixes anonymous ts = .ok (sfx, r) →
    (∀ s ∈ sfx, s.Sound) ∧ r.1 <:+ ts

def ParametersSound (ts : List Token) : Prop :=
  ∀ params r, (∀ x ∈ ts, x.Sound) → parameters anonymous ts = .ok (params, r) →
    (Suffix.function params).Sound ∧ r.1 <:+ ts

def ParameterListSound (ts : List Token) : Prop :=
  ∀ params r, (∀ x ∈ ts, x.Sound) → parameterList anonymous ts = .ok (params, r) →
    (∃ fs, Form.ValidList fs ∧ Form.rawList fs = params.args) ∧ r.1 <:+ ts

variable {anonymous}

theorem sound_of_suffix {r ts : List Token} (h : r <:+ ts) (hts : ∀ x ∈ ts, x.Sound) :
    ∀ x ∈ r, x.Sound :=
  fun x hx => hts x (h.subset hx)

theorem typeNameSound {ts : List Token}
    (ih : ∀ r, r.length ≤ ts.length → ∀ base, DeclaratorSound anonymous base r) :
    TypeNameSound anonymous ts := by
  intro t asked r hts h
  rw [typeName] at h
  obtain ⟨⟨s, r₁, hlen⟩, hspecifiers, h⟩ := except_bind_ok h
  obtain ⟨base, hbase, h⟩ := except_bind_ok h
  obtain ⟨⟨t', asked', r'⟩, hdeclarator, he⟩ := except_bind_ok h
  cases he
  obtain ⟨hs, hr₁⟩ := specifiers_sound hts Specifiers.sound_empty hspecifiers
  obtain ⟨ht, hr'⟩ := ih r₁ hlen base _ _ _ (hs.type_formed hbase) (sound_of_suffix hr₁ hts)
    (mapError_ok hdeclarator)
  exact ⟨ht, hr'.trans hr₁⟩

theorem declaratorSound_plain {u v : RawType} {ts r₁ : List Token} {hlen : r₁.length ≤ ts.length}
    (hp : pointers u ts = (v, ⟨r₁, hlen⟩)) (hgroup : groupedTokens r₁ = none)
    (ih : SuffixesSound anonymous r₁) : DeclaratorSound anonymous u ts := by
  intro t asked r hu hts h
  obtain ⟨hv, hr₁⟩ := pointers_formed hu ts
  rw [hp] at hv hr₁
  rw [declarator_plain anonymous hp hgroup] at h
  obtain ⟨⟨sfx, r'⟩, hsuffixes, he⟩ := except_map_ok h
  cases he
  obtain ⟨hsfx, hr'⟩ := ih sfx r' (sound_of_suffix hr₁ hts) hsuffixes
  exact ⟨applySuffixes_formed hsfx hv, hr'.trans hr₁⟩

/-- The suffixes behind a group are applied before what stands in the group is read. -/
theorem declaratorSound_grouped {u v : RawType} {ts r₁ inner inside behind : List Token}
    {hlen : r₁.length ≤ ts.length} (hp : pointers u ts = (v, ⟨r₁, hlen⟩))
    (hgroup : groupedTokens r₁ = some inner) (hsplit : splitTokens inner = some (inside, behind))
    (ihs : SuffixesSound anonymous behind)
    (ihd : ∀ sfx, DeclaratorSound anonymous (applySuffixes sfx v) inner) :
    DeclaratorSound anonymous u ts := by
  intro t asked r hu hts h
  obtain ⟨hv, hr₁⟩ := pointers_formed hu ts
  rw [hp] at hv hr₁
  have hinner : inner <:+ ts := (groupedTokens_suffix hgroup).trans hr₁
  have hbehind : behind <:+ ts := (splitTokens_suffix hsplit).trans hinner
  rw [declarator_grouped anonymous hp hgroup hsplit hbehind.length_le] at h
  -- the suffixes are read from `behind`, and the group from `inner`, of which `behind` is the end
  obtain ⟨⟨sfx, r'⟩, hsuffixes, h⟩ := except_bind_ok h
  obtain ⟨⟨t', asked', r''⟩, hinside, h⟩ := except_bind_ok h
  obtain ⟨hsfx, hr'⟩ := ihs sfx r' (sound_of_suffix hbehind hts) hsuffixes
  obtain ⟨ht', _⟩ := ihd sfx _ _ _ (applySuffixes_formed hsfx hv) (sound_of_suffix hinner hts)
    (mapError_ok hinside)
  simp only at h
  split at h
  · cases h
    exact ⟨ht', hr'.trans hbehind⟩
  · cases h

theorem suffixesSound_bracket {rest : List Token}
    (ih : ∀ r : List Token, r.length < rest.length → SuffixesSound anonymous r) :
    SuffixesSound anonymous (.openBracket :: rest) := by
  intro sfx r hts h
  rw [suffixes] at h
  obtain ⟨⟨count, r₁, hlen⟩, hcount, h⟩ := except_bind_ok h
  obtain ⟨⟨sfx', r'⟩, hsuffixes, he⟩ := except_bind_ok h
  cases he
  have hrest := (List.forall_mem_cons.mp hts).2
  obtain ⟨hs, hr₁⟩ := arraySuffix_sound hrest hcount
  obtain ⟨hsfx, hr'⟩ := ih r₁ hlen sfx' r' (sound_of_suffix hr₁ hrest) hsuffixes
  exact ⟨List.forall_mem_cons.mpr ⟨hs, hsfx⟩, hr'.trans (hr₁.trans (List.suffix_cons _ _))⟩

theorem suffixesSound_paren {rest : List Token} (ihp : ParametersSound anonymous rest)
    (ihs : ∀ r : List Token, r.length < rest.length → SuffixesSound anonymous r) :
    SuffixesSound anonymous (.openParen :: rest) := by
  intro sfx r hts h
  rw [suffixes] at h
  obtain ⟨⟨params, r₁, hlen⟩, hparams, h⟩ := except_bind_ok h
  obtain ⟨⟨sfx', r'⟩, hsuffixes, he⟩ := except_bind_ok h
  cases he
  have hrest := (List.forall_mem_cons.mp hts).2
  obtain ⟨hs, hr₁⟩ := ihp params _ hrest hparams
  obtain ⟨hsfx, hr'⟩ := ihs r₁ hlen sfx' r' (sound_of_suffix hr₁ hrest) (mapError_ok hsuffixes)
  exact ⟨List.forall_mem_cons.mpr ⟨hs, hsfx⟩, hr'.trans (hr₁.trans (List.suffix_cons _ _))⟩

theorem suffixesSound_end {ts : List Token} (hbracket : ∀ rest, ts ≠ .openBracket :: rest)
    (hparen : ∀ rest, ts ≠ .openParen :: rest) : SuffixesSound anonymous ts := by
  intro sfx r _ h
  rw [suffixes.eq_def] at h
  split at h
  · exact absurd rfl (hbracket _)
  · exact absurd rfl (hparen _)
  · cases h
    exact ⟨fun s hs => absurd hs List.not_mem_nil, List.suffix_refl _⟩

theorem parametersSound_none {rest : List Token} :
    ParametersSound anonymous (.closeParen :: rest) := by
  intro params r _ h
  rw [parameters] at h
  cases h
  exact ⟨⟨⟨[], trivial, rfl⟩, rfl⟩, List.suffix_cons _ _⟩

theorem parametersSound_some {ts : List Token} (hclose : ∀ rest, ts ≠ .closeParen :: rest)
    (ih : ParameterListSound anonymous ts) : ParametersSound anonymous ts := by
  intro params r hts h
  rw [parameters.eq_def] at h
  split at h
  · exact absurd rfl (hclose _)
  · obtain ⟨⟨list, r'⟩, hlist, he⟩ := except_bind_ok h
    cases he
    obtain ⟨⟨fs, hfs, hargs⟩, hr'⟩ := ih list _ hts hlist
    refine ⟨?_, hr'⟩
    rcases dropVoid_cases list.args with hnone | hall
    · exact ⟨⟨[], trivial, hnone.symm⟩, by rw [hnone]; rfl⟩
    · exact ⟨⟨fs, hfs, hargs.trans hall.symm⟩, by rw [hall, hall]⟩

theorem parameterListSound {ts : List Token} (iht : TypeNameSound anonymous ts)
    (ih : ∀ r : List Token, r.length ≤ ts.length → ∀ rest, r = .comma :: rest →
      ParameterListSound anonymous rest) : ParameterListSound anonymous ts := by
  intro params r hts h
  rw [parameterList] at h
  obtain ⟨⟨first, r₁, hlen⟩, hfirst, h⟩ := except_bind_ok h
  have hargs : (∃ fs, Form.ValidList fs ∧ Form.rawList fs = first.args) ∧ r₁ <:+ ts := by
    split at hfirst
    · cases hfirst
      exact ⟨⟨[], trivial, rfl⟩, List.tail_suffix ts⟩
    · obtain ⟨⟨t, asked, r₂⟩, ht, he⟩ := except_map_ok hfirst
      cases he
      obtain ⟨⟨f, hf, hraw⟩, hr⟩ := iht t asked _ hts ht
      exact ⟨⟨[f], ⟨hf, trivial⟩, by rw [Form.rawList, hraw]; rfl⟩, hr⟩
  obtain ⟨⟨fs, hfs, hraw⟩, hr₁⟩ := hargs
  simp only at h
  split at h
  · next rest =>
    obtain ⟨⟨others, r'⟩, hothers, he⟩ := except_bind_ok h
    cases he
    have hrest : rest <:+ ts := (List.suffix_cons _ _).trans hr₁
    obtain ⟨⟨gs, hgs, hraw'⟩, hr'⟩ := ih _ hlen rest rfl others r' (sound_of_suffix hrest hts)
      (mapError_ok hothers)
    refine ⟨⟨fs ++ gs, Form.validList_append hfs hgs, ?_⟩, hr'.trans hrest⟩
    rw [Form.rawList_append, hraw, hraw']
    rfl
  · cases h
    exact ⟨⟨fs, hfs, hraw⟩, (List.suffix_cons _ _).trans hr₁⟩
  · cases h

/-- What is read of tokens that are sound has a form. -/
theorem typeName_sound (anonymous : String → Option String) (ts : List Token) :
    TypeNameSound anonymous ts := by
  -- the readers call each other, so one induction serves all of them, a case for each equation
  refine (typeName.mutual_induct anonymous (TypeNameSound anonymous) (DeclaratorSound anonymous)
    (SuffixesSound anonymous) (ParametersSound anonymous) (ParameterListSound anonymous)
    ?typeName ?plain ?unbalanced ?grouped ?bracket ?paren ?done ?none ?some ?list).1 ts
  case typeName => exact fun ts ih => typeNameSound ih
  case plain => exact fun u ts v r hlen hp hgroup ih => declaratorSound_plain hp hgroup ih
  case unbalanced =>
    intro u ts v r hlen hp inner hgroup hsplit t asked r' hu hts h
    rw [declarator_unbalanced anonymous hp hgroup hsplit] at h
    cases h
  case grouped =>
    intro u ts v r hlen hp inner hgroup inside behind hsplit _ _ ihs ihd
    exact declaratorSound_grouped hp hgroup hsplit ihs fun sfx => ihd sfx []
  case bracket => exact fun rest ih => suffixesSound_bracket ih
  case paren => exact fun rest ihp ihs => suffixesSound_paren ihp ihs
  case done => exact fun ts hbracket hparen => suffixesSound_end hbracket hparen
  case none => exact fun rest => parametersSound_none
  case some => exact fun ts hclose ih => parametersSound_some hclose ih
  case list => exact fun ts iht ih => parameterListSound iht ih

theorem suffixes_nil (anonymous : String → Option String) :
    suffixes anonymous [] = .ok ([], ⟨[], Nat.le_refl _⟩) := by
  rw [suffixes] <;> simp

/-- A text of specifiers and stars is read as the type of the specifiers with the stars around it. -/
theorem read_pointers {anonymous : String → Option String} {text : String} {ts r : List Token}
    {s : Specifiers} {base t : RawType} {h : r.length ≤ ts.length}
    (htokens : tokenize text.toList = .ok ts)
    (hspecifiers : specifiers anonymous {} ts = .ok (s, ⟨r, h⟩)) (hbase : s.type r = .ok base)
    (hpointers : pointers base r = (t, ⟨[], Nat.zero_le _⟩)) :
    read anonymous text = .ok ({ t with spelling := trimmed text }, s.asked) := by
  have hdeclarator : declarator anonymous base r = .ok (t, [], ⟨[], Nat.zero_le _⟩) := by
    rw [declarator_plain anonymous hpointers rfl, suffixes_nil]
    rfl
  have htype : typeName anonymous ts = .ok (t, s.asked, ⟨[], Nat.zero_le _⟩) := by
    rw [typeName, hspecifiers]
    simp only [bind, Except.bind, hbase, hdeclarator, Except.mapError, List.append_nil]
    rfl
  rw [read, htokens]
  simp only [Except.mapError, bind, Except.bind, htype, List.isEmpty_nil, if_true]
  rfl

end QualType

end Bindery
