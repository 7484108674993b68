import Bindery.Proofs.QualType.Reading

/-! The names that a type is read with. It depends on what these stand for and on no others. -/

namespace Bindery

mutual

/-- The names in a type that have no meaning yet. -/
def RawType.unresolved : RawType → List String
  | ⟨kind, _, _⟩ => kind.unresolved

def RawKind.unresolved : RawKind → List String
  | .elaborated inner => inner.unresolved
  | .pointer pointee => pointee.unresolved
  | .constantArray element _ => element.unresolved
  | .incompleteArray element => element.unresolved
  | .function result args _ => result.unresolved ++ RawType.unresolvedList args
  | .unexposed text => [text]
  | .builtin _ => []
  | .typedef _ _ _ => []
  | .record _ _ => []
  | .enum _ => []

def RawType.unresolvedList : List RawType → List String
  | [] => []
  | t :: ts => t.unresolved ++ RawType.unresolvedList ts

end

section Resolved

variable {typedefs typedefs' : TypedefLookup}

mutual

/-- A type gets the same meaning from lookups that agree on its names. -/
theorem RawType.resolved_congr : ∀ t : RawType, (∀ name ∈ t.unresolved, typedefs name = typedefs' name) →
    t.resolved typedefs = t.resolved typedefs'
  | ⟨kind, _, _⟩, h => by
    rw [RawType.resolved, RawType.resolved, kind.resolved_congr h]

theorem RawKind.resolved_congr : ∀ k : RawKind, (∀ name ∈ k.unresolved, typedefs name = typedefs' name) →
    k.resolved typedefs = k.resolved typedefs'
  | .elaborated inner, h => congrArg RawKind.elaborated (inner.resolved_congr h)
  | .pointer pointee, h => congrArg RawKind.pointer (pointee.resolved_congr h)
  | .constantArray element n, h => congrArg (RawKind.constantArray · n) (element.resolved_congr h)
  | .incompleteArray element, h => congrArg RawKind.incompleteArray (element.resolved_congr h)
  | .function result args variadic, h => by
    obtain ⟨hresult, hargs⟩ := List.forall_mem_append.mp h
    rw [RawKind.resolved, RawKind.resolved, result.resolved_congr hresult,
      RawType.resolvedList_congr args hargs]
  | .unexposed text, h => by
    rw [RawKind.resolved, RawKind.resolved, h text (.head _)]
  | .builtin _, _ => rfl
  | .typedef _ _ _, _ => rfl
  | .record _ _, _ => rfl
  | .enum _, _ => rfl

theorem RawType.resolvedList_congr : ∀ ts : List RawType,
    (∀ name ∈ RawType.unresolvedList ts, typedefs name = typedefs' name) →
      RawType.resolvedList typedefs ts = RawType.resolvedList typedefs' ts
  | [], _ => rfl
  | t :: ts, h => by
    obtain ⟨ht, hts⟩ := List.forall_mem_append.mp h
    rw [RawType.resolvedList, RawType.resolvedList, t.resolved_congr ht, RawType.resolvedList_congr ts hts]

end

end Resolved

namespace RawType

theorem unresolved_array (t : RawType) (count : Option Nat) :
    (RawType.array t count).unresolved = t.unresolved := by
  cases count <;> rfl

theorem unresolved_constant (t : RawType) : t.constant.unresolved = t.unresolved := by
  obtain ⟨kind, spelling, isConst⟩ := t
  cases isConst with
  | true => rfl
  | false => cases kind <;> rfl

theorem unresolvedList_append (ts us : List RawType) :
    unresolvedList (ts ++ us) = unresolvedList ts ++ unresolvedList us := by
  induction ts with
  | nil => rfl
  | cons t ts ih => simp [unresolvedList, ih]

end RawType

namespace QualType

theorem append_subset_append {xs ys xs' ys' : List String} (h : xs ⊆ xs') (h' : ys ⊆ ys') :
    xs ++ ys ⊆ xs' ++ ys' :=
  List.append_subset.mpr ⟨List.Subset.trans h (List.subset_append_left _ _),
    List.Subset.trans h' (List.subset_append_right _ _)⟩

variable {anonymous : String → Option String} {u v : RawType} {ts : List Token}

/-- The base of specifiers leaves no name without a meaning that was not noted. -/
def Specifiers.Noted (s : Specifiers) : Prop :=
  ∀ b ∈ s.base, b.unresolved ⊆ s.asked

theorem taggedType_unresolved {tag : String} {t : Token} {b : RawType}
    (h : taggedType anonymous tag t = .ok b) : b.unresolved = [] := by
  obtain ⟨name, rfl, -⟩ := taggedType_eq h
  cases tag == "enum" <;> rfl

theorem Specified.noted {s s' : Specifiers} {r : List Token} (h : Specified anonymous s ts s' r)
    (hs : s.Noted) : s'.Noted := by
  induction h with
  | const _ ih => exact ih hs
  | ignored _ _ ih => exact ih hs
  | tagged _ _ _ hx _ ih =>
    refine ih fun b hb => ?_
    obtain rfl := Option.mem_some_iff.mp hb
    simp [taggedType_unresolved hx]
  | builtin _ _ _ ih => exact ih hs
  | @named _ _ _ _ w _ _ _ _ ih =>
    refine ih fun b hb => ?_
    obtain rfl := Option.mem_some_iff.mp hb
    exact List.Subset.refl [w]
  | done => exact hs

theorem unresolved_made (isConst : Bool) (t : RawType) :
    (made isConst t).unresolved = t.unresolved := by
  cases isConst with
  | true => exact t.unresolved_constant
  | false => rfl

theorem Specifiers.Noted.type {s : Specifiers} {rest : List Token} {t : RawType} (hs : s.Noted)
    (h : s.type rest = .ok t) : t.unresolved ⊆ s.asked := by
  cases hb : s.base with
  | some base =>
    rw [Specifiers.type_some hb] at h
    rw [← Except.ok.inj h, unresolved_made]
    exact hs base hb
  | none =>
    obtain ⟨p, -, -, rfl⟩ := Specifiers.type_none h hb
    rw [unresolved_made]
    exact List.nil_subset _

theorem pointerQualifiers_unresolved (t : RawType) (ts : List Token) :
    (pointerQualifiers t ts).1.unresolved = t.unresolved := by
  obtain ⟨⟨isConst, h⟩, -⟩ := pointerQualifiers_made t ts
  rw [h, unresolved_made]

theorem pointers_unresolved (t : RawType) (ts : List Token) :
    (pointers t ts).1.unresolved = t.unresolved := by
  fun_induction pointers t ts with
  | case1 t rest t' r _ hq t'' r' _ hp ih =>
    have hqualified := pointerQualifiers_unresolved (.pointer t) rest
    rw [hq] at hqualified
    rw [hp] at ih
    exact ih.trans hqualified
  | case2 => rfl

def Suffix.Noted : Suffix → Prop
  | .array _ => True
  | .function params => RawType.unresolvedList params.args ⊆ params.asked

theorem applySuffixes_unresolved {sfx : List Suffix} (hsfx : ∀ s ∈ sfx, s.Noted) (t : RawType) :
    (applySuffixes sfx t).unresolved ⊆ t.unresolved ++ sfx.flatMap Suffix.asked := by
  induction sfx with
  | nil => exact List.subset_append_left _ _
  | cons s sfx ih =>
    obtain ⟨hs, hrest⟩ := List.forall_mem_cons.mp hsfx
    have happlied := ih hrest
    rw [applySuffixes, List.foldr_cons, ← applySuffixes]
    cases s with
    | array count =>
      rw [Suffix.apply, RawType.unresolved_array, List.flatMap_cons]
      exact happlied
    | function params =>
      intro name hname
      rw [List.flatMap_cons, Suffix.asked]
      rcases List.mem_append.mp hname with hname | hname
      · have hbelow := happlied hname
        simp only [List.mem_append] at hbelow ⊢
        exact hbelow.imp_right .inr
      · have hasked := hs hname
        simp [hasked]

section Readers

variable (anonymous)

def TypeNameNotes (ts : List Token) : Prop :=
  ∀ t asked r, typeName anonymous ts = .ok (t, asked, r) → t.unresolved ⊆ asked

def DeclaratorNotes (u : RawType) (ts : List Token) : Prop :=
  ∀ t asked r, declarator anonymous u ts = .ok (t, asked, r) → t.unresolved ⊆ u.unresolved ++ asked

def SuffixesNote (ts : List Token) : Prop :=
  ∀ sfx r, suffixes anonymous ts = .ok (sfx, r) → ∀ s ∈ sfx, s.Noted

def ParametersNote (ts : List Token) : Prop :=
  ∀ params r, parameters anonymous ts = .ok (params, r) →
    RawType.unresolvedList params.args ⊆ params.asked

def ParameterListNotes (ts : List Token) : Prop :=
  ∀ params r, parameterList anonymous ts = .ok (params, r) →
    RawType.unresolvedList params.args ⊆ params.asked

end Readers

theorem typeNameNotes (ih : ∀ r, r.length ≤ ts.length → ∀ base, DeclaratorNotes anonymous base r) :
    TypeNameNotes anonymous ts := by
  intro t asked r h
  rw [typeName] at h
  obtain ⟨⟨s, r₁, hlen⟩, hspecifiers, h⟩ := except_bind_ok h
  obtain ⟨base, hbase, h⟩ := except_bind_ok h
  obtain ⟨⟨t', asked', r'⟩, hdeclarator, he⟩ := except_bind_ok h
  cases he
  have hs : s.Noted := (specified_of_ok hspecifiers).noted (by simp [Specifiers.Noted])
  have ht := ih r₁ hlen base _ _ _ (mapError_ok hdeclarator)
  exact List.Subset.trans ht (append_subset_append (hs.type hbase) (List.Subset.refl _))

theorem declaratorNotes_plain {r₁ : List Token} {hlen : r₁.length ≤ ts.length}
    (hp : pointers u ts = (v, ⟨r₁, hlen⟩)) (hgroup : groupedTokens r₁ = none)
    (ih : SuffixesNote anonymous r₁) : DeclaratorNotes anonymous u ts := by
  intro t asked r h
  have hv := pointers_unresolved u ts
  rw [hp] at hv
  rw [declarator_plain anonymous hp hgroup] at h
  obtain ⟨⟨sfx, r'⟩, hsuffixes, he⟩ := except_map_ok h
  cases he
  exact hv ▸ applySuffixes_unresolved (ih sfx r' hsuffixes) v

theorem declaratorNotes_grouped {r₁ inner inside behind : List Token} {hlen : r₁.length ≤ ts.length}
    (hp : pointers u ts = (v, ⟨r₁, hlen⟩)) (hgroup : groupedTokens r₁ = some inner)
    (hsplit : splitTokens inner = some (inside, behind)) (ihs : SuffixesNote anonymous behind)
    (ihd : ∀ sfx, DeclaratorNotes anonymous (applySuffixes sfx v) inner) :
    DeclaratorNotes anonymous u ts := by
  intro t asked r h
  have hv := pointers_unresolved u ts
  rw [hp] at hv
  have hbehind : behind.length ≤ ts.length := by
    have hinner := (groupedTokens_suffix hgroup).length_le
    have hsuffix := (splitTokens_suffix hsplit).length_le
    omega
  rw [declarator_grouped anonymous hp hgroup hsplit hbehind] at h
  obtain ⟨⟨sfx, r'⟩, hsuffixes, h⟩ := except_bind_ok h
  obtain ⟨⟨t', asked', r''⟩, hinside, h⟩ := except_bind_ok h
  have houter := applySuffixes_unresolved (ihs sfx r' hsuffixes) v
  have hinner := ihd sfx _ _ _ (mapError_ok hinside)
  simp only at h
  split at h
  · cases h
    rw [hv] at houter
    rw [← List.append_assoc]
    exact List.Subset.trans hinner (append_subset_append houter (List.Subset.refl _))
  · cases h

theorem suffixesNote_bracket {rest : List Token}
    (ih : ∀ r : List Token, r.length < rest.length → SuffixesNote anonymous r) :
    SuffixesNote anonymous (.openBracket :: rest) := by
  intro sfx r h
  rw [suffixes] at h
  obtain ⟨⟨count, r₁, hlen⟩, -, h⟩ := except_bind_ok h
  obtain ⟨⟨sfx', r'⟩, hsuffixes, he⟩ := except_bind_ok h
  cases he
  exact List.forall_mem_cons.mpr ⟨trivial, ih r₁ hlen sfx' r' hsuffixes⟩

theorem suffixesNote_paren {rest : List Token} (ihp : ParametersNote anonymous rest)
    (ihs : ∀ r : List Token, r.length < rest.length → SuffixesNote anonymous r) :
    SuffixesNote anonymous (.openParen :: rest) := by
  intro sfx r h
  rw [suffixes] at h
  obtain ⟨⟨params, r₁, hlen⟩, hparams, h⟩ := except_bind_ok h
  obtain ⟨⟨sfx', r'⟩, hsuffixes, he⟩ := except_bind_ok h
  cases he
  exact List.forall_mem_cons.mpr ⟨ihp params _ hparams, ihs r₁ hlen sfx' r' (mapError_ok hsuffixes)⟩

theorem suffixesNote_end (hbracket : ∀ rest, ts ≠ .openBracket :: rest)
    (hparen : ∀ rest, ts ≠ .openParen :: rest) : SuffixesNote anonymous ts := by
  intro sfx r h
  rw [suffixes.eq_def] at h
  split at h
  · exact absurd rfl (hbracket _)
  · exact absurd rfl (hparen _)
  · cases h
    exact List.forall_mem_nil _

theorem parametersNote_none {rest : List Token} : ParametersNote anonymous (.closeParen :: rest) := by
  intro params r h
  rw [parameters] at h
  cases h
  exact List.nil_subset _

theorem parametersNote_some (hclose : ∀ rest, ts ≠ .closeParen :: rest)
    (ih : ParameterListNotes anonymous ts) : ParametersNote anonymous ts := by
  intro params r h
  rw [parameters.eq_def] at h
  split at h
  · exact absurd rfl (hclose _)
  · obtain ⟨⟨list, r'⟩, hlist, he⟩ := except_bind_ok h
    cases he
    rcases dropVoid_cases list.args with hnone | hall
    · rw [hnone]
      exact List.nil_subset _
    · rw [hall]
      exact ih list _ hlist

theorem parameterListNotes (iht : TypeNameNotes anonymous ts)
    (ih : ∀ r : List Token, r.length ≤ ts.length → ∀ rest, r = .comma :: rest →
      ParameterListNotes anonymous rest) : ParameterListNotes anonymous ts := by
  intro params r h
  rw [parameterList] at h
  obtain ⟨⟨first, r₁, hlen⟩, hfirst, h⟩ := except_bind_ok h
  have hnoted : RawType.unresolvedList first.args ⊆ first.asked := by
    split at hfirst
    · cases hfirst
      exact List.nil_subset _
    · obtain ⟨⟨t, asked, r₂⟩, ht, he⟩ := except_map_ok hfirst
      cases he
      simpa [RawType.unresolvedList] using iht t asked _ ht
  simp only at h
  split at h
  · next rest =>
    obtain ⟨⟨others, r'⟩, hothers, he⟩ := except_bind_ok h
    cases he
    have hothers' := ih _ hlen rest rfl others r' (mapError_ok hothers)
    simp only [Parameters.append, RawType.unresolvedList_append]
    exact append_subset_append hnoted hothers'
  · cases h
    exact hnoted
  · cases h

theorem typeName_notes (anonymous : String → Option String) (ts : List Token) :
    TypeNameNotes anonymous ts := by
  refine (typeName.mutual_induct anonymous (TypeNameNotes anonymous) (DeclaratorNotes anonymous)
    (SuffixesNote anonymous) (ParametersNote anonymous) (ParameterListNotes anonymous)
    ?typeName ?plain ?unbalanced ?grouped ?bracket ?paren ?done ?none ?some ?list).1 ts
  case typeName => exact fun ts ih => typeNameNotes ih
  case plain => exact fun u ts v r hlen hp hgroup ih => declaratorNotes_plain hp hgroup ih
  case unbalanced =>
    intro u ts v r hlen hp inner hgroup hsplit t asked r' h
    rw [declarator_unbalanced anonymous hp hgroup hsplit] at h
    cases h
  case grouped =>
    intro u ts v r hlen hp inner hgroup inside behind hsplit _ _ ihs ihd
    exact declaratorNotes_grouped hp hgroup hsplit ihs fun sfx => ihd sfx []
  case bracket => exact fun rest ih => suffixesNote_bracket ih
  case paren => exact fun rest ihp ihs => suffixesNote_paren ihp ihs
  case done => exact fun ts hbracket hparen => suffixesNote_end hbracket hparen
  case none => exact fun rest => parametersNote_none
  case some => exact fun ts hclose ih => parametersNote_some hclose ih
  case list => exact fun ts iht ih => parameterListNotes iht ih

/-- Every name that a type is read with was asked for. -/
theorem read_notes {text : String} {t : RawType} {asked : List String}
    (h : read anonymous text = .ok (t, asked)) : t.unresolved ⊆ asked := by
  obtain ⟨tokens, -, h⟩ := except_bind_ok h
  obtain ⟨⟨t', asked', r⟩, htype, h⟩ := except_bind_ok h
  simp only at h
  split at h
  · cases h
    have hnoted : t'.unresolved ⊆ asked := typeName_notes anonymous tokens t' asked r htype
    obtain ⟨kind, spelling, isConst⟩ := t'
    exact hnoted
  · cases h

end QualType

end Bindery
