import Bindery.Proofs.CType.Classified
import Bindery.Proofs.CType.Desugared
import Bindery.Proofs.CType.Sugar

/-! The record that a type points to can be told from the type as written. -/

namespace Bindery

namespace RawType

/-- The tag of the record that a type points to, through keywords and typedefs. -/
def pointedTag (t : RawType) : Option String :=
  (t.canonical.pointee.bind recordName).map bareTag

/-- What a type is classified as, on its own or as what a typedef stands for. -/
def Means (t : RawType) (c : CType) : Prop :=
  t.classify = .ok c ∨ t.desugared.classifySugarless = .ok c

variable {t : RawType} {c : CType}

theorem canonical_isSugarless (t : RawType) : (∀ inner, t.canonical.kind ≠ .elaborated inner) ∧
    ∀ name underlying decl, t.canonical.kind ≠ .typedef name underlying decl := by
  fun_induction canonical t with
  | case1 inner _ _ ih => exact ih
  | case2 name underlying decl _ _ ih => exact ih
  | case3 t helaborated htypedef =>
    obtain ⟨kind, spelling, isConst⟩ := t
    refine ⟨fun inner h => ?_, fun name underlying decl h => ?_⟩
    · exact helaborated inner spelling isConst (congrArg (mk · spelling isConst) h)
    · exact htypedef name underlying decl spelling isConst (congrArg (mk · spelling isConst) h)

theorem canonical_kind_congr {c c' : CType} (h : c'.kind = c.kind) :
    c'.canonical.kind = c.canonical.kind := by
  obtain ⟨kind, spelling, isConst⟩ := c
  obtain ⟨kind', spelling', isConst'⟩ := c'
  obtain rfl : kind' = kind := h
  cases kind' <;> rfl

theorem Means.of_elaborated {inner : RawType} {spelling : String} {isConst : Bool}
    (h : Means ⟨.elaborated inner, spelling, isConst⟩ c) :
    ∃ c', inner.Means c' ∧ c'.kind = c.kind := by
  rcases h with h | h
  · obtain ⟨c', hc', rfl⟩ := classify_elaborated_iff.mp h
    exact ⟨c', .inl hc', rfl⟩
  · obtain ⟨c', hc', hkind⟩ := desugaredKind_classified h
    exact ⟨c', .inr hc', hkind⟩

theorem Means.of_typedef {name : String} {underlying : RawType} {decl : Option Decl}
    {spelling : String} {isConst : Bool}
    (h : Means ⟨.typedef name underlying decl, spelling, isConst⟩ c) :
    ∃ c', underlying.Means c' ∧ c'.canonical.kind = c.canonical.kind := by
  rcases h with h | h
  · obtain ⟨t, ht, rfl⟩ := classify_typedef_iff.mp h
    have hkind : underlying.desugared.kind =
        (if isConst then underlying.desugared.constant else underlying.desugared).kind := by
      split
      · exact (constant_kind _).symm
      · rfl
    obtain ⟨c', hc', hsame⟩ := classifySugarless_kind hkind ht
    have hcanonical : c'.canonical.kind = t.canonical.kind := canonical_kind_congr hsame
    exact ⟨c', .inr hc', hcanonical⟩
  · obtain ⟨c', hc', hkind⟩ := desugaredKind_classified h
    exact ⟨c', .inr hc', canonical_kind_congr hkind⟩

/-- Keywords and typedefs around a type do not change what it is below them. -/
theorem Means.canonical (h : t.Means c) :
    ∃ c', t.canonical.Means c' ∧ c'.canonical.kind = c.canonical.kind := by
  fun_induction RawType.canonical t generalizing c with
  | case1 inner _ _ ih =>
    obtain ⟨c', hc', hkind⟩ := h.of_elaborated
    obtain ⟨c'', hc'', hsame⟩ := ih hc'
    exact ⟨c'', hc'', hsame.trans (canonical_kind_congr hkind)⟩
  | case2 name underlying decl _ _ ih =>
    obtain ⟨c', hc', hkind⟩ := h.of_typedef
    obtain ⟨c'', hc'', hsame⟩ := ih hc'
    exact ⟨c'', hc'', hsame.trans hkind⟩
  | case3 t _ _ => exact ⟨c, h, rfl⟩

/-- What a kind below all sugar is classified as. -/
inductive Shows : RawKind → CKind → Prop where
  | pointer {pointee : RawType} {c : CType} (h : pointee.Means c) :
    Shows (.pointer pointee) (.pointer c)
  | record {name : String} {isUnion : Bool} :
    Shows (.record name isUnion) (.record (bareTag name) isUnion none)
  | builtin {p : Primitive} : Shows (.builtin p) (.primitive p)
  | enum {name : String} : Shows (.enum name) (.primitive .enum)
  | constantArray {element : RawType} {n : Nat} {c : CType} :
    Shows (.constantArray element n) (.array c (some n))
  | incompleteArray {element : RawType} {c : CType} :
    Shows (.incompleteArray element) (.array c none)
  | function {result : RawType} {args : List RawType} {variadic : Bool} {r : CType}
      {ts : List CType} :
    Shows (.function result args variadic) (.function r ts none variadic)

theorem Means.shows (h : t.Means c) (helaborated : ∀ inner, t.kind ≠ .elaborated inner)
    (htypedef : ∀ name underlying decl, t.kind ≠ .typedef name underlying decl) :
    Shows t.kind c.kind := by
  obtain ⟨kind, spelling, isConst⟩ := t
  rcases h with h | h
  · cases kind with
    | builtin p => cases h; exact .builtin
    | enum name => cases h; exact .enum
    | record name isUnion => cases h; exact .record
    | unexposed text => cases h
    | elaborated inner => exact absurd rfl (helaborated inner)
    | typedef name underlying decl => exact absurd rfl (htypedef name underlying decl)
    | pointer pointee =>
      obtain ⟨t, ht, rfl⟩ := classify_pointer_iff.mp h
      exact .pointer (.inl ht)
    | constantArray element n =>
      obtain ⟨t, -, rfl⟩ := classify_constantArray_iff.mp h
      exact .constantArray
    | incompleteArray element =>
      obtain ⟨t, -, rfl⟩ := classify_incompleteArray_iff.mp h
      exact .incompleteArray
    | function result args variadic =>
      obtain ⟨r, ts, -, -, rfl⟩ := classify_function_iff.mp h
      exact .function
  · obtain ⟨c', hc', hkind⟩ := desugaredKind_classified h
    rw [← hkind]
    cases kind with
    | builtin p => cases hc'; exact .builtin
    | enum name => cases hc'; exact .enum
    | record name isUnion => cases hc'; exact .record
    | unexposed text => cases hc'
    | elaborated inner => exact absurd rfl (helaborated inner)
    | typedef name underlying decl => exact absurd rfl (htypedef name underlying decl)
    | pointer pointee =>
      obtain ⟨t, ht, rfl⟩ := except_bind_pure_iff.mp hc'
      exact .pointer (.inr ht)
    | constantArray element n =>
      obtain ⟨t, -, rfl⟩ := except_bind_pure_iff.mp hc'
      exact .constantArray
    | incompleteArray element =>
      obtain ⟨t, -, rfl⟩ := except_bind_pure_iff.mp hc'
      exact .incompleteArray
    | function result args variadic =>
      obtain ⟨result', -, hrest⟩ := except_bind_ok hc'
      obtain ⟨args', -, he⟩ := except_bind_ok hrest
      cases he
      exact .function

/-- A type is classified as what the type below its sugar shows. -/
theorem Means.canonical_shows (h : t.Means c) : Shows t.canonical.kind c.canonical.kind := by
  obtain ⟨c', hc', hkind⟩ := h.canonical
  obtain ⟨helaborated, htypedef⟩ := canonical_isSugarless t
  have hshows := hc'.shows helaborated htypedef
  have hself : c'.canonical.kind = c'.kind := by
    generalize t.canonical.kind = kind at hshows
    obtain ⟨kind', spelling, isConst⟩ := c'
    cases hshows <;> rfl
  rwa [← hkind, hself]

theorem Means.asRecord (h : t.Means c) : c.asRecord.map (·.tag) = t.recordName.map bareTag := by
  have hshows := h.canonical_shows
  unfold CType.asRecord recordName
  revert hshows
  generalize t.canonical.kind = kind
  generalize c.canonical.kind = kind'
  intro hshows
  cases hshows <;> rfl

theorem Means.pointeeRecord (h : t.Means c) : c.pointeeRecord.map (·.tag) = t.pointedTag := by
  have hshows := h.canonical_shows
  unfold CType.pointeeRecord CType.pointee pointedTag pointee
  revert hshows
  generalize t.canonical.kind = kind
  generalize c.canonical.kind = kind'
  intro hshows
  cases hshows with
  | pointer h => exact h.asRecord
  | _ => rfl

theorem pointeeRecord_of_classify (h : t.classify = .ok c) :
    c.pointeeRecord.map (·.tag) = t.pointedTag :=
  Means.pointeeRecord (.inl h)

end RawType

end Bindery
