import Bindery.Proofs.CType.Returned

/-! Classifying the desugared form of a type, which is what a typedef of the type stands for. -/

namespace Bindery

namespace RawType

theorem constant_kind (t : RawType) : t.constant.kind = t.kind := by
  rw [constant]
  split
  · rfl
  · split <;> rfl

/-- The spelling and the const flag of the outermost level do not matter for the kind. -/
theorem classifySugarless_kind {t t' : RawType} {c : CType} (hkind : t'.kind = t.kind)
    (h : t.classifySugarless = .ok c) : ∃ c', t'.classifySugarless = .ok c' ∧ c'.kind = c.kind := by
  obtain ⟨kind, spelling, isConst⟩ := t
  obtain ⟨kind', spelling', isConst'⟩ := t'
  obtain rfl : kind = kind' := hkind.symm
  cases kind with
  | builtin p => cases h; exact ⟨_, rfl, rfl⟩
  | enum name => cases h; exact ⟨_, rfl, rfl⟩
  | record name isUnion => cases h; exact ⟨_, rfl, rfl⟩
  | unexposed text => cases h
  | typedef name underlying decl => cases h
  | elaborated inner =>
    obtain ⟨t, ht, rfl⟩ := except_bind_pure_iff.mp h
    exact ⟨_, except_bind_pure_iff.mpr ⟨t, ht, rfl⟩, rfl⟩
  | pointer pointee =>
    obtain ⟨t, ht, rfl⟩ := except_bind_pure_iff.mp h
    exact ⟨_, except_bind_pure_iff.mpr ⟨t, ht, rfl⟩, rfl⟩
  | constantArray element n =>
    obtain ⟨t, ht, rfl⟩ := except_bind_pure_iff.mp h
    exact ⟨_, except_bind_pure_iff.mpr ⟨t, ht, rfl⟩, rfl⟩
  | incompleteArray element =>
    obtain ⟨t, ht, rfl⟩ := except_bind_pure_iff.mp h
    exact ⟨_, except_bind_pure_iff.mpr ⟨t, ht, rfl⟩, rfl⟩
  | function result args variadic =>
    obtain ⟨result', hresult, h⟩ := except_bind_ok h
    obtain ⟨args', hargs, he⟩ := except_bind_ok h
    cases he
    refine ⟨⟨.function result' args' none variadic, spelling', isConst'⟩, ?_, rfl⟩
    show (result.classifyWith _ >>= _) = _
    rw [hresult]
    show (classifyListWith _ args >>= _) = _
    rw [hargs]
    rfl

/-- The const flag that a level is given when it takes the place of another one does not matter
either. -/
theorem desugaredKind_classified {kind : RawKind} {spelling : String} {isConst : Bool} {c : CType}
    (h : (⟨kind, spelling, isConst⟩ : RawType).desugared.classifySugarless = .ok c) :
    ∃ c', (desugaredKind kind spelling isConst).classifySugarless = .ok c' ∧ c'.kind = c.kind := by
  refine classifySugarless_kind ?_ h
  rw [desugared]
  cases isConst with
  | false => rfl
  | true => exact (constant_kind _).symm

/-- Only a record is desugared to a record. -/
theorem recordName_of_desugared {c : CType} (hrecord : c.kind.record?.isSome) :
    ∀ t : RawType, t.desugared.classifySugarless = .ok c → t.recordName.isSome
  | ⟨kind, spelling, isConst⟩, h => by
    obtain ⟨c', hc', hkind⟩ := desugaredKind_classified h
    rw [← hkind] at hrecord
    cases kind with
    | elaborated inner => exact recordName_of_desugared hrecord inner hc'
    | typedef name underlying decl => exact recordName_of_desugared hrecord underlying hc'
    | record name isUnion => rfl
    | builtin p => cases hc'; cases hrecord
    | enum name => cases hc'; cases hrecord
    | unexposed text => cases hc'
    | pointer pointee =>
      obtain ⟨t, _, rfl⟩ := except_bind_pure_iff.mp hc'
      cases hrecord
    | constantArray element n =>
      obtain ⟨t, _, rfl⟩ := except_bind_pure_iff.mp hc'
      cases hrecord
    | incompleteArray element =>
      obtain ⟨t, _, rfl⟩ := except_bind_pure_iff.mp hc'
      cases hrecord
    | function result args variadic =>
      obtain ⟨result', _, hrest⟩ := except_bind_ok hc'
      obtain ⟨args', _, he⟩ := except_bind_ok hrest
      cases he
      cases hrecord

end RawType

/-- The way along the results ends at no typedef. -/
def CType.Concrete (t : CType) : Prop :=
  ∀ name canonical decl, t.returnEnd.kind ≠ .typedef name canonical decl

theorem CType.concrete_lasting : Lasting Concrete where
  primitive _ _ _ := nofun
  pointer _ _ _ h := h
  array _ _ _ _ _ := nofun
  record _ _ _ _ := nofun
  function _ _ _ _ _ hresult _ := hresult
  respelled := by
    rintro ⟨kind, _, _⟩ spelling isConst h
    cases kind with
    | typedef name canonical decl => cases decl <;> exact h
    | _ => exact h

end Bindery
