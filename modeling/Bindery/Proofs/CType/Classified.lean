import Mathlib.Data.List.Forall2
import Bindery.Proofs.CType.Erased
import Bindery.Proofs.Result

/-! When a type is classified, level by level, and how little its outermost spelling matters. -/

namespace Bindery

namespace RawType

section

variable {spelling : String} {isConst : Bool} {c : CType}

theorem classify_elaborated_iff {inner : RawType} :
    (⟨.elaborated inner, spelling, isConst⟩ : RawType).classify = .ok c ↔
      ∃ t, inner.classify = .ok t ∧ c = ⟨t.kind, spelling, t.isConst || isConst⟩ :=
  except_bind_pure_iff

theorem classify_pointer_iff {pointee : RawType} :
    (⟨.pointer pointee, spelling, isConst⟩ : RawType).classify = .ok c ↔
      ∃ t, pointee.classify = .ok t ∧ c = ⟨.pointer t, spelling, isConst⟩ :=
  except_bind_pure_iff

theorem classify_constantArray_iff {element : RawType} {n : Nat} :
    (⟨.constantArray element n, spelling, isConst⟩ : RawType).classify = .ok c ↔
      ∃ t, element.classify = .ok t ∧ c = ⟨.array t (some n), spelling, isConst⟩ :=
  except_bind_pure_iff

theorem classify_incompleteArray_iff {element : RawType} :
    (⟨.incompleteArray element, spelling, isConst⟩ : RawType).classify = .ok c ↔
      ∃ t, element.classify = .ok t ∧ c = ⟨.array t none, spelling, isConst⟩ :=
  except_bind_pure_iff

/-- A typedef stands for its desugared form, which does not depend on its spelling. -/
theorem classify_typedef_iff {name : String} {underlying : RawType} {decl : Option Decl} :
    (⟨.typedef name underlying decl, spelling, isConst⟩ : RawType).classify = .ok c ↔
      ∃ t, (if isConst then underlying.desugared.constant
          else underlying.desugared).classifySugarless = .ok t ∧
        c = ⟨.typedef name t decl, spelling, isConst⟩ :=
  except_bind_pure_iff

theorem classifyListWith_iff {meaning : RawType → Except BindError CType} {ts : List RawType}
    {cs : List CType} : classifyListWith meaning ts = .ok cs ↔
      List.Forall₂ (fun t c => t.classifyWith meaning = .ok c) ts cs := by
  induction ts generalizing cs with
  | nil =>
    constructor
    · intro h
      cases h
      exact .nil
    · intro h
      cases h
      rfl
  | cons t ts ih =>
    constructor
    · intro h
      obtain ⟨c, hc, h⟩ := except_bind_ok h
      obtain ⟨cs, hcs, he⟩ := except_bind_ok h
      cases he
      exact .cons hc (ih.mp hcs)
    · rintro (_ | ⟨hc, hcs⟩)
      show (t.classifyWith meaning >>= _) = _
      rw [hc]
      show (classifyListWith meaning ts >>= _) = _
      rw [ih.mpr hcs]
      rfl

theorem classify_function_iff {result : RawType} {args : List RawType} {variadic : Bool} :
    (⟨.function result args variadic, spelling, isConst⟩ : RawType).classify = .ok c ↔
      ∃ r ts, result.classify = .ok r ∧
        List.Forall₂ (fun t c => t.classify = .ok c) args ts ∧
        c = ⟨.function r ts none variadic, spelling, isConst⟩ := by
  constructor
  · intro h
    obtain ⟨r, hr, h⟩ := except_bind_ok h
    obtain ⟨ts, hts, he⟩ := except_bind_ok h
    exact ⟨r, ts, hr, classifyListWith_iff.mp hts, (Except.ok.inj he).symm⟩
  · rintro ⟨r, ts, hr, hts, rfl⟩
    show (result.classify >>= _) = _
    rw [hr]
    show (classifyListWith _ args >>= _) = _
    rw [classifyListWith_iff.mpr hts]
    rfl

end

/-- The outermost spelling of a type is kept when the type is classified. -/
theorem classify_respelled {t : RawType} {c : CType} (h : t.classify = .ok c) (spelling : String) :
    (t.respelled spelling).classify = .ok (c.respelled spelling) := by
  obtain ⟨kind, written, isConst⟩ := t
  cases kind with
  | builtin p => cases h; rfl
  | enum name => cases h; rfl
  | record name isUnion => cases h; rfl
  | unexposed text => cases h
  | elaborated inner =>
    obtain ⟨t, ht, rfl⟩ := classify_elaborated_iff.mp h
    exact classify_elaborated_iff.mpr ⟨t, ht, rfl⟩
  | pointer pointee =>
    obtain ⟨t, ht, rfl⟩ := classify_pointer_iff.mp h
    exact classify_pointer_iff.mpr ⟨t, ht, rfl⟩
  | constantArray element n =>
    obtain ⟨t, ht, rfl⟩ := classify_constantArray_iff.mp h
    exact classify_constantArray_iff.mpr ⟨t, ht, rfl⟩
  | incompleteArray element =>
    obtain ⟨t, ht, rfl⟩ := classify_incompleteArray_iff.mp h
    exact classify_incompleteArray_iff.mpr ⟨t, ht, rfl⟩
  | typedef name underlying decl =>
    obtain ⟨t, ht, rfl⟩ := classify_typedef_iff.mp h
    exact classify_typedef_iff.mpr ⟨t, ht, rfl⟩
  | function result args variadic =>
    obtain ⟨r, ts, hr, hts, rfl⟩ := classify_function_iff.mp h
    exact classify_function_iff.mpr ⟨r, ts, hr, hts, rfl⟩

theorem spelling_of_classify {t : RawType} {c : CType} (h : t.classify = .ok c) :
    c.spelling = t.spelling := by
  have hsame := classify_respelled h t.spelling
  rw [respelled_self, h] at hsame
  exact congrArg CType.spelling (Except.ok.inj hsame)

end RawType

end Bindery
