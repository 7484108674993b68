import Bindery.CType.Declarator
import Bindery.Proofs.CType.Unbound

/-! The way along the results of a type: the functions on it and the type at its end. -/

namespace Bindery

mutual

/-- The functions on the way along the results, the outermost one first. -/
def CType.returned : CType → List FunctionUse
  | ⟨kind, _, _⟩ => kind.returned

def CKind.returned : CKind → List FunctionUse
  | .pointer pointee => pointee.returned
  | .typedef _ canonical none => canonical.returned
  | .function result args argNames _ => ⟨args.length, argNames⟩ :: result.returned
  | .typedef _ _ (some _) => []
  | .record _ _ _ => []
  | .array _ _ => []
  | .primitive _ => []

end

mutual

/-- The type at the end of the way along the results. -/
def CType.returnEnd : CType → CType
  | ⟨kind, spelling, isConst⟩ => kind.returnEnd spelling isConst

def CKind.returnEnd : CKind → String → Bool → CType
  | .pointer pointee, _, _ => pointee.returnEnd
  | .typedef _ canonical none, _, _ => canonical.returnEnd
  | .function result _ _ _, _, _ => result.returnEnd
  | .typedef name canonical (some d), spelling, isConst =>
    ⟨.typedef name canonical (some d), spelling, isConst⟩
  | .record tag isUnion binding, spelling, isConst =>
    ⟨.record tag isUnion binding, spelling, isConst⟩
  | .array element count, spelling, isConst => ⟨.array element count, spelling, isConst⟩
  | .primitive p, spelling, isConst => ⟨.primitive p, spelling, isConst⟩

end

/-- The way along the results ends with the type. -/
def CType.isEnd : CType → Bool
  | ⟨.pointer _, _, _⟩ => false
  | ⟨.typedef _ _ none, _, _⟩ => false
  | ⟨.function _ _ _ _, _, _⟩ => false
  | _ => true

namespace CType

theorem ends_of_isEnd {t : CType} (h : t.isEnd) : t.returnEnd = t ∧ t.returned = [] := by
  obtain ⟨kind, spelling, isConst⟩ := t
  cases kind with
  | primitive p => exact ⟨rfl, rfl⟩
  | array element count => exact ⟨rfl, rfl⟩
  | record tag isUnion binding => exact ⟨rfl, rfl⟩
  | pointer pointee => cases h
  | function result args argNames variadic => cases h
  | typedef name canonical decl =>
    cases decl with
    | none => cases h
    | some d => exact ⟨rfl, rfl⟩

theorem isEnd_of_record {t : CType} (h : t.kind.record?.isSome) : t.isEnd := by
  obtain ⟨kind, spelling, isConst⟩ := t
  cases kind with
  | record tag isUnion binding => rfl
  | _ => cases h

theorem isEnd_unbound (t : CType) : t.unbound.isEnd = t.isEnd := by
  obtain ⟨kind, spelling, isConst⟩ := t
  cases kind with
  | typedef name canonical decl => cases decl <;> rfl
  | _ => rfl

/-- Induction along the results of a type. -/
@[elab_as_elim]
theorem results_induction {P : CType → Prop} (ending : ∀ t : CType, t.isEnd → P t)
    (pointer : ∀ pointee spelling isConst, P pointee → P ⟨.pointer pointee, spelling, isConst⟩)
    (undeclared : ∀ name canonical spelling isConst, P canonical →
      P ⟨.typedef name canonical none, spelling, isConst⟩)
    (function : ∀ result args argNames variadic spelling isConst, P result →
      P ⟨.function result args argNames variadic, spelling, isConst⟩) : ∀ t, P t
  | ⟨.primitive _, _, _⟩ => ending _ rfl
  | ⟨.array _ _, _, _⟩ => ending _ rfl
  | ⟨.record _ _ _, _, _⟩ => ending _ rfl
  | ⟨.typedef _ _ (some _), _, _⟩ => ending _ rfl
  | ⟨.pointer pointee, spelling, isConst⟩ =>
    pointer pointee spelling isConst (results_induction ending pointer undeclared function pointee)
  | ⟨.typedef name canonical none, spelling, isConst⟩ =>
    undeclared name canonical spelling isConst
      (results_induction ending pointer undeclared function canonical)
  | ⟨.function result args argNames variadic, spelling, isConst⟩ =>
    function result args argNames variadic spelling isConst
      (results_induction ending pointer undeclared function result)

theorem isEnd_returnEnd (t : CType) : t.returnEnd.isEnd := by
  induction t using results_induction with
  | ending t h => rwa [(ends_of_isEnd h).1]
  | pointer _ _ _ ih => exact ih
  | undeclared _ _ _ _ ih => exact ih
  | function _ _ _ _ _ _ ih => exact ih

theorem returned_returnEnd (t : CType) : t.returnEnd.returned = [] :=
  (ends_of_isEnd t.isEnd_returnEnd).2

end CType

end Bindery
