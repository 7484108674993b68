import Mathlib.Logic.Basic
import Bindery.Proofs.CType.Sugar

/-! Types without sugar. Taking the sugar off gives them, and gives them back up to spellings. -/

namespace Bindery

mutual

/-- No keyword and no typedef stands at any level. -/
def RawType.isSugarless : RawType → Bool
  | ⟨kind, _, _⟩ => kind.isSugarless

def RawKind.isSugarless : RawKind → Bool
  | .elaborated _ => false
  | .typedef _ _ _ => false
  | .pointer pointee => pointee.isSugarless
  | .constantArray element _ => element.isSugarless
  | .incompleteArray element => element.isSugarless
  | .function result args _ => result.isSugarless && RawType.areSugarless args
  | .builtin _ => true
  | .record _ _ => true
  | .enum _ => true
  | .unexposed _ => true

def RawType.areSugarless : List RawType → Bool
  | [] => true
  | t :: ts => t.isSugarless && RawType.areSugarless ts

end

mutual

/-- A pointer, an array or a function is const, by itself or by the sugar around it; `outer` is the
flag of the sugar around the type. -/
def RawType.hasConstShape (outer : Bool) : RawType → Bool
  | ⟨kind, _, isConst⟩ => kind.hasConstShape (outer || isConst)

def RawKind.hasConstShape (isConst : Bool) : RawKind → Bool
  | .elaborated inner => inner.hasConstShape isConst
  | .typedef _ underlying _ => underlying.hasConstShape isConst
  | .pointer pointee => isConst || pointee.hasConstShape false
  | .constantArray element _ => isConst || element.hasConstShape false
  | .incompleteArray element => isConst || element.hasConstShape false
  | .function result args _ =>
    isConst || (result.hasConstShape false || RawType.haveConstShape args)
  | .builtin _ => false
  | .record _ _ => false
  | .enum _ => false
  | .unexposed _ => false

def RawType.haveConstShape : List RawType → Bool
  | [] => false
  | t :: ts => t.hasConstShape false || RawType.haveConstShape ts

end

mutual

/-- What is left of a type when the spellings are forgotten, at every level. -/
def RawType.unspelled : RawType → RawType
  | ⟨kind, _, isConst⟩ => ⟨kind.unspelled, "", isConst⟩

def RawKind.unspelled : RawKind → RawKind
  | .elaborated inner => .elaborated inner.unspelled
  | .typedef name underlying decl => .typedef name underlying.unspelled decl
  | .pointer pointee => .pointer pointee.unspelled
  | .constantArray element n => .constantArray element.unspelled n
  | .incompleteArray element => .incompleteArray element.unspelled
  | .function result args variadic =>
    .function result.unspelled (RawType.unspelledList args) variadic
  | .builtin p => .builtin p
  | .record name isUnion => .record name isUnion
  | .enum name => .enum name
  | .unexposed text => .unexposed text

def RawType.unspelledList : List RawType → List RawType
  | [] => []
  | t :: ts => t.unspelled :: RawType.unspelledList ts

end

namespace RawType

theorem desugared_eq (kind : RawKind) (spelling : String) (isConst : Bool) :
    (⟨kind, spelling, isConst⟩ : RawType).desugared =
      (desugaredKind kind spelling isConst).constIf isConst := by
  rw [desugared, constIf]

theorem isSugarless_constIf (outer : Bool) (t : RawType) :
    (t.constIf outer).isSugarless = t.isSugarless := by
  obtain ⟨kind, spelling, isConst⟩ := t
  obtain ⟨written, he⟩ := constIf_eq outer kind spelling isConst
  rw [he, isSugarless, isSugarless]

theorem unspelled_constIf (outer : Bool) (kind : RawKind) (spelling : String) (isConst : Bool) :
    ((⟨kind, spelling, isConst⟩ : RawType).constIf outer).unspelled =
      ⟨kind.unspelled, "", outer || isConst⟩ := by
  obtain ⟨written, he⟩ := constIf_eq outer kind spelling isConst
  rw [he, unspelled]

theorem hasConstShape_constIf (outer : Bool) (kind : RawKind) (spelling : String) (isConst : Bool) :
    ((⟨kind, spelling, isConst⟩ : RawType).constIf outer).hasConstShape false =
      kind.hasConstShape (outer || isConst) := by
  obtain ⟨written, he⟩ := constIf_eq outer kind spelling isConst
  rw [he, hasConstShape, Bool.false_or]

/-- A level that is built anew and made const again has the old spelling only if it is not const. -/
theorem constIf_ofKind_eq_iff {kind kind' : RawKind} {spelling : String} {isConst : Bool} :
    (ofKind kind spelling).constIf isConst = ⟨kind', spelling, isConst⟩ ↔
      isConst = false ∧ kind = kind' := by
  cases isConst with
  | false => simp [constIf, ofKind]
  | true =>
    have hspelling : ((ofKind kind spelling).constIf true).spelling ≠ spelling := by
      intro he
      have hlength := congrArg String.length he
      cases kind <;> simp [constIf, constant, ofKind] at hlength
    simp only [Bool.true_eq_false, false_and, iff_false]
    exact fun he => hspelling (congrArg RawType.spelling he)

mutual

theorem isSugarless_desugared (t : RawType) : t.desugared.isSugarless := by
  obtain ⟨kind, spelling, isConst⟩ := t
  rw [desugared_eq, isSugarless_constIf]
  exact isSugarless_desugaredKind kind spelling isConst

theorem isSugarless_desugaredKind (kind : RawKind) (spelling : String) (isConst : Bool) :
    (desugaredKind kind spelling isConst).isSugarless := by
  cases kind with
  | elaborated inner => exact isSugarless_desugared inner
  | typedef name underlying decl => exact isSugarless_desugared underlying
  | pointer pointee => exact isSugarless_desugared pointee
  | constantArray element n => exact isSugarless_desugared element
  | incompleteArray element => exact isSugarless_desugared element
  | function result args variadic =>
    exact Bool.and_eq_true_iff.mpr ⟨isSugarless_desugared result, areSugarless_desugaredList args⟩
  | builtin p => rfl
  | record name isUnion => rfl
  | enum name => rfl
  | unexposed text => rfl

theorem areSugarless_desugaredList (ts : List RawType) : areSugarless (desugaredList ts) := by
  cases ts with
  | nil => rfl
  | cons t ts =>
    exact Bool.and_eq_true_iff.mpr ⟨isSugarless_desugared t, areSugarless_desugaredList ts⟩

end

mutual

theorem isSugarless_unspelled (t : RawType) : t.unspelled.isSugarless = t.isSugarless := by
  obtain ⟨kind, spelling, isConst⟩ := t
  cases kind with
  | elaborated inner => rfl
  | typedef name underlying decl => rfl
  | pointer pointee => exact isSugarless_unspelled pointee
  | constantArray element n => exact isSugarless_unspelled element
  | incompleteArray element => exact isSugarless_unspelled element
  | function result args variadic =>
    exact congrArg₂ (· && ·) (isSugarless_unspelled result) (areSugarless_unspelledList args)
  | builtin p => rfl
  | record name isUnion => rfl
  | enum name => rfl
  | unexposed text => rfl

theorem areSugarless_unspelledList (ts : List RawType) :
    areSugarless (unspelledList ts) = areSugarless ts := by
  cases ts with
  | nil => rfl
  | cons t ts =>
    exact congrArg₂ (· && ·) (isSugarless_unspelled t) (areSugarless_unspelledList ts)

end

mutual

/-- A type without sugar keeps the kind and the const flag of every level. -/
theorem unspelled_desugared (t : RawType) (h : t.isSugarless) :
    t.desugared.unspelled = t.unspelled := by
  obtain ⟨kind, spelling, isConst⟩ := t
  rw [desugared_eq, unspelled]
  cases kind with
  | elaborated inner => cases h
  | typedef name underlying decl => cases h
  | pointer pointee =>
    rw [desugaredKind, ofKind, unspelled_constIf, Bool.or_false, RawKind.unspelled,
      unspelled_desugared pointee h, RawKind.unspelled]
  | constantArray element n =>
    rw [desugaredKind, ofKind, unspelled_constIf, Bool.or_false, RawKind.unspelled,
      unspelled_desugared element h, RawKind.unspelled]
  | incompleteArray element =>
    rw [desugaredKind, ofKind, unspelled_constIf, Bool.or_false, RawKind.unspelled,
      unspelled_desugared element h, RawKind.unspelled]
  | function result args variadic =>
    obtain ⟨hresult, hargs⟩ := Bool.and_eq_true_iff.mp h
    rw [desugaredKind, ofKind, unspelled_constIf, Bool.or_false, RawKind.unspelled,
      unspelled_desugared result hresult, unspelled_desugaredList args hargs, RawKind.unspelled]
  | builtin p => rw [desugaredKind, unspelled_constIf, Bool.or_self]
  | record name isUnion => rw [desugaredKind, unspelled_constIf, Bool.or_self]
  | enum name => rw [desugaredKind, unspelled_constIf, Bool.or_self]
  | unexposed text => rw [desugaredKind, unspelled_constIf, Bool.or_self]

theorem unspelled_desugaredList (ts : List RawType) (h : areSugarless ts) :
    unspelledList (desugaredList ts) = unspelledList ts := by
  cases ts with
  | nil => rfl
  | cons t ts =>
    obtain ⟨ht, hts⟩ := Bool.and_eq_true_iff.mp h
    exact congrArg₂ List.cons (unspelled_desugared t ht) (unspelled_desugaredList ts hts)

end

mutual

theorem hasConstShape_desugared (outer : Bool) (t : RawType) :
    (t.desugared.constIf outer).hasConstShape false = t.hasConstShape outer := by
  obtain ⟨kind, spelling, isConst⟩ := t
  have hconst : (outer || isConst || isConst) = (outer || isConst) := by cases isConst <;> simp
  rw [desugared_constIf, hasConstShape]
  exact hasConstShape_desugaredKind kind spelling hconst

theorem hasConstShape_desugaredKind (kind : RawKind) (spelling : String) {isConst c : Bool}
    (hconst : (c || isConst) = c) :
    ((desugaredKind kind spelling isConst).constIf c).hasConstShape false =
      kind.hasConstShape c := by
  cases kind with
  | elaborated inner => exact hasConstShape_desugared c inner
  | typedef name underlying decl => exact hasConstShape_desugared c underlying
  | pointer pointee =>
    rw [desugaredKind, ofKind, hasConstShape_constIf, Bool.or_false, RawKind.hasConstShape,
      RawKind.hasConstShape, ← hasConstShape_desugared false pointee]
    rfl
  | constantArray element n =>
    rw [desugaredKind, ofKind, hasConstShape_constIf, Bool.or_false, RawKind.hasConstShape,
      RawKind.hasConstShape, ← hasConstShape_desugared false element]
    rfl
  | incompleteArray element =>
    rw [desugaredKind, ofKind, hasConstShape_constIf, Bool.or_false, RawKind.hasConstShape,
      RawKind.hasConstShape, ← hasConstShape_desugared false element]
    rfl
  | function result args variadic =>
    rw [desugaredKind, ofKind, hasConstShape_constIf, Bool.or_false, RawKind.hasConstShape,
      RawKind.hasConstShape, ← hasConstShape_desugared false result,
      ← haveConstShape_desugaredList args]
    rfl
  | builtin p => rw [desugaredKind, hasConstShape_constIf, hconst]
  | record name isUnion => rw [desugaredKind, hasConstShape_constIf, hconst]
  | enum name => rw [desugaredKind, hasConstShape_constIf, hconst]
  | unexposed text => rw [desugaredKind, hasConstShape_constIf, hconst]

theorem haveConstShape_desugaredList (ts : List RawType) :
    haveConstShape (desugaredList ts) = haveConstShape ts := by
  cases ts with
  | nil => rfl
  | cons t ts =>
    exact congrArg₂ (· || ·) (hasConstShape_desugared false t) (haveConstShape_desugaredList ts)

end

mutual

/-- A type without sugar is its own desugared form unless one of its pointers, arrays or functions is
const. -/
theorem desugared_eq_self_iff (t : RawType) (h : t.isSugarless) :
    t.desugared = t ↔ t.hasConstShape false = false := by
  obtain ⟨kind, spelling, isConst⟩ := t
  rw [desugared_eq, hasConstShape, Bool.false_or]
  cases kind with
  | elaborated inner => cases h
  | typedef name underlying decl => cases h
  | pointer pointee =>
    rw [desugaredKind, constIf_ofKind_eq_iff, RawKind.pointer.injEq,
      desugared_eq_self_iff pointee h, RawKind.hasConstShape, Bool.or_eq_false_iff]
  | constantArray element n =>
    rw [desugaredKind, constIf_ofKind_eq_iff, RawKind.constantArray.injEq, eq_self n, and_true,
      desugared_eq_self_iff element h, RawKind.hasConstShape, Bool.or_eq_false_iff]
  | incompleteArray element =>
    rw [desugaredKind, constIf_ofKind_eq_iff, RawKind.incompleteArray.injEq,
      desugared_eq_self_iff element h, RawKind.hasConstShape, Bool.or_eq_false_iff]
  | function result args variadic =>
    obtain ⟨hresult, hargs⟩ := Bool.and_eq_true_iff.mp h
    rw [desugaredKind, constIf_ofKind_eq_iff, RawKind.function.injEq, eq_self variadic, and_true,
      desugared_eq_self_iff result hresult, desugaredList_eq_self_iff args hargs,
      RawKind.hasConstShape, Bool.or_eq_false_iff, Bool.or_eq_false_iff]
  | builtin p => cases isConst <;> simp [desugaredKind, constIf, constant, RawKind.hasConstShape]
  | record name isUnion =>
    cases isConst <;> simp [desugaredKind, constIf, constant, RawKind.hasConstShape]
  | enum name => cases isConst <;> simp [desugaredKind, constIf, constant, RawKind.hasConstShape]
  | unexposed text =>
    cases isConst <;> simp [desugaredKind, constIf, constant, RawKind.hasConstShape]

theorem desugaredList_eq_self_iff (ts : List RawType) (h : areSugarless ts) :
    desugaredList ts = ts ↔ haveConstShape ts = false := by
  cases ts with
  | nil => exact ⟨fun _ => rfl, fun _ => rfl⟩
  | cons t ts =>
    obtain ⟨ht, hts⟩ := Bool.and_eq_true_iff.mp h
    rw [desugaredList, List.cons.injEq, desugared_eq_self_iff t ht,
      desugaredList_eq_self_iff ts hts, haveConstShape, Bool.or_eq_false_iff]

end

/-- Desugaring gives a type without sugar and keeps every level of such a type, so it is a projection
up to spellings. It is one with the spellings as well if, and only if, no pointer, array or function
is const. -/
theorem desugared_projects_iff (t : RawType) :
    t.desugared.isSugarless ∧
    (t.desugared.unspelled = t.unspelled ↔ t.isSugarless) ∧
    t.desugared.desugared.unspelled = t.desugared.unspelled ∧
    (t.desugared = t ↔ t.isSugarless ∧ ¬ t.hasConstShape false) ∧
    (t.desugared.desugared = t.desugared ↔ ¬ t.hasConstShape false) := by
  have hdesugared := isSugarless_desugared t
  have hshape : t.desugared.hasConstShape false = t.hasConstShape false :=
    hasConstShape_desugared false t
  refine ⟨hdesugared, ⟨fun he => ?_, unspelled_desugared t⟩,
    unspelled_desugared t.desugared hdesugared, ⟨fun he => ?_, fun h => ?_⟩, ?_⟩
  · rw [← isSugarless_unspelled, ← he, isSugarless_unspelled]
    exact hdesugared
  · have hsugarless : t.isSugarless := he ▸ hdesugared
    have hplain := (desugared_eq_self_iff t hsugarless).mp he
    exact ⟨hsugarless, Bool.not_eq_true _ ▸ hplain⟩
  · exact (desugared_eq_self_iff t h.1).mpr (Bool.eq_false_iff.mpr h.2)
  · rw [desugared_eq_self_iff t.desugared hdesugared, hshape, Bool.not_eq_true]

/-- The type `int *const`. -/
def fixedPointer : RawType :=
  (RawType.pointer (.builtin .int)).constant

/-- Desugaring spells the pointer `int * const const`, and puts another `const` behind it when it is
done once more. -/
theorem fixedPointer_respelled : fixedPointer.isSugarless ∧
    fixedPointer.spelling = "int * const" ∧
    fixedPointer.desugared.spelling = "int * const const" ∧
    fixedPointer.desugared ≠ fixedPointer ∧
    fixedPointer.desugared.desugared ≠ fixedPointer.desugared := by
  have hspelling : fixedPointer.spelling = "int * const" := by decide +kernel
  have honce : fixedPointer.desugared.spelling = "int * const const" := by decide +kernel
  have htwice : fixedPointer.desugared.desugared.spelling = "int * const const const" := by decide +kernel
  refine ⟨rfl, hspelling, honce, fun he => ?_, fun he => ?_⟩
  · rw [he, hspelling] at honce
    exact absurd honce (by decide)
  · rw [he, honce] at htwice
    exact absurd htwice (by decide)

end RawType

end Bindery
