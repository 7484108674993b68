import Bindery.CType.Basic

/-! What is left of a classified type when the spellings are forgotten, at every level. -/

namespace Bindery

mutual

def CType.erased : CType → CType
  | ⟨kind, _, isConst⟩ => ⟨kind.erased, "", isConst⟩

def CKind.erased : CKind → CKind
  | .primitive p => .primitive p
  | .pointer pointee => .pointer pointee.erased
  | .array element count => .array element.erased count
  | .typedef name canonical decl => .typedef name canonical.erased decl
  | .record tag isUnion binding => .record tag isUnion binding
  | .function result args argNames variadic =>
    .function result.erased (CType.erasedList args) argNames variadic

def CType.erasedList : List CType → List CType
  | [] => []
  | t :: ts => t.erased :: CType.erasedList ts

end

/-- A type with another spelling of its outermost level. -/
def CType.respelled (t : CType) (spelling : String) : CType :=
  ⟨t.kind, spelling, t.isConst⟩

def RawType.respelled (t : RawType) (spelling : String) : RawType :=
  ⟨t.kind, spelling, t.isConst⟩

theorem RawType.respelled_self (t : RawType) : t.respelled t.spelling = t := by
  cases t
  rfl

theorem CType.erased_respelled (t : CType) (spelling : String) :
    (t.respelled spelling).erased = t.erased := by
  cases t
  rfl

end Bindery
