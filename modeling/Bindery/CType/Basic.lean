import Bindery.Decl.RawType
import Bindery.Binding.Error

/-! Classified types. A type without structure is refused; every other one becomes a primitive, a
pointer, an array, a typedef with the type it stands for, a record or a function. -/

namespace Bindery

/-- The use of a record as one instance of a generic. -/
structure GenericBinding where
  generic : String
  specialization : String
  deriving DecidableEq, Repr

mutual

structure CType where
  kind : CKind
  spelling : String
  isConst : Bool

inductive CKind where
  | primitive (primitive : Primitive)
  | pointer (pointee : CType)
  | array (element : CType) (count : Option Nat)
  | typedef (name : String) (canonical : CType) (decl : Option Decl)
  | record (tag : String) (isUnion : Bool) (binding : Option GenericBinding)
  | function (result : CType) (args : List CType) (argNames : Option (List String))
      (variadic : Bool)

end

structure RecordUse where
  tag : String
  isUnion : Bool
  binding : Option GenericBinding
  deriving DecidableEq, Repr

def recordKeyword (isUnion : Bool) : String :=
  if isUnion then "union" else "struct"

namespace CType

def pointee (t : CType) : Option CType :=
  match t.kind with
  | .pointer p => some p
  | _ => none

def isVoid (t : CType) : Bool :=
  match t.kind with
  | .primitive .void => true
  | _ => false

/-- The type below the typedefs of the outermost level. -/
def canonical : CType → CType
  | ⟨.typedef _ canonical _, _, _⟩ => canonical.canonical
  | t => t

/-- The record a type names, through typedefs. -/
def asRecord (t : CType) : Option RecordUse :=
  match t.canonical.kind with
  | .record tag isUnion binding => some ⟨tag, isUnion, binding⟩
  | _ => none

/-- The record a type points to, through typedefs. -/
def pointeeRecord (t : CType) : Option RecordUse :=
  t.canonical.pointee.bind asRecord

/-- The function a type points to, through typedefs. -/
def asFunctionPointer (t : CType) : Option CType :=
  (t.canonical.pointee.map canonical).filter fun f =>
    match f.kind with
    | .function _ _ _ _ => true
    | _ => false

end CType

mutual

/-- Classifies a type, with `meaning` to find out what a typedef stands for. -/
def RawType.classifyWith (meaning : RawType → Except BindError CType) :
    RawType → Except BindError CType
  | ⟨kind, spelling, isConst⟩ => kind.classifyWith meaning spelling isConst

def RawKind.classifyWith (meaning : RawType → Except BindError CType) :
    RawKind → String → Bool → Except BindError CType
  | .elaborated inner, spelling, isConst => do
    let t ← inner.classifyWith meaning
    pure ⟨t.kind, spelling, t.isConst || isConst⟩
  | .builtin p, spelling, isConst => pure ⟨.primitive p, spelling, isConst⟩
  | .enum _, spelling, isConst => pure ⟨.primitive .enum, spelling, isConst⟩
  | .pointer pointee, spelling, isConst => do
    pure ⟨.pointer (← pointee.classifyWith meaning), spelling, isConst⟩
  | .constantArray element n, spelling, isConst => do
    pure ⟨.array (← element.classifyWith meaning) (some n), spelling, isConst⟩
  | .incompleteArray element, spelling, isConst => do
    pure ⟨.array (← element.classifyWith meaning) none, spelling, isConst⟩
  | .typedef name underlying decl, spelling, isConst => do
    pure ⟨.typedef name (← meaning ⟨.typedef name underlying decl, spelling, isConst⟩) decl,
      spelling, isConst⟩
  | .record name isUnion, spelling, isConst =>
    let tag := if name.startsWith "const " then (name.drop 6).toString else name
    pure ⟨.record tag isUnion none, spelling, isConst⟩
  | .function result args variadic, spelling, isConst => do
    let result ← result.classifyWith meaning
    let args ← RawType.classifyListWith meaning args
    pure ⟨.function result args none variadic, spelling, isConst⟩
  | .unexposed text, spelling, _ =>
    .error (.unknownTypeKind (RawKind.unexposed text).label spelling .unknown)

def RawType.classifyListWith (meaning : RawType → Except BindError CType) :
    List RawType → Except BindError (List CType)
  | [] => pure []
  | t :: ts => do
    let t ← t.classifyWith meaning
    let ts ← RawType.classifyListWith meaning ts
    pure (t :: ts)

end

/-- Classifies a type that holds no typedef. -/
def RawType.classifySugarless (t : RawType) : Except BindError CType :=
  t.classifyWith fun t => .error (.unknownTypeKind t.kind.label t.spelling .unknown)

/-- Classifies a type. A typedef stands for its desugared form. -/
def RawType.classify (t : RawType) : Except BindError CType :=
  t.classifyWith fun t => t.desugared.classifySugarless

def Decl.classify (d : Decl) : Except BindError CType :=
  match d.type with
  | none => .error (.unexpectedShape d.name (d.kind.label ++ " has no type") d.location)
  | some t => t.classify.mapError (·.located d.location)

end Bindery
